import Peios.Registry.Key

/-!
# Deleting a tree of keys

The iterator `Key::subkeys` returns and the two functions built on it, `Key::gather` and
`Key::delete_tree` (`peios/src/registry.rs`), as programs over the methods of `Key`.

`gather` recurses as deep as the tree and loops over the subkeys of every key.  Both are bounded by
one argument, a number of rounds; `Equiv/DeleteTree.lean` says how many are enough.
-/

namespace Peios.Registry

open ByteString

/-- `Subkeys`: an iterator over a key's child keys. -/
structure Subkeys where
  key : Key
  txn : Option Transaction
  index : UInt32
  done : Bool

/-- `Key::subkeys`. -/
def Key.subkeys (key : Key) (txn : Option Transaction) : Subkeys :=
  { key, txn, index := 0, done := false }

/-- `self.index += 1`, which panics when it overflows. -/
def Subkeys.advance (it : Subkeys) : KeyProg Subkeys :=
  if it.index.toNat + 1 < 2 ^ 32 then return { it with index := it.index + 1 } else throw .panic

/-- `Subkeys::next`. -/
def Subkeys.next (it : Subkeys) : KeyProg (Option (Except Errno Subkey) × Subkeys) := do
  if it.done then return (none, it)
  match ← (KeyCall.enumSubkey it.key it.index it.txn).attempt with
  | .ok (some s) => return (some (.ok s), ← it.advance)
  | .ok none => return (none, { it with done := true })
  | .error e => return (some (.error e), { it with done := true })

/-- `.map(|subkey| subkey.map(|subkey| subkey.name)).collect::<Result<Vec<_>>>()?`, for at most
`rounds` calls of `next`. -/
def Subkeys.collectNames : Nat → Subkeys → List Bytes → KeyProg (List Bytes)
  | 0, _, _ => throw .fuel
  | rounds + 1, it, names => do
    match ← it.next with
    | (none, _) => return names
    | (some (.ok s), it) => it.collectNames rounds (names ++ [s.name])
    | (some (.error e), _) => KeyProg.err e

/-- `String::from_utf8(name).map_err(|_| Error::from_raw_os_error(EINVAL))?`. -/
def nameOfUtf8 (name : Bytes) : KeyProg String :=
  match fromUtf8 name with
  | some name => return name
  | none => KeyProg.err EINVAL

/-- The body of the loop of `Key::gather`, with what it calls recursively. -/
def Key.gatherChild (gather : Key → List Key → KeyProg (List Key)) (key : Key) (under : List Key)
    (name : Bytes) : KeyProg (List Key) := do
  let name ← nameOfUtf8 name
  let child ← (KeyCall.open (some key) name
    (KeyAccess.DELETE ||| KeyAccess.ENUMERATE_SUB_KEYS) OpenFlags.OPEN_LINK).ask
  let under ← gather child under
  return under ++ [child]

/-- `Key::gather`: opens every key under this one into `under`, each after the keys under it. -/
def Key.gather : Nat → Key → Option Transaction → List Key → KeyProg (List Key)
  | 0, _, _, _ => throw .fuel
  | rounds + 1, key, txn, under => do
    let names ← (key.subkeys txn).collectNames (rounds + 1) []
    names.foldlM (key.gatherChild fun child under => child.gather rounds txn under) under

/-- `Key::delete_tree`: deletes this key and every key under it from `layer`, the deepest first.
Returns how many keys were deleted. -/
def Key.deleteTree (rounds : Nat) (key : Key) (layer : Option String)
    (txn : Option Transaction) : KeyProg Nat := do
  let under ← key.gather rounds txn []
  forM under fun child => (KeyCall.deleteKey child layer txn).ask
  (KeyCall.deleteKey key layer txn).ask
  return under.length + 1

end Peios.Registry
