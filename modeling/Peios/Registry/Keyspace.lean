import Mathlib.Data.Set.Insert
import Peios.Interaction.Concurrent
import Peios.Registry.Hive

/-!
# A registry that others change

In a `Keyspace` keys are created and deleted by several processes.  Where a key lies, and what it is
called there, is settled when it is created, and no other key is ever created in its stead; a key
that lies in another can be there only as long as that other one is.  `Keyspace.Answers` says what
one process is answered, and `Keyspace.Others` what the others do between its calls.

All entries are in one layer, and no link is followed: `OPEN_LINK` opens a link itself.
-/

namespace Peios.Registry

open Interaction ByteString Relation

/-- What happens to keys. -/
inductive KeyEvent where
  | created (key : KeyId)
  /-- Our process has deleted it. -/
  | deleted (key : KeyId)
  /-- Another has. -/
  | lost (key : KeyId)
  deriving DecidableEq

namespace KeyEvent

/-- The key, if our process has deleted it. -/
def own? : KeyEvent → Option KeyId
  | deleted k => some k
  | _ => none

/-- The keys that our process has deleted. -/
def own (log : List KeyEvent) : List KeyId := log.filterMap own?

variable {log log' : List KeyEvent} {k : KeyId}

@[simp] theorem own_append : own (log ++ log') = own log ++ own log' := List.filterMap_append

@[simp] theorem own_nil : own [] = [] := rfl

@[simp] theorem own_created : own [created k] = [] := rfl

@[simp] theorem own_deleted : own [deleted k] = [k] := rfl

@[simp] theorem own_lost : own [lost k] = [] := rfl

end KeyEvent

open KeyEvent

/-- The keys that have been made, those of them that are there, and what our process has open. -/
structure Keyspace where
  /-- The key that a key lies in or has lain in, and its name there. -/
  entry : KeyId → Option (KeyId × KeyName)
  present : Set KeyId
  handles : List KeyId
  log : List KeyEvent
  parents : ∀ k p name, entry k = some (p, name) → k ∈ present → p ∈ present
  opened : ∀ k ∈ handles, k ∈ present ∨ entry k ≠ none

namespace Keyspace

variable {w w' w'' s t : Keyspace} {k p root : KeyId} {name : KeyName}

/-- The key has been made. -/
def Made (w : Keyspace) (k : KeyId) : Prop := k ∈ w.present ∨ w.entry k ≠ none

/-- The key lies in another, or has lain in it. -/
def LiesIn (w : Keyspace) (k p : KeyId) : Prop := ∃ name, w.entry k = some (p, name)

/-- It lies in it, or in a key that lies under it. -/
def Under (w : Keyspace) : KeyId → KeyId → Prop := TransGen w.LiesIn

/-- Nothing lies in the key. -/
def Childless (w : Keyspace) (p : KeyId) : Prop := ∀ k ∈ w.present, ¬ w.LiesIn k p

/-- What lies under a key is there only if that key is. -/
theorem present_of_under (h : w.Under k p) (hk : k ∈ w.present) : p ∈ w.present := by
  induction h with
  | single hin =>
    obtain ⟨name, hentry⟩ := hin
    exact w.parents _ _ _ hentry hk
  | tail _ hin ih =>
    obtain ⟨name, hentry⟩ := hin
    exact w.parents _ _ _ hentry ih

/-! ### What changes it -/

/-- A key is created in another. -/
def create (w : Keyspace) (k p : KeyId) (name : KeyName) (hp : p ∈ w.present) (hk : ¬ w.Made k) :
    Keyspace where
  entry := Function.update w.entry k (some (p, name))
  present := insert k w.present
  handles := w.handles
  log := w.log ++ [.created k]
  parents := by
    intro c q name' hentry hc
    by_cases hck : c = k
    · subst hck
      rw [Function.update_self] at hentry
      obtain rfl := congrArg Prod.fst (Option.some.inj hentry)
      exact Set.mem_insert_of_mem c hp
    · rw [Function.update_of_ne hck] at hentry
      exact Set.mem_insert_of_mem k (w.parents c q name' hentry (hc.resolve_left hck))
  opened := by
    intro c hc
    by_cases hck : c = k
    · exact .inl (.inl hck)
    · rw [Function.update_of_ne hck]
      exact (w.opened c hc).imp_left (Set.mem_insert_of_mem k)

/-- A key that lies in another and has nothing in it is deleted. -/
def delete (w : Keyspace) (k : KeyId) (ev : KeyEvent) (hk : w.entry k ≠ none)
    (hchildless : w.Childless k) : Keyspace where
  entry := w.entry
  present := w.present \ {k}
  handles := w.handles
  log := w.log ++ [ev]
  parents := by
    intro c q name hentry hc
    refine ⟨w.parents c q name hentry hc.1, ?_⟩
    rintro rfl
    exact hchildless c hc.1 ⟨name, hentry⟩
  opened := by
    intro c hc
    by_cases hck : c = k
    · exact .inr (hck ▸ hk)
    · exact (w.opened c hc).imp_left fun h => ⟨h, hck⟩

/-- A key is opened. -/
def «open» (w : Keyspace) (k : KeyId) (hk : k ∈ w.present) : Keyspace where
  entry := w.entry
  present := w.present
  handles := w.handles ++ [k]
  log := w.log
  parents := w.parents
  opened := by
    intro c hc
    rcases List.mem_append.mp hc with hc | hc
    · exact w.opened c hc
    · exact .inl (List.mem_singleton.mp hc ▸ hk)

/-- What others do. -/
inductive Others : Keyspace → Keyspace → Prop where
  | creates {w : Keyspace} {k p : KeyId} (name : KeyName) (hp : p ∈ w.present) (hk : ¬ w.Made k) :
      Others w (w.create k p name hp hk)
  | deletes {w : Keyspace} {k : KeyId} (hk : w.entry k ≠ none) (hchildless : w.Childless k) :
      k ∈ w.present → Others w (w.delete k (.lost k) hk hchildless)

/-- What our process is answered outside of transactions, and what its calls leave.  Any call may
fail; a path of more than one name, or one whose links are followed, may lead anywhere. -/
inductive Answers (layer : Option Bytes) : (c : RegCall) → Keyspace → RegReply c → Keyspace → Prop
  where
  | opens {w : Keyspace} {fd : Fd} {p k : KeyId} {path : CString} {access flags : UInt32}
      (hk : k ∈ w.present) : w.handles[fd]? = some p →
      (∀ name, Hive.components path.bytes = [name] → flags &&& OpenFlags.OPEN_LINK ≠ 0 →
        w.LiesIn k p) →
      Answers layer (.openKey (some fd) path access flags) w (.ok w.handles.length) (w.open k hk)
  | notOpened {w : Keyspace} {fd : Fd} {path : CString} {access flags : UInt32} (e : Errno) :
      Answers layer (.openKey (some fd) path access flags) w (.error e) w
  /-- What is filled in is the name of a key that lies in the key. -/
  | enumerates {w : Keyspace} {fd : Fd} {p : KeyId} {index : UInt32} {windows : Fin 1 → Bytes}
      (r : WindowReply 1 SubkeyFields) : w.handles[fd]? = some p →
      (r.errno = none →
        ∃ k ∈ w.present, ∃ name, w.entry k = some (p, name) ∧ r.filled = name.bytes) →
      Answers layer (.enumSubkey fd index none windows) w r w
  | deletes {w : Keyspace} {fd : Fd} {k : KeyId} (hk : w.entry k ≠ none)
      (hchildless : w.Childless k) : w.handles[fd]? = some k → k ∈ w.present →
      Answers layer (.deleteKey fd layer none) w (.ok ()) (w.delete k (.deleted k) hk hchildless)
  | notDeleted {w : Keyspace} {fd : Fd} {layer' : Option Bytes} (e : Errno) :
      Answers layer (.deleteKey fd layer' none) w (.error e) w

/-! ### What never changes back -/

/-- What is open stays open, and what has been made stays made and where it is. -/
structure Progress (w w' : Keyspace) : Prop where
  handles : w.handles <+: w'.handles
  entry : ∀ k e, w.entry k = some e → w'.entry k = some e
  made : ∀ k, w.Made k → w'.Made k

theorem Progress.refl (w : Keyspace) : Progress w w :=
  ⟨List.prefix_refl _, fun _ _ h => h, fun _ h => h⟩

theorem Progress.trans (h : Progress w w') (h' : Progress w' w'') : Progress w w'' where
  handles := h.handles.trans h'.handles
  entry k e hk := h'.entry k e (h.entry k e hk)
  made k hk := h'.made k (h.made k hk)

theorem progress_create {hp : p ∈ w.present} {hk : ¬ w.Made k} :
    Progress w (w.create k p name hp hk) where
  handles := List.prefix_refl _
  entry := by
    intro c e hc
    have hck : c ≠ k := by
      rintro rfl
      exact hk (.inr (hc ▸ Option.some_ne_none _))
    exact (Function.update_of_ne hck _ _).trans hc
  made := by
    intro c hc
    by_cases hck : c = k
    · exact absurd (hck ▸ hc) hk
    · refine hc.imp (Set.mem_insert_of_mem k) fun hentry => ?_
      show Function.update w.entry k (some (p, name)) c ≠ none
      rwa [Function.update_of_ne hck]

theorem progress_delete {ev : KeyEvent} {hk : w.entry k ≠ none} {hchildless : w.Childless k} :
    Progress w (w.delete k ev hk hchildless) where
  handles := List.prefix_refl _
  entry _ _ h := h
  made := by
    intro c hc
    by_cases hck : c = k
    · exact .inr (hck ▸ hk)
    · exact hc.imp_left fun h => ⟨h, hck⟩

theorem progress_open {hk : k ∈ w.present} : Progress w (w.open k hk) where
  handles := List.prefix_append ..
  entry _ _ h := h
  made _ h := h

theorem Others.progress (h : Others w w') : Progress w w' := by
  cases h with
  | creates => exact progress_create
  | deletes => exact progress_delete

theorem Progress.under (h : Progress w w') (hk : w.Under k p) : w'.Under k p :=
  hk.lift id fun _ _ ⟨name, hentry⟩ => ⟨name, h.entry _ _ hentry⟩

theorem Progress.handle (h : Progress w w') {fd : Fd} (hfd : w.handles[fd]? = some k) :
    w'.handles[fd]? = some k := by
  obtain ⟨rest, hrest⟩ := h.handles
  rw [← hrest]
  obtain ⟨hlt, -⟩ := List.getElem?_eq_some_iff.mp hfd
  rw [List.getElem?_append_left hlt, hfd]

end Keyspace

end Peios.Registry
