import Peios.Interaction.Monitor
import Peios.Registry.Hive
import Peios.Registry.Layers

/-!
# Which keys the layer functions change

`Registry.Layers.delete` and the functions through `Registry.Layers.set` append a name to the path
of the layers key and refuse only the spellings of `BASE`; `Registry.Layers.create` refuses every
name that is not one component of a path.

`keyMonitor` follows the handles of a run back to the paths they were opened by and reports the
keys that a call opens for writing, writes or deletes, so that `Confined` says, against every
kernel, what such a function should leave alone.  `confined_iff` says when it does.
-/

namespace Peios.Registry

open Interaction ByteString

/-! ### Keys touched -/

/-- A key, by the components of its path from the root. -/
abbrev KeyPath := List Bytes

/-- The keys behind the handles of a run. -/
abbrev Handles := Fd → KeyPath

/-- The key a path leads to. -/
def Handles.resolve (m : Handles) (parent : Option Fd) (path : Bytes) : KeyPath :=
  parent.elim [] m ++ Hive.components path

/-- The rights to change or delete a key. -/
def Writes (access : UInt32) : Prop :=
  access &&& KeyAccess.SET_VALUE ≠ 0 ∨ access &&& KeyAccess.DELETE ≠ 0

instance (access : UInt32) : Decidable (Writes access) := inferInstanceAs (Decidable (_ ∨ _))

/-- Follows handles to the keys they were opened by, and reports every key that a call opens for
writing, writes or deletes. -/
def keyMonitor : Monitor RegCall RegReply Handles KeyPath where
  next m
    | ⟨.openKey parent path _ _, .ok fd⟩ => Function.update m fd (m.resolve parent path.bytes)
    | ⟨.createKey parent path _ _ _ _, .ok made⟩ =>
      Function.update m made.1 (m.resolve parent path.bytes)
    | _ => m
  report m
    | ⟨.openKey parent path access _, _⟩ =>
      if Writes access then [m.resolve parent path.bytes] else []
    | ⟨.createKey parent path access _ _ _, _⟩ =>
      if Writes access then [m.resolve parent path.bytes] else []
    | ⟨.setValue key .., _⟩ => [m key]
    | ⟨.deleteValue key .., _⟩ => [m key]
    | ⟨.blanketTombstone key .., _⟩ => [m key]
    | ⟨.deleteKey key .., _⟩ => [m key]
    | ⟨.hideKey key .., _⟩ => [m key]
    | _ => []

/-- A function on keys, over the calls of libpeios. -/
def KeyProg.kernel {α : Type} (p : KeyProg α) : ExceptT Fault RegProg α := interpE KeyCall.impl p

/-! ### Methods -/

section Methods

variable {α : Type} {P : KeyPath → Prop} {m : Handles}

theorem kernel_ask (c : KeyCall) : c.ask.kernel = ExceptT.mk (ofResult <$> c.impl) :=
  interpE_lift KeyCall.impl c ofResult

theorem kernel_attempt (c : KeyCall) :
    c.attempt.kernel = ExceptT.mk ((Except.ok : _ → Outcome _) <$> c.impl) :=
  interpE_lift KeyCall.impl c Except.ok

/-- `Key::open` follows its path, and touches the key there if it asks for more than reading. -/
theorem upholds_open (f : Except Errno Key → Outcome α) {parent : Option Key} {path : String}
    {access : UInt32} (flags : UInt32) {post : α → Handles → Prop}
    (hP : Writes access → P (m.resolve parent (utf8 path)))
    (herr : ∀ e a, f (.error e) = .ok a → post a m)
    (hok : ∀ fd a, f (.ok fd) = .ok a →
      post a (Function.update m fd (m.resolve parent (utf8 path)))) :
    keyMonitor.Upholds P m (ExceptT.mk (f <$> Key.open parent path access flags)) post := by
  unfold Key.open CString.new
  by_cases h0 : 0 ∈ utf8 path
  · rw [dif_pos h0]
    exact .ended (herr EINVAL)
  · rw [dif_neg h0]
    refine .lift ?_ ?_
    · intro r path hpath
      simp only [keyMonitor, List.mem_ite_nil_right, List.mem_singleton] at hpath
      obtain ⟨haccess, rfl⟩ := hpath
      exact hP haccess
    · intro r a hr
      cases r with
      | error e => exact herr e a hr
      | ok fd => exact hok fd a hr

/-- `Key::create` follows its path likewise. -/
theorem upholds_create {parent : Option Key} {path : String} {access : UInt32} (flags : UInt32)
    (txn : Option Transaction) (hP : Writes access → P (m.resolve parent (utf8 path))) :
    keyMonitor.Upholds P m (KeyCall.create parent path access flags none txn).ask.kernel
      fun made m' => m' made.1 = m.resolve parent (utf8 path) := by
  rw [kernel_ask]
  show keyMonitor.Upholds P m
    (ExceptT.mk (ofResult <$> Key.create parent path access flags none txn)) _
  unfold Key.create CString.new
  by_cases h0 : 0 ∈ utf8 path
  · rw [dif_pos h0]
    exact .ended fun _ h => nomatch h
  · rw [dif_neg h0]
    simp only [CString.newOption, bind_pure_comp, Functor.map_map]
    refine .lift ?_ ?_
    · intro r path hpath
      simp only [keyMonitor, List.mem_ite_nil_right, List.mem_singleton] at hpath
      obtain ⟨haccess, rfl⟩ := hpath
      exact hP haccess
    · intro r made hr
      cases r with
      | error e => cases hr
      | ok created =>
        obtain rfl := Except.ok.inj hr
        exact Function.update_self ..

theorem upholds_setValue (v : SetValue) (hP : P (m v.key)) :
    keyMonitor.Upholds P m (KeyCall.setValue v).ask.kernel fun _ m' => m' = m := by
  rw [kernel_ask]
  show keyMonitor.Upholds P m (ExceptT.mk (ofResult <$> v.call)) _
  unfold SetValue.call
  cases CString.newOption v.layer with
  | error e => exact .ended fun _ h => nomatch h
  | ok clayer =>
    refine .lift ?_ fun _ _ _ => rfl
    intro r path hpath
    obtain rfl := List.mem_singleton.mp hpath
    exact hP

theorem upholds_deleteKey (key : Key) (layer : Option String) (txn : Option Transaction)
    (hP : P (m key)) :
    keyMonitor.Upholds P m (KeyCall.deleteKey key layer txn).ask.kernel fun _ m' => m' = m := by
  rw [kernel_ask]
  refine .lift ?_ fun _ _ _ => rfl
  intro r path hpath
  obtain rfl := List.mem_singleton.mp hpath
  exact hP

theorem upholds_open_ask {parent : Option Key} {path : String} {access : UInt32} (flags : UInt32)
    (hP : Writes access → P (m.resolve parent (utf8 path))) :
    keyMonitor.Upholds P m (KeyCall.open parent path access flags).ask.kernel
      fun key m' => m' key = m.resolve parent (utf8 path) := by
  rw [kernel_ask]
  refine upholds_open ofResult flags hP (fun e a h => nomatch h) fun fd a h => ?_
  obtain rfl := Except.ok.inj h
  exact Function.update_self ..

theorem upholds_begin : keyMonitor.Upholds P m KeyCall.begin.ask.kernel fun _ m' => m' = m := by
  rw [kernel_ask]
  exact .lift (fun r path hpath => nomatch hpath) fun r a _ => rfl

theorem upholds_commit (txn : Transaction) :
    keyMonitor.Upholds P m (KeyCall.commit txn).ask.kernel fun _ m' => m' = m := by
  rw [kernel_ask]
  exact .lift (fun r path hpath => nomatch hpath) fun r a _ => rfl

theorem kernel_bind {β : Type} (p : KeyProg α) (f : α → KeyProg β) :
    (p >>= f).kernel = p.kernel >>= fun a => (f a).kernel := interpE_bind KeyCall.impl p f

end Methods

/-! ### The functions -/

namespace Layers

/-- The key that holds a key for each layer. -/
def layersKey : KeyPath := Hive.components (utf8 LAYERS)

/-- The components of `LAYERS_FROM` are those of `LAYERS`. -/
theorem components_LAYERS_FROM :
    Hive.components (utf8 "Machine\\System") ++ Hive.components (utf8 "Registry") ++
      Hive.components (utf8 "Layers") = layersKey := by
  decide

/-- The path of a layer's key, taken apart. -/
theorem components_layer (name : String) :
    Hive.components (utf8 (LAYERS ++ "\\" ++ name))
      = layersKey ++ Hive.components (utf8 name) := by
  have hsep : utf8 "\\" = [0x5c] := by decide
  rw [utf8_append, utf8_append, hsep, List.append_assoc]
  exact List.splitOnP_append_cons _ _ (by decide)

/-- It has a NUL where the name has one. -/
theorem zero_mem_layer {name : String} : 0 ∈ utf8 (LAYERS ++ "\\" ++ name) ↔ 0 ∈ utf8 name := by
  rw [utf8_append, List.mem_append, or_iff_right (by decide)]

variable {P : KeyPath → Prop} {m : Handles} (lower : String → String)

/-- A key on the way is found or made without touching it. -/
theorem upholds_subkey (txn : Transaction) (key : Key) (part : String) :
    keyMonitor.Upholds P m
      (KeyProg.kernel do
        let made ← (KeyCall.create (some key) part KeyAccess.CREATE_SUB_KEY noFlags none
          (some txn)).ask
        return made.1)
      fun key' m' => m' key' = m.resolve (some key) (utf8 part) := by
  rw [kernel_bind]
  have hsub : Writes KeyAccess.CREATE_SUB_KEY → P (m.resolve (some key) (utf8 part)) :=
    fun h => absurd h (by decide)
  exact (upholds_create noFlags (some txn) hsub).bind fun _ _ hmade => .pure hmade

/-- **The layers key is found or made without touching a key.** -/
theorem upholds_openLayers (txn : Transaction) :
    keyMonitor.Upholds P m (openLayers txn).kernel fun layers m' => m' layers = layersKey := by
  have hsub : ∀ {path}, Writes KeyAccess.CREATE_SUB_KEY → P path := fun h => absurd h (by decide)
  have hopen : keyMonitor.Upholds P m
      (KeyCall.open none LAYERS KeyAccess.CREATE_SUB_KEY noFlags).attempt.kernel
      fun (r : Except Errno Key) m' => ∀ layers, r = .ok layers → m' layers = layersKey := by
    rw [kernel_attempt]
    show keyMonitor.Upholds P m
      (ExceptT.mk (Except.ok <$> Key.open none LAYERS KeyAccess.CREATE_SUB_KEY noFlags)) _
    refine upholds_open _ noFlags hsub ?_ ?_
    · intro e r hr layers h
      obtain rfl := Except.ok.inj hr
      cases h
    · intro fd r hr layers h
      obtain rfl := Except.ok.inj hr
      obtain rfl := Except.ok.inj h
      exact Function.update_self ..
  unfold openLayers
  rw [kernel_bind]
  refine hopen.bind fun r m' hr => ?_
  cases r with
  | ok layers => exact .pure (hr layers rfl)
  | error e =>
    dsimp only
    split_ifs with he
    · -- the first layer: the keys on the way to the layers key are made one by one
      rw [LAYERS_FROM, kernel_bind]
      refine (upholds_open_ask noFlags hsub).bind fun key m₁ h₁ => ?_
      rw [List.foldlM_cons, kernel_bind]
      refine (upholds_subkey txn key "Registry").bind fun key₂ m₂ h₂ => ?_
      rw [List.foldlM_cons, kernel_bind]
      refine (upholds_subkey txn key₂ "Layers").bind fun key₃ m₃ h₃ => ?_
      -- and the handles say that the last one is the layers key
      refine .pure ?_
      rw [h₃, Handles.resolve, Option.elim_some, h₂, Handles.resolve, Option.elim_some, h₁,
        Handles.resolve, Option.elim_none, List.nil_append, components_LAYERS_FROM]
    · exact .throw _

/-- What is one component of a path. -/
structure IsComponent (name : String) : Prop where
  ne_empty : name ≠ ""
  no_backslash : '\\' ∉ name.toList
  no_slash : '/' ∉ name.toList

/-- What names a layer that can be changed: a component that is not `base`, however spelled. -/
structure IsLayerName (name : String) : Prop extends IsComponent name where
  not_base : lower name ≠ "base"

theorem IsComponent.components {name : String} (hname : IsComponent name) :
    Hive.components (utf8 name) = [utf8 name] := by
  refine List.splitOnP_eq_singleton fun b hb => ?_
  have hback : (0x5c : UInt8) ∉ utf8 name := fun h =>
    hname.no_backslash ((mem_utf8 (c := '\\') (by decide)).mp h)
  have hslash : (0x2f : UInt8) ∉ utf8 name := fun h =>
    hname.no_slash ((mem_utf8 (c := '/') (by decide)).mp h)
  refine decide_eq_false ?_
  rintro (rfl | rfl)
  · exact hback hb
  · exact hslash hb

/-- What `create` looks for in a name. -/
theorem guard_iff (name : String) :
    (isBase lower name ∨ name = "" ∨ '\\' ∈ name.toList ∨ '/' ∈ name.toList) ↔
      ¬ IsLayerName lower name := by
  constructor
  · rintro (h | h | h | h) hname
    · exact hname.not_base (isBase_eq_true.mp h)
    · exact hname.ne_empty h
    · exact hname.no_backslash h
    · exact hname.no_slash h
  · intro hname
    by_contra hno
    rw [not_or, not_or, not_or, Bool.not_eq_true] at hno
    exact hname ⟨⟨hno.2.1, hno.2.2.1, hno.2.2.2⟩, isBase_eq_false.mp hno.1⟩

/-- **`create` touches the key of the new layer only.** -/
theorem upholds_create_layer {name : String} (hname : IsLayerName lower name)
    (hP : P (layersKey ++ [utf8 name])) (precedence : UInt32) (enabled : Bool) :
    keyMonitor.Upholds P m (create lower name precedence enabled).kernel fun _ _ => True := by
  have hguard := (guard_iff lower name).not.mpr (not_not.mpr hname)
  unfold create
  rw [if_neg hguard]
  simp only [kernel_bind]
  -- everything up to the layer's own key is opened for creating subkeys only
  refine upholds_begin.bind fun txn m₁ _ => ?_
  refine (upholds_openLayers txn).bind fun layers m₂ hlayers => ?_
  have hkey : m₂.resolve (some layers) (utf8 name) = layersKey ++ [utf8 name] := by
    rw [Handles.resolve, Option.elim_some, hlayers, hname.components]
  refine (upholds_create noFlags (some txn) fun _ => hkey ▸ hP).bind fun made m₃ h₃ => ?_
  obtain ⟨key, made⟩ := made
  dsimp only
  split_ifs
  · exact .throw _
  · -- both values are written to the key that was made
    have hkey₃ : P (m₃ key) := by rwa [h₃, hkey]
    rw [kernel_bind]
    refine (upholds_setValue _ hkey₃).bind fun _ m₄ h₄ => ?_
    subst h₄
    rw [kernel_bind]
    refine (upholds_setValue _ hkey₃).bind fun _ m₅ h₅ => ?_
    exact (upholds_commit txn).mono fun _ _ _ => trivial

/-! ### The guards -/

/-- A function that changes layers, with its arguments other than the name. -/
inductive LayerOp where
  | create (precedence : UInt32) (enabled : Bool)
  | setPrecedence (precedence : UInt32)
  | setEnabled (enabled : Bool)
  | setOwner (owner : Bytes)
  | delete

/-- Call the function. -/
def LayerOp.run (name : String) : LayerOp → KeyProg Unit
  | .create precedence enabled => Layers.create lower name precedence enabled
  | .setPrecedence precedence => Layers.setPrecedence lower name precedence
  | .setEnabled enabled => Layers.setEnabled lower name enabled
  | .setOwner owner => Layers.setOwner lower name owner
  | .delete => Layers.delete lower name

/-- The function looks for separators in the name it is given. -/
def LayerOp.ChecksName : LayerOp → Prop
  | .create .. => True
  | _ => False

/-- **What a function that changes layers should do** against a kernel in the state `s`, when the
handles given out so far stand for the keys `m`. -/
structure Confined {σ : Type} (kernel : Handler RegCall RegReply σ) (m : Handles) (s : σ)
    (op : LayerOp) (name : String) : Prop where
  /-- The only key it opens for writing, writes or deletes is that of the layer it names. -/
  touched : ∀ key ∈ keyMonitor.reports m (Prog.events kernel (op.run lower name).kernel s),
    key = layersKey ++ [utf8 name] ∧ IsLayerName lower name
  /-- It refuses every other name before making any call. -/
  refused : ¬ IsLayerName lower name →
    Prog.exec kernel (op.run lower name).kernel s = (.error (.errno EINVAL), s) ∧
      Prog.events kernel (op.run lower name).kernel s = []

/-- The functions that do not look for separators are of one form: they refuse the base layer, and
otherwise open the layer's key for writing and change it. -/
theorem run_eq {op : LayerOp} (hop : ¬ op.ChecksName) (name : String) :
    ∃ (access : UInt32) (change : Key → KeyProg Unit),
      op.run lower name = (if isBase lower name then KeyProg.err EINVAL
        else openLayer name access >>= change) ∧
      Writes access ∧
      ∀ (P : KeyPath → Prop) m key, P (m key) →
        keyMonitor.Upholds P m (change key).kernel fun _ _ => True := by
  have hset : ∀ value ty data,
      ∀ (P : KeyPath → Prop) m key, P (m key) → keyMonitor.Upholds P m
        (KeyCall.setValue (Key.setValue key value ty data)).ask.kernel fun _ _ => True :=
    fun value ty data P m key hP => (upholds_setValue _ hP).mono fun _ _ _ => trivial
  cases op with
  | create => exact absurd trivial hop
  | setPrecedence => exact ⟨KeyAccess.SET_VALUE, _, rfl, by decide, hset _ _ _⟩
  | setEnabled => exact ⟨KeyAccess.SET_VALUE, _, rfl, by decide, hset _ _ _⟩
  | setOwner => exact ⟨KeyAccess.SET_VALUE, _, rfl, by decide, hset _ _ _⟩
  | delete =>
    exact ⟨KeyAccess.DELETE, _, rfl, by decide, fun P m key hP =>
      (upholds_deleteKey key none none hP).mono fun _ _ _ => trivial⟩

/-- **On a layer's name every function is confined to the layer's key.** -/
theorem upholds_run {name : String} (hname : IsLayerName lower name) (op : LayerOp)
    (hP : P (layersKey ++ [utf8 name])) :
    keyMonitor.Upholds P m (op.run lower name).kernel fun _ _ => True := by
  by_cases hop : op.ChecksName
  · cases op with
    | create precedence enabled => exact upholds_create_layer lower hname hP precedence enabled
    | _ => exact absurd hop id
  obtain ⟨access, change, hrun, -, hchange⟩ := run_eq lower hop name
  have hkey : m.resolve none (utf8 (LAYERS ++ "\\" ++ name)) = layersKey ++ [utf8 name] := by
    rw [Handles.resolve, Option.elim_none, List.nil_append, components_layer, hname.components]
  rw [hrun, isBase_eq_false.mpr hname.not_base, if_neg Bool.false_ne_true, kernel_bind]
  refine (upholds_open_ask noFlags fun _ => hkey ▸ hP).bind fun key m' hm' => ?_
  exact hchange _ m' key (by rwa [hm', hkey])

section Confined

variable {σ : Type} {kernel : Handler RegCall RegReply σ} {s : σ} {op : LayerOp} {name : String}

theorem confined_of_isLayerName (hname : IsLayerName lower name) :
    Confined lower kernel m s op name where
  touched := (upholds_run lower hname op ⟨rfl, hname⟩).reports_events kernel s
  refused h := absurd hname h

/-- A function that fails at once is confined. -/
theorem confined_of_err (hrun : (op.run lower name).kernel = throw (.errno EINVAL)) :
    Confined lower kernel m s op name := by
  refine ⟨fun key hkey => ?_, fun _ => ?_⟩
  · rw [hrun] at hkey
    exact absurd hkey List.not_mem_nil
  · rw [hrun]
    exact ⟨rfl, rfl⟩

/-- A name with a NUL is refused by `CString::new`. -/
theorem kernel_openLayer_nul (h0 : 0 ∈ utf8 name) (access : UInt32) :
    (openLayer name access).kernel = throw (.errno EINVAL) := by
  have hpath : 0 ∈ utf8 (LAYERS ++ "\\" ++ name) := zero_mem_layer.mpr h0
  rw [openLayer, kernel_ask]
  show ExceptT.mk (ofResult <$> Key.open none (LAYERS ++ "\\" ++ name) access noFlags) = _
  unfold Key.open CString.new
  rw [dif_pos hpath]
  rfl

/-- Without a NUL, the first thing the functions do is to open the path. -/
theorem events_openLayer_ne_nil (h0 : 0 ∉ utf8 name) (access : UInt32)
    (change : Key → KeyProg Unit) :
    Prog.events kernel (openLayer name access >>= change).kernel s ≠ [] := by
  have hpath : 0 ∉ utf8 (LAYERS ++ "\\" ++ name) := mt zero_mem_layer.mp h0
  rw [kernel_bind, Prog.events_bind, openLayer, kernel_ask]
  show Prog.events kernel
    (ExceptT.mk (ofResult <$> Key.open none (LAYERS ++ "\\" ++ name) access noFlags)) s ++ _ ≠ []
  unfold Key.open CString.new
  rw [dif_neg hpath]
  exact List.cons_ne_nil _ _

end Confined

/-- **When the functions that change layers keep to the layer's key.**  `create` does on every
name; the others do on the names that are one component, on those that they refuse for being the
base layer's, and on those that are no C string. -/
theorem confined_iff {σ : Type} (kernel : Handler RegCall RegReply σ) (m : Handles) (s : σ)
    (op : LayerOp) (name : String) :
    Confined lower kernel m s op name ↔
      op.ChecksName ∨ isBase lower name = true ∨ '\x00' ∈ name.toList ∨ IsComponent name := by
  constructor
  · intro h
    by_contra hno
    rw [not_or, not_or, not_or, Bool.not_eq_true] at hno
    obtain ⟨hop, hbase, h0, hcomponent⟩ := hno
    obtain ⟨access, change, hrun, -, -⟩ := run_eq lower hop name
    -- the name should have been refused without a call, but the path is opened
    have hevents := (h.refused fun hname => hcomponent hname.toIsComponent).2
    rw [hrun, hbase, if_neg Bool.false_ne_true] at hevents
    exact events_openLayer_ne_nil (fun h => h0 (zero_mem_utf8.mp h)) access change hevents
  · intro h
    by_cases hname : IsLayerName lower name
    · exact confined_of_isLayerName lower hname
    -- what is no layer's name is refused, by whichever guard the function has
    apply confined_of_err
    by_cases hop : op.ChecksName
    · cases op with
      | create precedence enabled =>
        show (create lower name precedence enabled).kernel = _
        unfold create
        rw [if_pos ((guard_iff lower name).mpr hname)]
        rfl
      | _ => exact absurd hop id
    obtain ⟨access, change, hrun, -, -⟩ := run_eq lower hop name
    rw [hrun]
    by_cases hbase : isBase lower name = true
    · rw [if_pos hbase]
      rfl
    · rw [if_neg hbase, kernel_bind]
      rcases h with h | h | h | h
      · exact absurd h hop
      · exact absurd h hbase
      · rw [kernel_openLayer_nul (zero_mem_utf8.mpr h)]
        rfl
      · exact absurd ⟨h, isBase_eq_true.not.mp hbase⟩ hname

/-- A kernel that lets every change through. -/
def permissive : Handler RegCall RegReply Unit
  | .openKey .., s => (.ok 3, s)
  | .deleteKey .., s => (.ok (), s)
  | c, s => (RegReply.failed EBADF c, s)

/-- `str::to_lowercase` on ASCII. -/
def asciiLower (s : String) : String := String.ofList (s.toList.map Char.toLower)

/-- A key under a layer's key is deleted by its path. -/
theorem not_confined_nested :
    ¬ Confined asciiLower permissive (fun _ => []) () .delete "a\\b" := by
  intro h
  have hkey := h.touched (layersKey ++ [utf8 "a", utf8 "b"]) (by decide)
  exact hkey.2.no_backslash (by decide)

end Layers

end Peios.Registry
