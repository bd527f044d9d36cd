import Peios.Registry.Equiv.DeleteTree
import Peios.Registry.Keyspace

/-!
# Deleting a tree that others change

`deleteTree_shared` says what `Key::delete_tree` does to a registry in which others create and
delete keys while it runs.  While it gathers it deletes nothing; after that it deletes only keys
that lie under the given one and had been made by then, each once, and when it succeeds nothing is
left of the tree, whoever has added to it.
-/

namespace Peios.Registry

open Interaction ByteString Keyspace KeyEvent

variable {layer : Option Bytes} {w s t u : Keyspace} {root k p : KeyId} {fd key : Key}
  {F : Keyspace → Prop}

/-- What a method returns, and what it leaves, while the others go on. -/
def Methods (layer : Option Bytes) (c : KeyCall) (w : Keyspace) (r : KeyReply c) (w' : Keyspace) :
    Prop := Concurrent Others (Answers layer) w c.impl r w'

/-! ### What is kept while keys are opened -/

/-- Neither the others nor opening a key undo it. -/
structure Kept (F : Keyspace → Prop) : Prop where
  others : Stable Others F
  opens : ∀ w k (hk : k ∈ w.present), F w → F (w.open k hk)

theorem Kept.and {F' : Keyspace → Prop} (hF : Kept F) (hF' : Kept F') :
    Kept fun w => F w ∧ F' w where
  others := hF.others.and hF'.others
  opens w k hk h := ⟨hF.opens w k hk h.1, hF'.opens w k hk h.2⟩

theorem Kept.of_progress (h : ∀ w w', Progress w w' → F w → F w') : Kept F where
  others w w' hstep := h w w' hstep.progress
  opens _ _ _ := h _ _ progress_open

/-- Our process has deleted nothing since. -/
def Quiet (s w : Keyspace) : Prop := ∃ events, w.log = s.log ++ events ∧ own events = []

theorem Quiet.kept (s : Keyspace) : Kept (Quiet s) where
  others := by
    rintro w w' hstep ⟨events, hlog, hown⟩
    cases hstep with
    | @creates k _ _ _ _ =>
      refine ⟨events ++ [.created k], ?_, ?_⟩
      · show w.log ++ [KeyEvent.created k] = _
        rw [hlog, List.append_assoc]
      · rw [own_append, hown, own_created, List.append_nil]
    | @deletes k _ _ _ =>
      refine ⟨events ++ [.lost k], ?_, ?_⟩
      · show w.log ++ [KeyEvent.lost k] = _
        rw [hlog, List.append_assoc]
      · rw [own_append, hown, own_lost, List.append_nil]
  opens _ _ _ h := h

/-- The handle is one of the root, or of a key under it. -/
def Reached (root : KeyId) (fd : Key) (w : Keyspace) : Prop :=
  ∃ k, w.handles[fd]? = some k ∧ (k = root ∨ w.Under k root)

/-- The handle is one of a key under the root. -/
def Opened (root : KeyId) (fd : Key) (w : Keyspace) : Prop :=
  ∃ k, w.handles[fd]? = some k ∧ w.Under k root

theorem Reached.kept (root : KeyId) (fd : Key) : Kept (Reached root fd) :=
  .of_progress fun _ _ h ⟨k, hfd, hk⟩ => ⟨k, h.handle hfd, hk.imp_right h.under⟩

theorem Opened.kept (root : KeyId) (fd : Key) : Kept (Opened root fd) :=
  .of_progress fun _ _ h ⟨k, hfd, hk⟩ => ⟨k, h.handle hfd, h.under hk⟩

theorem Opened.reached (h : Opened root fd w) : Reached root fd w := by
  obtain ⟨k, hfd, hk⟩ := h
  exact ⟨k, hfd, .inr hk⟩

/-- All handles are ones of keys under the root. -/
def AllOpened (root : KeyId) (under : List Key) (w : Keyspace) : Prop :=
  ∀ fd ∈ under, Opened root fd w

theorem AllOpened.kept (root : KeyId) (under : List Key) : Kept (AllOpened root under) where
  others w w' hstep h fd hfd := (Opened.kept root fd).others w w' hstep (h fd hfd)
  opens w k hk h fd hfd := (Opened.kept root fd).opens w k hk (h fd hfd)

theorem AllOpened.concat {under : List Key} (h : AllOpened root under w) (hfd : Opened root fd w) :
    AllOpened root (under ++ [fd]) w := by
  intro fd' hfd'
  rcases List.mem_append.mp hfd' with hfd' | hfd'
  · exact h fd' hfd'
  · exact List.mem_singleton.mp hfd' ▸ hfd

/-! ### What the methods do -/

/-- A name that has been enumerated is a single one. -/
def IsNamed (r : Except Errno (Option Subkey)) : Prop :=
  ∀ subkey, r = .ok (some subkey) → IsSingle subkey.name

theorem ensures_enumSubkey_loop (hF : Stable Others F) (fd : Key) (index : UInt32) (rounds : Nat)
    (windows : Fin 1 → Bytes) :
    Ensures Others (Answers layer) F
      (sizedRead.loop (fun w => sys (.enumSubkey fd index none w))
        (fun v w => some (Subkey.ofWindows v w)) noneOnENOENT rounds windows)
      fun r w => F w ∧ IsNamed r := by
  have hpost : ∀ r, Stable Others fun w => F w ∧ IsNamed r :=
    fun r w w' hstep h => ⟨hF w w' hstep h.1, h.2⟩
  induction rounds generalizing windows with
  | zero =>
    refine .ret (hpost _) fun w hw => ⟨hw, fun subkey h => ?_⟩
    cases h
  | succ rounds ih =>
    let M (v : WindowReply 1 SubkeyFields) (w : Keyspace) : Prop :=
      F w ∧ (v.errno = none → IsSingle v.filled)
    refine .call (M := M) hF ?_ fun v => ?_
    · rintro w v w' hw hanswer
      cases hanswer with
      | enumerates _ _ hname =>
        refine ⟨hw, fun herrno => ?_⟩
        obtain ⟨_, -, name, -, hfilled⟩ := hname herrno
        exact hfilled ▸ name.no_separator
    · show Ensures _ _ (M v) (Prog.bind _ _) _
      rw [Prog.bind]
      cases herrno : v.errno with
      | none =>
        refine .ret (hpost _) fun w hw => ⟨hw.1, fun subkey h => ?_⟩
        obtain rfl := Option.some.inj (Except.ok.inj h)
        exact hw.2 herrno
      | some e =>
        by_cases he : e = ERANGE
        · simp only [if_pos he]
          exact (ih _).mono (fun w hw => hw.1) fun _ _ h => h
        · simp only [if_neg he]
          refine .ret (hpost _) fun w hw => ⟨hw.1, fun subkey h => ?_⟩
          unfold noneOnENOENT at h
          split_ifs at h
          cases Except.ok.inj h

/-- Opening a subkey. -/
theorem ensures_open (layer : Option Bytes) (hF : Kept F) (root : KeyId) (fd : Key) (name : String)
    (hname : IsSingle (utf8 name)) :
    Ensures Others (Answers layer) (fun w => F w ∧ Reached root fd w)
      (Key.open (some fd) name (KeyAccess.DELETE ||| KeyAccess.ENUMERATE_SUB_KEYS)
        OpenFlags.OPEN_LINK)
      fun r w => (F w ∧ Reached root fd w) ∧ ∀ child, r = .ok child → Opened root child w := by
  have hpre : Kept fun w => F w ∧ Reached root fd w := hF.and (Reached.kept root fd)
  have hpost : ∀ r : Except Errno Key, Stable Others fun w =>
      (F w ∧ Reached root fd w) ∧ ∀ child, r = .ok child → Opened root child w :=
    fun r w w' hstep h => ⟨hpre.others w w' hstep h.1, fun child hr =>
      (Opened.kept root child).others w w' hstep (h.2 child hr)⟩
  unfold Key.open
  cases hnew : CString.new name with
  | error e =>
    refine .ret (hpost _) fun w hw => ⟨hw, fun child h => ?_⟩
    cases h
  | ok cpath =>
    refine .call (M := fun r w => (F w ∧ Reached root fd w) ∧ ∀ child, r = .ok child →
      Opened root child w) hpre.others ?_ fun r => .ret (hpost r) fun w hw => hw
    rintro w r w' hw hanswer
    cases hanswer with
    | @opens _ _ p k _ _ _ hk hfd hsingle =>
      refine ⟨hpre.opens w k hk hw, fun child hr => ?_⟩
      obtain rfl := Except.ok.inj hr
      refine ⟨k, List.getElem?_concat_length, ?_⟩
      -- the path is the name, so the key lies in the one that it is opened from
      have hbytes : cpath.bytes = utf8 name := by
        unfold CString.new at hnew
        split_ifs at hnew
        exact (Except.ok.inj hnew) ▸ rfl
      have hcomponents : Hive.components cpath.bytes = [utf8 name] := by
        rw [hbytes]
        exact List.splitOnP_eq_singleton hname
      have hin : w.LiesIn k p := hsingle _ hcomponents (by decide)
      obtain ⟨p', hfd', hp'⟩ := hw.2
      obtain rfl := Option.some.inj (hfd.symm.trans hfd')
      rcases hp' with rfl | hunder
      · exact .single hin
      · exact .head hin hunder
    | notOpened e =>
      refine ⟨hw, fun child hr => ?_⟩
      cases hr

/-! ### Gathering -/

variable {it : Subkeys} {names : List Bytes} {under : List Key}

theorem ensuresE_collectNames (layer : Option Bytes) (hF : Stable Others F) (rounds : Nat)
    (htxn : it.txn = none) (hnames : ∀ name ∈ names, IsSingle name) :
    EnsuresE Others (Methods layer) F (it.collectNames rounds names)
      (fun names' w => F w ∧ ∀ name ∈ names', IsSingle name) fun _ w => F w := by
  have hpost : ∀ names' : List Bytes, Stable Others fun w =>
      F w ∧ ∀ name ∈ names', IsSingle name :=
    fun names' w w' hstep h => ⟨hF w w' hstep h.1, h.2⟩
  induction rounds generalizing it names with
  | zero => exact .throw hF fun w hw => hw
  | succ rounds ih =>
    by_cases hdone : it.done
    · rw [collectNames_done rounds hdone]
      exact .pure (hpost _) fun w hw => ⟨hw, hnames⟩
    rw [collectNames_succ rounds (by simpa using hdone)]
    refine .bind (M := fun found w => F w ∧ IsNamed (.ok found)) (fun _ => hF) ?_ fun found => ?_
    · refine .lift hF (fun _ w w' hstep h => ⟨hF w w' hstep h.1, h.2⟩) (fun _ => hF) ?_
      intro w r w' hw hcall
      rw [htxn] at hcall
      obtain ⟨hw', hr⟩ := ensures_enumSubkey_loop hF _ _ 4 _ w r w' hw hcall
      refine ⟨fun found hok => ⟨hw', ?_⟩, fun _ _ => hw'⟩
      cases r with
      | error e => cases hok
      | ok found' =>
        obtain rfl := Except.ok.inj hok
        exact hr
    · cases found with
      | none => exact .pure (hpost _) fun w hw => ⟨hw.1, hnames⟩
      | some subkey =>
        unfold Subkeys.advance
        split_ifs
        · intro w w' hw
          have hnext : ({ it with index := it.index + 1 } : Subkeys).txn = none := htxn
          refine ih hnext ?_ w w' hw.1
          intro name hname
          rcases List.mem_append.mp hname with hname | hname
          · exact hnames name hname
          · exact List.mem_singleton.mp hname ▸ hw.2 subkey rfl
        · exact .throw hF fun w hw => hw.1

/-- What our process is about while it gathers. -/
def Gathering (s : Keyspace) (root : KeyId) (F : Keyspace → Prop) (under : List Key)
    (w : Keyspace) : Prop := F w ∧ Quiet s w ∧ AllOpened root under w

theorem Gathering.kept (s : Keyspace) (root : KeyId) (hF : Kept F) (under : List Key) :
    Kept (Gathering s root F under) := hF.and ((Quiet.kept s).and (AllOpened.kept root under))

/-- Gathering what lies under a key keeps what opening keys keeps, and opens keys under the root. -/
def Gathers (layer : Option Bytes) (s : Keyspace) (root : KeyId)
    (gather : Key → List Key → KeyProg (List Key)) : Prop :=
  ∀ {F : Keyspace → Prop}, Kept F → ∀ key under,
    EnsuresE Others (Methods layer) (fun w => Gathering s root F under w ∧ Reached root key w)
      (gather key under) (Gathering s root F) fun _ w => Quiet s w

theorem ensuresE_gatherChild {gather : Key → List Key → KeyProg (List Key)}
    (hgather : Gathers layer s root gather) (hF : Kept F) (key : Key) (under : List Key)
    {name : Bytes} (hname : IsSingle name) :
    EnsuresE Others (Methods layer) (fun w => Gathering s root F under w ∧ Reached root key w)
      (key.gatherChild gather under name)
      (fun under' w => Gathering s root F under' w ∧ Reached root key w) fun _ w => Quiet s w := by
  have hquiet : ∀ f : Fault, Stable Others (Quiet s) := fun _ => (Quiet.kept s).others
  have hkept := Gathering.kept s root hF under
  unfold Key.gatherChild nameOfUtf8
  cases hstr : fromUtf8 name with
  | none => exact .throw (Quiet.kept s).others fun w hw => hw.1.2.1
  | some str =>
    have hutf8 : utf8 str = name := fromUtf8_eq_some.mp hstr
    have hopen := ensures_open layer hkept root key str (hutf8 ▸ hname)
    refine .bind (M := fun child w =>
      (Gathering s root F under w ∧ Reached root key w) ∧ Opened root child w) hquiet ?_
      fun child => ?_
    · refine .lift (hkept.and (Reached.kept root key)).others
        (fun child => ((hkept.and (Reached.kept root key)).and (Opened.kept root child)).others)
        hquiet ?_
      intro w r w' hw hcall
      obtain ⟨hw', hr⟩ := hopen w r w' hw hcall
      cases r with
      | error e =>
        refine ⟨fun child hok => ?_, fun f _ => hw'.1.2.1⟩
        cases hok
      | ok child =>
        refine ⟨fun child' hok => ?_, fun f herror => ?_⟩
        · obtain rfl := Except.ok.inj hok
          exact ⟨hw', hr child rfl⟩
        · cases herror
    · -- the key that it is in and the child itself stay open
      let F' (w : Keyspace) : Prop := F w ∧ Reached root key w ∧ Opened root child w
      have hframe : Kept F' := hF.and ((Reached.kept root key).and (Opened.kept root child))
      refine .bind (M := Gathering s root F') hquiet ?_ fun under' => .pure
        ((Gathering.kept s root hF _).and (Reached.kept root key)).others fun w hw => ?_
      · exact fun w w' hw => hgather hframe child under w w'
          ⟨⟨⟨hw.1.1.1, hw.1.2, hw.2⟩, hw.1.1.2⟩, hw.2.reached⟩
      · obtain ⟨⟨hFw, hkey, hchild⟩, hquietw, hall⟩ := hw
        exact ⟨⟨hFw, hquietw, hall.concat hchild⟩, hkey⟩

/-- While it gathers, our process opens keys under the root, and deletes nothing. -/
theorem gathers_gather (layer : Option Bytes) (s : Keyspace) (root : KeyId) (rounds : Nat) :
    Gathers layer s root fun key under => key.gather rounds none under := by
  have hquiet : ∀ f : Fault, Stable Others (Quiet s) := fun _ => (Quiet.kept s).others
  induction rounds with
  | zero =>
    intro F hF key under
    exact .throw (Quiet.kept s).others fun w hw => hw.1.2.1
  | succ rounds ih =>
    intro F hF key under
    have hkept : ∀ under', Kept fun w => Gathering s root F under' w ∧ Reached root key w :=
      fun under' => (Gathering.kept s root hF under').and (Reached.kept root key)
    refine .bind (M := fun names w => (Gathering s root F under w ∧ Reached root key w) ∧
      ∀ name ∈ names, IsSingle name) hquiet ?_ fun names => ?_
    · intro w w' hw
      have htxn : (key.subkeys none).txn = none := rfl
      have hnil : ∀ name ∈ ([] : List Bytes), IsSingle name := by simp
      obtain ⟨hok, herror⟩ :=
        ensuresE_collectNames layer (hkept under).others (rounds + 1) htxn hnil w w' hw
      exact ⟨hok, fun f hrun => (herror f hrun).1.2.1⟩
    · intro w w' hw
      have hloop := EnsuresE.foldlM (fun under' => (hkept under').others)
        hquiet names
        (fun name hname under' => ensuresE_gatherChild ih hF key under' (hw.2 name hname)) under
      obtain ⟨hok, herror⟩ := hloop w w' hw.1
      exact ⟨fun under' hrun => (hok under' hrun).1, herror⟩

/-! ### Deleting -/

/-- The keys behind some handles are what our process has deleted since `g`, each once, and nothing
that had been made by then has been made since. -/
structure Deleting (g : Keyspace) (done : List Key) (w : Keyspace) (events : List KeyEvent) :
    Prop where
  progress : Progress g w
  log : w.log = g.log ++ events
  keys : (own events).map some = done.map (g.handles[·]?)
  nodup : (own events).Nodup
  gone : ∀ k ∈ own events, k ∉ w.present ∧ w.entry k ≠ none
  made : ∀ k, g.Made k → .created k ∉ events

variable {g : Keyspace} {done : List Key} {events : List KeyEvent}

theorem Deleting.nil (g : Keyspace) : Deleting g [] g [] where
  progress := .refl g
  log := (List.append_nil _).symm
  keys := rfl
  nodup := List.nodup_nil
  gone := by simp
  made := by simp

theorem Deleting.create {name : KeyName} (h : Deleting g done w events) (hp : p ∈ w.present)
    (hk : ¬ w.Made k) :
    Deleting g done (w.create k p name hp hk) (events ++ [.created k]) where
  progress := h.progress.trans progress_create
  log := by
    show w.log ++ [KeyEvent.created k] = _
    rw [h.log, List.append_assoc]
  keys := by
    rw [own_append, own_created, List.append_nil]
    exact h.keys
  nodup := by
    rw [own_append, own_created, List.append_nil]
    exact h.nodup
  gone := by
    rw [own_append, own_created, List.append_nil]
    intro c hc
    obtain ⟨habsent, hentry⟩ := h.gone c hc
    have hck : c ≠ k := by
      rintro rfl
      exact hk (.inr hentry)
    refine ⟨fun hpresent => habsent (hpresent.resolve_left hck), ?_⟩
    show Function.update w.entry k (some (p, name)) c ≠ none
    rwa [Function.update_of_ne hck]
  made := by
    intro c hc hmem
    rcases List.mem_append.mp hmem with hmem | hmem
    · exact h.made c hc hmem
    · obtain rfl := KeyEvent.created.inj (List.mem_singleton.mp hmem)
      exact hk (h.progress.made c hc)

/-- Somebody else deletes a key. -/
theorem Deleting.lose (h : Deleting g done w events) (hk : w.entry k ≠ none)
    (hchildless : w.Childless k) :
    Deleting g done (w.delete k (.lost k) hk hchildless) (events ++ [.lost k]) where
  progress := h.progress.trans progress_delete
  log := by
    show w.log ++ [KeyEvent.lost k] = _
    rw [h.log, List.append_assoc]
  keys := by
    rw [own_append, own_lost, List.append_nil]
    exact h.keys
  nodup := by
    rw [own_append, own_lost, List.append_nil]
    exact h.nodup
  gone := by
    rw [own_append, own_lost, List.append_nil]
    exact fun c hc => ⟨fun hpresent => (h.gone c hc).1 hpresent.1, (h.gone c hc).2⟩
  made := by
    intro c hc hmem
    rcases List.mem_append.mp hmem with hmem | hmem
    · exact h.made c hc hmem
    · cases List.mem_singleton.mp hmem

/-- Our process deletes one. -/
theorem Deleting.delete (h : Deleting g done w events) (hfd : g.handles[fd]? = some k)
    (hpresent : k ∈ w.present) (hk : w.entry k ≠ none) (hchildless : w.Childless k) :
    Deleting g (done ++ [fd]) (w.delete k (.deleted k) hk hchildless) (events ++ [.deleted k]) where
  progress := h.progress.trans progress_delete
  log := by
    show w.log ++ [KeyEvent.deleted k] = _
    rw [h.log, List.append_assoc]
  keys := by
    rw [own_append, own_deleted, List.map_append, List.map_append, h.keys]
    simp [hfd]
  nodup := by
    rw [own_append, own_deleted]
    refine h.nodup.append (List.nodup_singleton k) ?_
    rw [List.disjoint_singleton]
    exact fun hmem => (h.gone k hmem).1 hpresent
  gone := by
    rw [own_append, own_deleted]
    intro c hc
    rcases List.mem_append.mp hc with hc | hc
    · exact ⟨fun hpresent => (h.gone c hc).1 hpresent.1, (h.gone c hc).2⟩
    · obtain rfl := List.mem_singleton.mp hc
      exact ⟨fun hpresent => hpresent.2 rfl, hk⟩
  made := by
    intro c hc hmem
    rcases List.mem_append.mp hmem with hmem | hmem
    · exact h.made c hc hmem
    · cases List.mem_singleton.mp hmem

/-- Some events have led here. -/
def Deletes (g : Keyspace) (done : List Key) (w : Keyspace) : Prop :=
  ∃ events, Deleting g done w events

theorem Deletes.stable (g : Keyspace) (done : List Key) : Stable Others (Deletes g done) := by
  rintro w w' hstep ⟨events, h⟩
  cases hstep with
  | creates name hp hk => exact ⟨_, h.create hp hk⟩
  | deletes hk hchildless _ => exact ⟨_, h.lose hk hchildless⟩

theorem ensures_deleteKey (hfd : g.handles[fd]? = some k) (done : List Key)
    (layer : Option String) :
    Ensures Others (Answers (optLayer layer)) (Deletes g done) (Key.deleteKey fd layer none)
      fun r w => (∀ v, r = .ok v → Deletes g (done ++ [fd]) w) ∧
        ∀ e, r = .error e → Deletes g done w := by
  refine .call (M := fun r w => (∀ v, r = .ok v → Deletes g (done ++ [fd]) w) ∧
    ∀ e, r = .error e → Deletes g done w) (Deletes.stable g done) ?_ fun r => .ret ?_ fun w hw => hw
  · rintro w r w' ⟨events, h⟩ hanswer
    cases hanswer with
    | deletes hk hchildless hfd' hpresent =>
      obtain rfl := Option.some.inj ((h.progress.handle hfd).symm.trans hfd')
      refine ⟨fun v _ => ⟨_, h.delete hfd hpresent hk hchildless⟩, fun e he => ?_⟩
      cases he
    | notDeleted e =>
      refine ⟨fun v hv => ?_, fun e' _ => ⟨events, h⟩⟩
      cases hv
  · exact fun w w' hstep hw => ⟨fun v hv => Deletes.stable _ _ w w' hstep (hw.1 v hv),
      fun e he => Deletes.stable _ _ w w' hstep (hw.2 e he)⟩

/-- The delete loop deletes the keys that it is given, until it fails. -/
theorem ensuresE_deleteAll {fds : List Key} (hfds : ∀ fd ∈ fds, ∃ k, g.handles[fd]? = some k)
    (layer : Option String) :
    EnsuresE Others (Methods (optLayer layer)) (Deletes g []) (deleteAll fds layer none)
      (fun _ => Deletes g fds) fun _ w => ∃ done fd, done ++ [fd] <+: fds ∧ Deletes g done w := by
  have hE : Stable Others fun w => ∃ done fd, done ++ [fd] <+: fds ∧ Deletes g done w := by
    rintro w w' hstep ⟨done, fd, hdone, h⟩
    exact ⟨done, fd, hdone, Deletes.stable _ _ w w' hstep h⟩
  refine .forM (Deletes.stable g) (fun _ => hE) fds fun done fd hdone => ?_
  obtain ⟨k, hfd⟩ := hfds fd (hdone.subset (by simp))
  refine .lift (Deletes.stable g done) (fun _ => Deletes.stable g _) (fun _ => hE) ?_
  intro w r w' hw hcall
  obtain ⟨hok, herror⟩ := ensures_deleteKey hfd done layer w r w' hw hcall
  cases r with
  | error e =>
    refine ⟨fun v hv => ?_, fun f _ => ⟨done, fd, hdone, herror e rfl⟩⟩
    cases hv
  | ok v =>
    refine ⟨fun _ _ => hok v rfl, fun f hf => ?_⟩
    cases hf

/-! ### The tree -/

/-- What our process has open when it has gathered: keys under the root, and the root. -/
structure Listed (s : Keyspace) (root : KeyId) (key : Key) (under : List Key) (g : Keyspace) :
    Prop where
  quiet : Quiet s g
  opened : AllOpened root under g
  key : g.handles[key]? = some root

theorem Listed.handle (h : Listed s root key under g) :
    ∀ fd ∈ under ++ [key], ∃ k, g.handles[fd]? = some k := by
  intro fd hfd
  rcases List.mem_append.mp hfd with hfd | hfd
  · obtain ⟨k, hk, -⟩ := h.opened fd hfd
    exact ⟨k, hk⟩
  · exact ⟨root, List.mem_singleton.mp hfd ▸ h.key⟩

/-- Where the key of each handle lies. -/
theorem Listed.lies (h : Listed s root key under g) (hprogress : Progress g w) {fd : Key}
    (hfd : fd ∈ under ++ [key]) (hk : g.handles[fd]? = some k) :
    fd ∈ under ∧ w.Under k root ∨ fd = key ∧ k = root := by
  rcases List.mem_append.mp hfd with hfd | hfd
  · obtain ⟨k', hk', hunder⟩ := h.opened fd hfd
    obtain rfl := Option.some.inj (hk.symm.trans hk')
    exact .inl ⟨hfd, hprogress.under hunder⟩
  · obtain rfl := List.mem_singleton.mp hfd
    exact .inr ⟨rfl, Option.some.inj (hk.symm.trans h.key)⟩

theorem Deleting.exists_handle (h : Deleting g done w events) (hk : k ∈ own events) :
    ∃ fd ∈ done, g.handles[fd]? = some k := by
  have hmem : some k ∈ done.map (g.handles[·]?) := h.keys ▸ List.mem_map_of_mem hk
  obtain ⟨fd, hfd, hhandle⟩ := List.mem_map.mp hmem
  exact ⟨fd, hfd, hhandle⟩

/-- What `Key::delete_tree` has done to a registry that others change as well.  The events since it
was called fall in two parts. -/
structure TreeDeleted (s : Keyspace) (root : KeyId) (outcome : Except Fault Nat) (u : Keyspace)
    (gathering deleting : List KeyEvent) : Prop where
  log : u.log = s.log ++ gathering ++ deleting
  /-- In the first it deletes nothing. -/
  gathers : own gathering = []
  /-- In the second it deletes each key at most once, -/
  nodup : (own deleting).Nodup
  /-- and none that is made in that part. -/
  made : ∀ k ∈ own deleting, .created k ∉ deleting
  inside : ∀ k ∈ own deleting, k = root ∨ u.Under k root
  gone : ∀ k ∈ own deleting, k ∉ u.present
  /-- When it succeeds it has deleted as many keys as it says, the root last, and nothing of the
  tree is there, whoever has made it. -/
  ok : ∀ n, outcome = .ok n → n = (own deleting).length ∧ (own deleting).getLast? = some root ∧
    ∀ k, k = root ∨ u.Under k root → k ∉ u.present
  /-- When it fails it has deleted only keys under the root. -/
  error : ∀ f, outcome = .error f → ∀ k ∈ own deleting, u.Under k root

theorem treeDeleted_of_quiet (h : Quiet s u) (f : Fault) :
    ∃ gathering, TreeDeleted s root (.error f) u gathering [] := by
  obtain ⟨events, hlog, hown⟩ := h
  refine ⟨events, ⟨by rw [hlog, List.append_nil], hown, List.nodup_nil, by simp, by simp, by simp,
    ?_, by simp⟩⟩
  intro n hn
  cases hn

/-- What holds of the keys that have been deleted, when not all may have been. -/
theorem Listed.inside (hlisted : Listed s root key under g) (h : Deleting g done u events)
    (hdone : done ⊆ under ++ [key]) (hk : k ∈ own events) :
    .created k ∉ events ∧ (k = root ∨ u.Under k root) := by
  obtain ⟨fd, hfd, hhandle⟩ := h.exists_handle hk
  refine ⟨h.made k (g.opened k (List.mem_of_getElem? hhandle)), ?_⟩
  rcases hlisted.lies h.progress (hdone hfd) hhandle with ⟨-, hunder⟩ | ⟨-, hroot⟩
  · exact .inr hunder
  · exact .inl hroot

theorem treeDeleted_of_error (hlisted : Listed s root key under g) (h : Deleting g done u events)
    {fd : Key} (hdone : done ++ [fd] <+: under ++ [key]) (f : Fault) :
    ∃ gathering, TreeDeleted s root (.error f) u gathering events := by
  obtain ⟨gathering, hlog, hown⟩ := hlisted.quiet
  have hunder : done <+: under := by
    obtain ⟨rest, hrest⟩ := hdone
    rcases List.eq_nil_or_concat rest with rfl | ⟨rest, last, rfl⟩
    · rw [List.append_nil] at hrest
      exact (List.append_inj' hrest rfl).1 ▸ List.prefix_refl _
    · rw [List.concat_eq_append, ← List.append_assoc] at hrest
      exact ⟨[fd] ++ rest, by rw [← List.append_assoc, (List.append_inj' hrest rfl).1]⟩
  have hsubset : done ⊆ under ++ [key] := fun fd hfd => List.mem_append_left _ (hunder.subset hfd)
  refine ⟨gathering, ⟨by rw [h.log, hlog], hown, h.nodup,
    fun k hk => (hlisted.inside h hsubset hk).1, fun k hk => (hlisted.inside h hsubset hk).2,
    fun k hk => (h.gone k hk).1, ?_, ?_⟩⟩
  · intro n hn
    cases hn
  · intro _ _ k hk
    obtain ⟨fd', hfd', hhandle⟩ := h.exists_handle hk
    obtain ⟨k', hk', hunder'⟩ := hlisted.opened fd' (hunder.subset hfd')
    obtain rfl := Option.some.inj (hhandle.symm.trans hk')
    exact h.progress.under hunder'

theorem treeDeleted_of_ok (hlisted : Listed s root key under g)
    (h : Deleting g (under ++ [key]) u events) :
    ∃ gathering, TreeDeleted s root (.ok (under.length + 1)) u gathering events := by
  obtain ⟨gathering, hlog, hown⟩ := hlisted.quiet
  have hlength : (own events).length = under.length + 1 := by
    have := congrArg List.length h.keys
    simpa using this
  have hlast : (own events).getLast? = some root := by
    have := congrArg List.getLast? h.keys
    simpa [hlisted.key, List.getLast?_map] using this
  have hroot : root ∉ u.present := (h.gone root (List.mem_of_getLast? hlast)).1
  refine ⟨gathering, ⟨by rw [h.log, hlog], hown, h.nodup,
    fun k hk => (hlisted.inside h (List.Subset.refl _) hk).1,
    fun k hk => (hlisted.inside h (List.Subset.refl _) hk).2,
    fun k hk => (h.gone k hk).1, ?_, ?_⟩⟩
  · intro n hn
    refine ⟨(Except.ok.inj hn).symm.trans hlength.symm, hlast, ?_⟩
    rintro k (rfl | hunder) hpresent
    · exact hroot hpresent
    · exact hroot (present_of_under hunder hpresent)
  · intro f hf
    cases hf

/-- What is known when `Key::delete_tree` has ended. -/
theorem ensuresE_deleteTree (s : Keyspace) (root : KeyId) (key : Key) (rounds : Nat)
    (layer : Option String) :
    EnsuresE Others (Methods (optLayer layer))
      (fun w => Quiet s w ∧ w.handles[key]? = some root) (key.deleteTree rounds layer none)
      (fun n w => ∃ under g, Listed s root key under g ∧ n = under.length + 1 ∧
        Deletes g (under ++ [key]) w)
      fun _ w => Quiet s w ∨ ∃ under g done fd, Listed s root key under g ∧
        done ++ [fd] <+: under ++ [key] ∧ Deletes g done w := by
  have hE : Stable Others fun w => Quiet s w ∨ ∃ under g done fd, Listed s root key under g ∧
      done ++ [fd] <+: under ++ [key] ∧ Deletes g done w := by
    rintro w w' hstep (hw | ⟨under, g, done, fd, hlisted, hdone, hw⟩)
    · exact .inl ((Quiet.kept s).others w w' hstep hw)
    · exact .inr ⟨under, g, done, fd, hlisted, hdone, Deletes.stable _ _ w w' hstep hw⟩
  have hroot : Kept fun w : Keyspace => w.handles[key]? = some root :=
    .of_progress fun _ _ h hk => h.handle hk
  rw [deleteTree_eq]
  refine .bind (M := Listed s root key) (fun _ => hE) ?_ fun under => ?_
  · intro w w' hw
    obtain ⟨hok, herror⟩ := gathers_gather (optLayer layer) s root rounds hroot key [] w w'
      ⟨⟨hw.2, hw.1, by simp [AllOpened]⟩, root, hw.2, .inl rfl⟩
    refine ⟨fun under hrun => ?_, fun f hrun => .inl (herror f hrun)⟩
    obtain ⟨hkey, hquiet, hopened⟩ := hok under hrun
    exact ⟨hquiet, hopened, hkey⟩
  · refine .of_state (G := fun g w => Deletes g [] w ∧ Listed s root key under g)
      (fun g hg => ⟨⟨[], .nil g⟩, hg⟩) fun g hlisted => ?_
    refine .bind (M := fun _ => Deletes g (under ++ [key])) (fun _ => hE) ?_ fun _ => .pure ?_ ?_
    · intro w w' hw
      obtain ⟨hok, herror⟩ := ensuresE_deleteAll hlisted.handle layer w w' hw.1
      refine ⟨hok, fun f hrun => ?_⟩
      obtain ⟨done, fd, hdone, hw'⟩ := herror f hrun
      exact .inr ⟨under, g, done, fd, hlisted, hdone, hw'⟩
    · rintro w w' hstep ⟨under', g', hlisted', hn, hw⟩
      exact ⟨under', g', hlisted', hn, Deletes.stable _ _ w w' hstep hw⟩
    · exact fun w hw => ⟨under, g, hlisted, rfl, hw⟩

/-- While others create and delete keys, `Key::delete_tree` deletes, once it has gathered, only keys
that lie under its own and had been made by then, each once.  When it succeeds, nothing is left of
the tree, whatever the others have added to it, and when it fails the key itself is not among those
that it has deleted. -/
theorem deleteTree_shared (s u : Keyspace) (root : KeyId) (key : Key) (rounds : Nat)
    (layer : Option String) (outcome : Except Fault Nat) (hkey : s.handles[key]? = some root)
    (hrun : Concurrent Others (Answers (optLayer layer)) s
      ((key.deleteTree rounds layer none).run.interp KeyCall.impl) outcome u) :
    ∃ gathering deleting, TreeDeleted s root outcome u gathering deleting := by
  have hstart : Quiet s s ∧ s.handles[key]? = some root :=
    ⟨⟨[], (List.append_nil _).symm, rfl⟩, hkey⟩
  obtain ⟨hok, herror⟩ := ensuresE_deleteTree s root key rounds layer s u hstart
  have hmethods := hrun.interp_inv
  cases outcome with
  | ok n =>
    obtain ⟨under, g, hlisted, rfl, events, hdeleting⟩ := hok n hmethods
    obtain ⟨gathering, h⟩ := treeDeleted_of_ok hlisted hdeleting
    exact ⟨gathering, events, h⟩
  | error f =>
    rcases herror f hmethods with hquiet | ⟨under, g, done, fd, hlisted, hdone, events, hdeleting⟩
    · obtain ⟨gathering, h⟩ := treeDeleted_of_quiet hquiet f
      exact ⟨gathering, [], h⟩
    · obtain ⟨gathering, h⟩ := treeDeleted_of_error hlisted hdeleting hdone f
      exact ⟨gathering, events, h⟩

/-- The key that is open (1) lies in the root of the registry (0). -/
def sharedKeys : Keyspace where
  entry k := if k = 1 then some (0, .single 97 isSeparator_a) else none
  present := {0, 1}
  handles := [1]
  log := []
  parents := by
    intro k p name hentry _
    split_ifs at hentry
    obtain ⟨rfl, -⟩ := Prod.mk.inj (Option.some.inj hentry)
    simp
  opened := by simp

/-- Another key (2) is created in the open one, and deleted again. -/
theorem deleteTree_sharedKeys :
    ∃ u gathering deleting, TreeDeleted sharedKeys 1 (.ok 1) u gathering deleting := by
  have hparent : 1 ∈ sharedKeys.present := by simp [sharedKeys]
  have hfresh : ¬ sharedKeys.Made 2 := by simp [Made, sharedKeys]
  let w₁ := sharedKeys.create 2 1 (.single 98 isSeparator_b) hparent hfresh
  have hin : ∀ k p, w₁.LiesIn k p → k = 2 ∧ p = 1 ∨ p = 0 := by
    rintro k p ⟨name, hentry⟩
    by_cases hk : k = 2
    · subst hk
      exact .inl ⟨rfl, (Prod.mk.inj (Option.some.inj hentry)).1.symm⟩
    · have hold : sharedKeys.entry k = some (p, name) :=
        (Function.update_of_ne hk _ _).symm.trans hentry
      simp only [sharedKeys] at hold
      split_ifs at hold
      exact .inr (Prod.mk.inj (Option.some.inj hold)).1.symm
  have hentry₂ : w₁.entry 2 ≠ none := by simp [w₁, Keyspace.create]
  have hchildless₂ : w₁.Childless 2 := by
    intro k _ hk
    rcases hin k 2 hk with ⟨-, h⟩ | h
    · exact absurd h (by decide)
    · exact absurd h (by decide)
  let w₂ := w₁.delete 2 (.lost 2) hentry₂ hchildless₂
  have hentry₁ : w₂.entry 1 ≠ none := by
    simp [w₂, w₁, Keyspace.delete, Keyspace.create, sharedKeys]
  have hchildless₁ : w₂.Childless 1 := by
    intro k hk hk'
    rcases hin k 1 hk' with ⟨rfl, -⟩ | h
    · exact hk.2 rfl
    · exact absurd h (by decide)
  let u := w₂.delete 1 (.deleted 1) hentry₁ hchildless₁
  have hrun : Concurrent Others (Answers (optLayer none)) sharedKeys
      (((0 : Key).deleteTree 1 none none).run.interp KeyCall.impl) (.ok 1) u := by
    let ended : WindowReply 1 SubkeyFields :=
      { errno := some ENOENT, lens := fun _ => 0, windows := fun _ => [],
        fields := { lastWriteTime := 0, subkeyCount := 0, valueCount := 0 } }
    have hpresent₂ : 2 ∈ w₁.present := Set.mem_insert 2 _
    have hpresent₁ : 1 ∈ w₂.present := ⟨Set.mem_insert_of_mem 2 hparent, by decide⟩
    refine .call (.enumerates ended rfl nofun) ?_
    refine .env (.creates (.single 98 isSeparator_b) hparent hfresh) ?_
    refine .env (.deletes hentry₂ hchildless₂ hpresent₂) ?_
    exact .call (.deletes hentry₁ hchildless₁ rfl hpresent₁) (.ret _ _)
  exact ⟨u, deleteTree_shared sharedKeys u 1 0 1 none (.ok 1) rfl hrun⟩

end Peios.Registry
