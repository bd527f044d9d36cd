import Peios.Interaction.Path

/-!
# Triples

`visited h p s` lists the states that a run goes through, one after each call.
`Triple h inv pre p post` is about the runs from states that satisfy `pre`: every state they go
through satisfies `inv`, and where they return `a` they end as `post a` says.  There is one rule for
each way to put a program together, and `frame` for one that only makes calls that keep the
invariant.

For programs that may fail, what they end with is `Ends post fails`: one condition for those that
return and one for those that fail.  `tryFinally` is the program that cleans up either way.
-/

namespace Interaction.Prog

variable {C : Type} {R : C → Type} {α β σ ε : Type}

/-! ### States that are visited -/

/-- The state after each call. -/
def visited (h : Handler C R σ) : Prog C R α → σ → List σ
  | ret _, _ => []
  | call c k, s => (h c s).2 :: (k (h c s).1).visited h (h c s).2

theorem visited_bind (h : Handler C R σ) (p : Prog C R α) (f : α → Prog C R β) (s : σ) :
    (p >>= f).visited h s = p.visited h s ++ (f (p.run h s).1).visited h (p.run h s).2 := by
  induction p generalizing s with
  | ret a => rfl
  | call c k ih =>
    rw [call_bind, visited, visited, ih]
    rfl

/-- What calls keep holds in every state that is visited. -/
theorem visited_invariant {h : Handler C R σ} {inv : σ → Prop} {P : C → Prop}
    (hinv : ∀ c s, P c → inv s → inv (h c s).2) (p : Prog C R α) {s : σ}
    (hp : ∀ ev ∈ p.trace h s, P ev.1) (hs : inv s) : ∀ s' ∈ p.visited h s, inv s' := by
  induction p generalizing s with
  | ret a => simp [visited]
  | call c k ih =>
    rw [trace_call, List.forall_mem_cons] at hp
    have hnext := hinv c s hp.1 hs
    rw [visited, List.forall_mem_cons]
    exact ⟨hnext, ih _ hp.2 hnext⟩

/-! ### Triples -/

/-- Every run from `pre` goes through `inv` only, and ends as `post` says. -/
def Triple (h : Handler C R σ) (inv pre : σ → Prop) (p : Prog C R α) (post : α → σ → Prop) : Prop :=
  ∀ s, pre s → (∀ s' ∈ p.visited h s, inv s') ∧ post (p.run h s).1 (p.run h s).2

namespace Triple

variable {h : Handler C R σ} {inv pre : σ → Prop} {p : Prog C R α} {post : α → σ → Prop}

theorem ret {a : α} (ha : ∀ s, pre s → post a s) : Triple h inv pre (.ret a) post :=
  fun s hs => ⟨fun _ hs' => absurd hs' List.not_mem_nil, ha s hs⟩

/-- One call. -/
theorem lift {c : C} {post : R c → σ → Prop}
    (hc : ∀ s, pre s → inv (h c s).2 ∧ post (h c s).1 (h c s).2) :
    Triple h inv pre (.lift c) post := by
  intro s hs
  obtain ⟨hinv, hpost⟩ := hc s hs
  refine ⟨fun s' hs' => ?_, hpost⟩
  obtain rfl := List.mem_singleton.mp hs'
  exact hinv

theorem bind {mid : α → σ → Prop} {f : α → Prog C R β} {post : β → σ → Prop}
    (hp : Triple h inv pre p mid) (hf : ∀ a, Triple h inv (mid a) (f a) post) :
    Triple h inv pre (p >>= f) post := by
  intro s hs
  obtain ⟨hvisited, hmid⟩ := hp s hs
  obtain ⟨hvisited', hpost⟩ := hf _ _ hmid
  rw [visited_bind, run_bind, List.forall_mem_append]
  exact ⟨⟨hvisited, hvisited'⟩, hpost⟩

theorem mono {pre' : σ → Prop} {post' : α → σ → Prop} (hp : Triple h inv pre p post)
    (hpre : ∀ s, pre' s → pre s) (hpost : ∀ a s, post a s → post' a s) :
    Triple h inv pre' p post' :=
  fun s hs => ⟨(hp s (hpre s hs)).1, hpost _ _ (hp s (hpre s hs)).2⟩

/-- What is stronger than the invariant may be kept on the way. -/
theorem mono_inv {inv' : σ → Prop} (hp : Triple h inv' pre p post) (hinv : ∀ s, inv' s → inv s) :
    Triple h inv pre p post :=
  fun s hs => ⟨fun s' hs' => hinv s' ((hp s hs).1 s' hs'), (hp s hs).2⟩

/-! ### Programs that may fail -/

/-- How a program that may fail ends. -/
def Ends (post : α → σ → Prop) (fails : ε → σ → Prop) : Except ε α → σ → Prop
  | .ok a, s => post a s
  | .error e, s => fails e s

section

variable {p : ExceptT ε (Prog C R) α} {fails : ε → σ → Prop}

theorem pure {a : α} (ha : ∀ s, pre s → post a s) :
    Triple h inv pre (pure a : ExceptT ε (Prog C R) α).run (Ends post fails) := ret ha

theorem throw {e : ε} (he : ∀ s, pre s → fails e s) :
    Triple h inv pre (throw e : ExceptT ε (Prog C R) α).run (Ends post fails) := ret he

theorem bindE {mid : α → σ → Prop} {f : α → ExceptT ε (Prog C R) β} {post : β → σ → Prop}
    (hp : Triple h inv pre p.run (Ends mid fails))
    (hf : ∀ a, Triple h inv (mid a) (f a).run (Ends post fails)) :
    Triple h inv pre (p >>= f).run (Ends post fails) := by
  rw [ExceptT.run_bind]
  apply hp.bind
  intro r
  cases r with
  | ok a => exact hf a
  | error e => exact ret fun _ hs => hs

/-- A failure is caught. -/
theorem tryCatch {mid : ε → σ → Prop} {f : ε → ExceptT ε (Prog C R) α}
    (hp : Triple h inv pre p.run (Ends post mid))
    (hf : ∀ e, Triple h inv (mid e) (f e).run (Ends post fails)) :
    Triple h inv pre (tryCatch p f : ExceptT ε (Prog C R) α).run (Ends post fails) := by
  apply hp.bind
  intro r
  cases r with
  | ok a => exact ret fun _ hs => hs
  | error e => exact hf e

theorem monoE {pre' : σ → Prop} {post' : α → σ → Prop} {fails' : ε → σ → Prop}
    (hp : Triple h inv pre p.run (Ends post fails)) (hpre : ∀ s, pre' s → pre s)
    (hpost : ∀ a s, post a s → post' a s) (hfails : ∀ e s, fails e s → fails' e s) :
    Triple h inv pre' p.run (Ends post' fails') := by
  apply hp.mono hpre
  intro r s hs
  cases r with
  | ok a => exact hpost a s hs
  | error e => exact hfails e s hs

/-- What every run of the program returns may be assumed of it. -/
theorem returns {P : α → Prop} (hp : Triple h inv pre p.run (Ends post fails))
    (hP : ∀ s a s', exec h p s = (.ok a, s') → P a) :
    Triple h inv pre p.run (Ends (fun a s => post a s ∧ P a) fails) := by
  intro s hs
  obtain ⟨hvisited, hpost⟩ := hp s hs
  refine ⟨hvisited, ?_⟩
  cases hresult : (p.run.run h s).1 with
  | ok a =>
    rw [hresult] at hpost
    exact ⟨hpost, hP s a _ (Prod.ext hresult rfl)⟩
  | error e =>
    rw [hresult] at hpost
    exact hpost

/-- How the program ends is a result. -/
theorem result (hp : Triple h inv pre p.run (Ends post fails)) :
    Triple h inv pre (ExceptT.mk (.ok <$> p.run) : ExceptT ε (Prog C R) (Except ε α)).run
      (Ends (Ends post fails) fails) :=
  hp.bind fun _ => ret fun _ hs => hs

/-- A loop, with what each round keeps and adds to what was done. -/
theorem forM {ι : Type} {f : ι → ExceptT ε (Prog C R) Unit} {I : List ι → σ → Prop} (l : List ι)
    (hf : ∀ done i, done ++ [i] <+: l →
      Triple h inv (I done) (f i).run (Ends (fun _ => I (done ++ [i])) fails)) :
    Triple h inv (I []) (l.forM f).run (Ends (fun _ => I l) fails) := by
  suffices hl : ∀ done rest, done ++ rest = l →
      Triple h inv (I done) (rest.forM f).run (Ends (fun _ => I l) fails) from hl [] l rfl
  intro done rest
  induction rest generalizing done with
  | nil =>
    rintro rfl
    rw [List.append_nil]
    exact pure fun _ hs => hs
  | cons i rest ih =>
    rintro rfl
    refine bindE (hf done i ?_) fun _ => ih (done ++ [i]) ?_
    · exact ⟨rest, by rw [List.append_assoc, List.singleton_append]⟩
    · rw [List.append_assoc, List.singleton_append]

/-- A program whose calls all keep the invariant. -/
theorem frame {P : C → Prop} (hinv : ∀ c s, P c → inv s → inv (h c s).2) (hp : CallsOnly P p) :
    Triple h inv inv p.run fun _ => inv := by
  intro s hs
  have hcalls : ∀ ev ∈ p.run.trace h s, P ev.1 := hp _ _ (Path.run h p.run s)
  exact ⟨visited_invariant hinv p.run hcalls hs, run_invariant_of_trace inv hinv p.run hcalls hs⟩

end

end Triple

/-! ### Cleaning up -/

/-- Run `cleanup` after `p` however that ends; a failure of `cleanup` replaces that of `p`. -/
def tryFinally (p : ExceptT ε (Prog C R) α) (cleanup : ExceptT ε (Prog C R) Unit) :
    ExceptT ε (Prog C R) α :=
  ExceptT.mk do
    let result ← p.run
    match ← cleanup.run with
    | .ok () => return result
    | .error e => return .error e

/-- When the cleanup succeeds, it does not change what the program ends with. -/
theorem exec_tryFinally {h : Handler C R σ} {p : ExceptT ε (Prog C R) α}
    {cleanup : ExceptT ε (Prog C R) Unit} {s s₁ s₂ : σ} {r : Except ε α}
    (hp : exec h p s = (r, s₁)) (hcleanup : exec h cleanup s₁ = (.ok (), s₂)) :
    exec h (tryFinally p cleanup) s = (r, s₂) := by
  unfold exec at hp hcleanup
  show (p.run >>= fun result => cleanup.run >>= _).run h s = _
  rw [run_bind, hp, run_bind, hcleanup]
  rfl

theorem Triple.tryFinally {h : Handler C R σ} {inv pre : σ → Prop} {p : ExceptT ε (Prog C R) α}
    {cleanup : ExceptT ε (Prog C R) Unit} {mid post : Except ε α → σ → Prop}
    (hp : Triple h inv pre p.run mid)
    (hcleanup : ∀ r, Triple h inv (mid r) cleanup.run
      (Ends (fun _ => post r) fun e => post (.error e))) :
    Triple h inv pre (tryFinally p cleanup).run post := by
  apply hp.bind
  intro r
  apply (hcleanup r).bind
  intro r'
  cases r' with
  | ok _ => exact ret fun _ hs => hs
  | error e => exact ret fun _ hs => hs

end Interaction.Prog
