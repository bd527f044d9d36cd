import Peios.StyleCheck.Check

/-!
# The tools that check style

What `main` asks of the tools that it runs: a tool that checks files changes nothing, and ends well
if and only if each of them is `Clean` (`CheckContract`); where a tool that fixes files ends well
they are, nothing but files of its language have changed, and what has been linted is still clean
(`Contract`).  What a tool asks of a file is the parameter `rules`.
-/

namespace StyleCheck

open Python FileTree Interaction Prog

/-! ### The passes -/

/-- Those that are run, in the order in which they are. -/
def Pass.all : List Pass :=
  [.ruffCheck, .ruffFormat, .shellcheck, .shfmt, .rustfmt, .clangFormat, .gofmt, .prettier]

/-- The files that a tool is for. -/
def Pass.covers : Pass → List Component → Bool
  | ruffCheck | ruffFormat => isPython
  | shellcheck | shfmt => isShell
  | rustfmt => isRust
  | clangFormat => isC
  | gofmt => isGo
  | prettier => isData

/-- What the tools ask of the file that opens at a path, with the configuration that the repository
has for them, which may leave paths out. -/
abbrev Rules := Pass → List Component → Except OsError File → Prop

/-- The file is as a tool wants it. -/
def Clean (rules : Rules) (pass : Pass) (t : FileTree Component) (p : List Component) : Prop :=
  rules pass p (t.openFile p)

/-- Nothing but the content of files that `may` change differs. -/
def Rewrites (may : List Component → Prop) (t t' : FileTree Component) : Prop :=
  ∀ p, t'.node? p = t.node? p ∨ (may p ∧ ∃ f content, t.node? p = some (.file f) ∧
    t'.node? p = some (.file { f with content }))

namespace Rewrites

variable {may may' : List Component → Prop} {t t' u : FileTree Component} {p : List Component}

theorem refl (t : FileTree Component) : Rewrites may t t := fun _ => .inl rfl

theorem trans (h : Rewrites may t t') (h' : Rewrites may' t' u) :
    Rewrites (fun p => may p ∨ may' p) t u := by
  intro p
  rcases h' p with hsame' | ⟨hmay', f', content', hf', hu⟩
  · rw [hsame']
    rcases h p with hsame | ⟨hmay, f, content, hf, hf'⟩
    · exact .inl hsame
    · exact .inr ⟨.inl hmay, f, content, hf, hf'⟩
  · rcases h p with hsame | ⟨hmay, f, content, hf, hf''⟩
    · rw [hsame] at hf'
      exact .inr ⟨.inr hmay', f', content', hf', hu⟩
    · rw [hf''] at hf'
      cases hf'
      exact .inr ⟨.inl hmay, f, content', hf, hu⟩

theorem mono (h : Rewrites may t t') (hmay : ∀ p, may p → may' p) : Rewrites may' t t' :=
  fun p => (h p).imp id fun hp => ⟨hmay p hp.1, hp.2⟩

theorem listable (h : Rewrites may t t') : t'.listable p = t.listable p := by
  unfold FileTree.listable
  rcases h p with hsame | ⟨-, f, content, hf, hf'⟩
  · rw [hsame]
  · rw [hf, hf']

theorem searchable (h : Rewrites may t t') : t'.searchable p = t.searchable p := by
  unfold FileTree.searchable
  rcases h p with hsame | ⟨-, f, content, hf, hf'⟩
  · rw [hsame]
  · rw [hf, hf']

theorem reachable (h : Rewrites may t t') : t'.Reachable p ↔ t.Reachable p := by
  unfold Reachable
  simp only [h.searchable]

end Rewrites

/-- An argument that is no option. -/
def IsOperand (argument : Str) : Prop := argument.head? ≠ some 0x2d

/-- Files that a tool is for, with names that are not taken for options. -/
structure Pass.Takes (pass : Pass) (files : List (List Component)) : Prop where
  nonempty : files ≠ []
  covered : ∀ p ∈ files, pass.covers p = true
  operands : ∀ p ∈ files, IsOperand (posix p)

end StyleCheck
