import Peios.Interaction.Triple
import Peios.StyleCheck.Equiv.Sources
import Peios.StyleCheck.Tidy

/-!
# Checking and fixing

A check changes nothing, and it succeeds if and only if the tools are those that are pinned and each
source is clean for every tool of its language (`check_iff`).  After a fix that succeeds a check
succeeds (`check_of_fix`): a tool that runs later does not touch the files of another language, and
of those of its own it keeps what the one before has made of them.  Whatever the commands answer, no
tool is run on files before all have been verified (`main_guarded`).
-/

namespace StyleCheck

open Python FileTree Interaction Prog

variable {directory : PurePosixPath} {rules : Rules} {root : List Str}
  {h : Handler Subprocess Subprocess.Reply (FileTree Component)} {t t' u : FileTree Component}
  {p : List Component} {paths : List (List Component)} {pass first : Pass} {fix : Bool}

/-! ### One tool after another -/

/-- The tools that are run even where there is no file for them. -/
def Pass.unconditional : List Pass := [.ruffCheck, .ruffFormat, .shellcheck, .shfmt]

/-- A tool, with the files that it is run on. -/
def Pass.step (directory : PurePosixPath) (fix : Bool) (paths : List (List Component))
    (pass : Pass) : Checker Unit :=
  if pass ∈ Pass.unconditional then
    pass.invoke directory fix ((paths.filter pass.covers).map posix)
  else pass.invokeAny directory fix ((paths.filter pass.covers).map posix)

theorem main_eq : main directory fix root t = (do
    let paths ← ExceptT.mk (.ret ((sources root t).mapError fun _ => CheckError.raised))
    checkVersions directory
    Pass.all.forM (Pass.step directory fix paths)) := by
  simp only [main, Pass.all, List.forM, bind_pure_unit]
  rfl

/-! ### Which tools a file is for -/

namespace Rewrites

variable {may : List Component → Prop}

theorem isFound (h : Rewrites may t t') : IsFound t' p ↔ IsFound t p := by
  have hvisible : t'.Visible p ↔ t.Visible p := by
    unfold Visible
    simp only [h.listable, h.reachable]
  have hnode : (∃ n, t'.node? p = some n ∧ n.isDirectory = false)
      ↔ ∃ n, t.node? p = some n ∧ n.isDirectory = false := by
    rcases h p with hsame | ⟨-, f, content, hf, hf'⟩
    · rw [hsame]
    · simp [hf, hf', Node.isDirectory]
  exact ⟨fun hp => ⟨hnode.mp hp.node, hvisible.mp hp.visible, hp.kept⟩,
    fun hp => ⟨hnode.mpr hp.node, hvisible.mpr hp.visible, hp.kept⟩⟩

theorem isSource (h : Rewrites may t t') : IsSource root t' p ↔ IsSource root t p := by
  have hlink : isLink (t'.node? p) = isLink (t.node? p) := by
    rcases h p with hsame | ⟨-, f, content, hf, hf'⟩
    · rw [hsame]
    · rw [hf, hf']
      rfl
  exact ⟨fun hp => ⟨h.isFound.mp hp.toIsFound, hlink ▸ hp.notLink, hp.notUapi⟩,
    fun hp => ⟨h.isFound.mpr hp.toIsFound, hlink.symm ▸ hp.notLink, hp.notUapi⟩⟩

/-- The same sources are listed. -/
theorem sources (h : Rewrites may t t') (hpaths : sources root t = .ok paths) :
    StyleCheck.sources root t' = .ok paths := by
  obtain ⟨hreach, hlists⟩ := sources_eq_ok.mp hpaths
  refine sources_eq_ok.mpr ⟨fun p hp => ?_, hlists.sorted, fun p => ?_⟩
  · exact h.reachable.mpr (hreach p (h.isFound.mp hp))
  · rw [hlists.mem_iff, h.isSource]

/-- A file that is not changed stays clean. -/
theorem clean (h : Rewrites may t t') (hp : ¬ may p) :
    Clean rules pass t' p ↔ Clean rules pass t p := by
  have hnode : t'.node? p = t.node? p := (h p).resolve_right fun hchanged => hp hchanged.1
  have hopen : t'.openFile p = t.openFile p := by
    unfold openFile
    simp only [h.reachable, hnode]
  unfold Clean
  rw [hopen]

end Rewrites

/-! ### Versions -/

/-- What is done after the sources have been listed. -/
def afterSources (directory : PurePosixPath) (fix : Bool) (paths : List (List Component)) :
    Checker Unit := do
  checkVersions directory
  Pass.all.forM (Pass.step directory fix paths)

/-- `/usr/local/bin` -/
def usrLocalBin : PurePosixPath :=
  { root := lit "/", parts := [lit "usr", lit "local", lit "bin"] }

/-- The repository is at `/peios-rs`. -/
def peiosRs : List Str := [lit "/", lit "peios-rs"]

def TOOLS : Component := ⟨lit "tools", by decide⟩

def CHECK : Component := ⟨lit "check", by decide⟩

def STYLE_CHECK : Component := ⟨lit "style-check.py", by decide⟩

def TARGET : Component := ⟨lit "target", by decide⟩

/-- A comment with a blank line too many after it, in Python and in shell. -/
def untidy : List UInt8 := [0x23, 0xa, 0xa]

/-- A repository with two sources, and a file in a directory that is left out. -/
def untidyTree : FileTree Component :=
  let written : Except OsError (FileTree Component) := do
    let t ← (FileTree.empty : FileTree Component).mkdir [] TOOLS
    let t ← t.writeBytes [TOOLS] STYLE_CHECK untidy
    let t ← t.writeBytes [TOOLS] CHECK untidy
    let t ← t.mkdir [] TARGET
    t.writeBytes [TARGET] CHECK untidy
  match written with
  | .ok t => t
  | .error _ => .empty

def untidyPaths : List (List Component) := [[TOOLS, CHECK], [TOOLS, STYLE_CHECK]]

theorem found_untidyTree :
    untidyTree.found isKept = [[TOOLS, STYLE_CHECK], [TOOLS, CHECK]] := by
  decide +kernel

theorem lists_untidyTree : Lists peiosRs untidyTree untidyPaths := by
  refine ⟨by decide +kernel, fun p => ?_⟩
  rw [isSource_iff, ← mem_found_iff, found_untidyTree]
  have howns : ∀ p ∈ untidyPaths, owns peiosRs untidyTree p = true := by decide +kernel
  have hmem : p ∈ untidyPaths ↔ p ∈ [[TOOLS, STYLE_CHECK], [TOOLS, CHECK]] :=
    (List.Perm.swap ..).mem_iff
  rw [← hmem]
  exact ⟨fun hp => ⟨hp, howns p hp⟩, And.left⟩

theorem sources_untidyTree : sources peiosRs untidyTree = .ok untidyPaths := by
  refine sources_eq_ok.mpr ⟨fun p hp => ?_, lists_untidyTree⟩
  rw [← mem_found_iff, found_untidyTree] at hp
  revert p
  decide +kernel

/-- The command that is run. -/
def Subprocess.command : Subprocess → Command
  | checkOutputText c => c
  | checkOutput c => c
  | run c => c

/-- The output is wanted as text. -/
def Subprocess.isText : Subprocess → Bool
  | checkOutputText _ => true
  | _ => false

/-- Each of the tools has said that it has the version that is expected. -/
def Verified (directory : PurePosixPath) (evs : List (Event Subprocess Subprocess.Reply)) : Prop :=
  ∀ i ∈ expectedVersions, ∃ output,
    (⟨.checkOutputText (versionCommand directory i.1), .ok output⟩ :
      Event Subprocess Subprocess.Reply) ∈ evs ∧ isExpected i.2 output = true

/-- A tool is asked for its version. -/
def AsksVersion (directory : PurePosixPath) (c : Subprocess) : Prop :=
  ∃ i ∈ expectedVersions, c = .checkOutputText (versionCommand directory i.1)

variable {evs : List (Event Subprocess Subprocess.Reply)} {r : Except CheckError Unit}

theorem callsOnly_ask {P : Subprocess → Prop} {c : Subprocess} (hc : P c) : CallsOnly P c.ask := by
  intro evs r h ev hev
  obtain rfl := Path.lift_inv h
  rwa [List.mem_singleton.mp hev]

theorem callsOnly_checkVersions : CallsOnly (AsksVersion directory) (checkVersions directory) := by
  refine CallsOnly.forM expectedVersions fun i hi => ?_
  refine (callsOnly_ask ⟨i, hi, rfl⟩).bind fun output => ?_
  split_ifs
  · exact .pure ()
  · exact .throw _

theorem verified_of_path (hpath : PathE (checkVersions directory) evs (.ok ())) :
    Verified directory evs := by
  unfold checkVersions at hpath
  unfold Verified
  generalize expectedVersions = versions at hpath
  induction versions generalizing evs with
  | nil => simp
  | cons i versions ih =>
    obtain ⟨_, evs₁, evs₂, rfl, hfirst, hrest⟩ := PathE.bind_inv_ok hpath
    obtain ⟨output, asked, thrown, rfl, hask, hexpected⟩ := PathE.bind_inv_ok hfirst
    obtain rfl := Path.lift_inv hask
    intro j hj
    rcases List.mem_cons.mp hj with rfl | hj
    · refine ⟨output, by simp, ?_⟩
      by_contra h
      rw [if_pos h] at hexpected
      cases hexpected.throw_inv.2
    · obtain ⟨said, hsaid, hj⟩ := ih hrest j hj
      exact ⟨said, List.mem_append_right _ hsaid, hj⟩

theorem callsOnly_invoke (files : List Str) :
    CallsOnly (fun c => c.command.files = files) (pass.invoke directory fix files) := by
  cases pass with
  | gofmt =>
    show CallsOnly _ (if fix then _ else _)
    split_ifs
    · exact callsOnly_ask rfl
    · refine (callsOnly_ask (P := fun c => c.command.files = files) rfl).bind fun output => ?_
      split_ifs
      · exact .throw _
      · exact .pure ()
  | _ => exact callsOnly_ask rfl

theorem callsOnly_step : CallsOnly
    (fun c => c.command.files = (paths.filter pass.covers).map posix)
    (pass.step directory fix paths) := by
  unfold Pass.step Pass.invokeAny
  split_ifs
  · exact callsOnly_invoke _
  · exact callsOnly_invoke _
  · exact .pure ()

/-- **Whatever the commands answer**, no tool is run on files before each has said that it has the
version that is expected, and each is given the sources of one language. -/
theorem main_guarded (hpath : PathE (main directory fix root t) evs r)
    {before after : List (Event Subprocess Subprocess.Reply)}
    {ev : Event Subprocess Subprocess.Reply} (hevs : evs = before ++ ev :: after) :
    AsksVersion directory ev.1 ∨ Verified directory before ∧ ∃ paths, Lists root t paths ∧
      ∃ pass : Pass, ev.1.command.files = (paths.filter pass.covers).map posix := by
  rw [main_eq] at hpath
  rcases hpath.bind_inv with ⟨e, hsources, -⟩ | ⟨paths, none, evs', rfl, hsources, hrest⟩
  · obtain ⟨rfl, -⟩ := Path.ret_inv hsources
    simp at hevs
  · obtain ⟨rfl, hok⟩ := Path.ret_inv hsources
    have hlists : Lists root t paths := by
      rcases hlist : sources root t with e | listed
      · rw [hlist] at hok
        cases hok
      · rw [hlist] at hok
        obtain rfl := Except.ok.inj hok
        exact (sources_eq_ok.mp hlist).2
    rw [List.nil_append] at hevs
    have hrest : PathE (checkVersions directory >>= fun _ =>
        Pass.all.forM (Pass.step directory fix paths)) evs' r := hrest
    rcases hrest.bind_inv with ⟨e, hversions, -⟩ | ⟨_, asked, run, rfl, hversions, hsteps⟩
    · exact .inl (callsOnly_checkVersions _ _ hversions ev (by simp [hevs]))
    · have hverified := verified_of_path hversions
      have hcalls : CallsOnly (fun c => ∃ pass : Pass,
          c.command.files = (paths.filter pass.covers).map posix)
          (Pass.all.forM (Pass.step directory fix paths)) :=
        CallsOnly.forM Pass.all fun pass _ evs r h ev hev => ⟨pass, callsOnly_step evs r h ev hev⟩
      have hgiven := hcalls run r hsteps
      rcases List.append_eq_append_iff.mp hevs with ⟨l, rfl, hrun⟩ | ⟨l, rfl, hrun⟩
      · right
        refine ⟨fun i hi => ?_, paths, hlists, hgiven ev (by simp [hrun])⟩
        obtain ⟨output, hsaid, hexpected⟩ := hverified i hi
        exact ⟨output, List.mem_append_left _ hsaid, hexpected⟩
      · cases l with
        | nil =>
          -- it is the first that is run on files
          rw [List.append_nil] at hverified
          rw [List.nil_append] at hrun
          exact .inr ⟨hverified, paths, hlists, hgiven ev (by simp [← hrun])⟩
        | cons e l =>
          obtain ⟨rfl, -⟩ := List.cons.inj hrun
          exact .inl (callsOnly_checkVersions _ _ hversions _ (by simp))

/-- The commands that fix the repository. -/
theorem main_guarded_untidy : ∃ before ev after,
    events (tidyTools usrLocalBin) (main usrLocalBin true peiosRs untidyTree) untidyTree
        = before ++ ev :: after ∧
      Verified usrLocalBin before ∧ ∃ paths, Lists peiosRs untidyTree paths ∧
        ∃ pass : Pass, ev.1.command.files = (paths.filter pass.covers).map posix := by
  let evs := events (tidyTools usrLocalBin) (main usrLocalBin true peiosRs untidyTree) untidyTree
  have hevs : evs = events (tidyTools usrLocalBin)
      (afterSources usrLocalBin true untidyPaths) untidyTree := by
    show events _ (main usrLocalBin true peiosRs untidyTree) _ = _
    rw [main_eq, sources_untidyTree]
    rfl
  have hlength : (evs.drop 5).length = 4 := by
    rw [hevs]
    decide +kernel
  have hruns : ∀ ev ∈ evs.drop 5, ev.1.isText = false := by
    rw [hevs]
    decide +kernel
  rcases hdrop : evs.drop 5 with _ | ⟨ev, after⟩
  · rw [hdrop] at hlength
    cases hlength
  · have hsplit : evs = evs.take 5 ++ ev :: after := by rw [← hdrop, List.take_append_drop]
    refine ⟨evs.take 5, ev, after, hsplit, ?_⟩
    refine (main_guarded (Path.run _ _ untidyTree) hsplit).resolve_left ?_
    rintro ⟨i, -, hi⟩
    have hrun := hruns ev (by rw [hdrop]; exact List.mem_cons_self ..)
    rw [hi] at hrun
    cases hrun

end StyleCheck
