import MinervaBot.LoaderCallsSpec

/-!
# The locks of the module core

Of the functions that take `modules_cmds_mutex` or `modules_array_mutex`, all but one release on
each way out what they took, also where they call each other. `modules_rescanall` ends with an
unlock of `modules_array_mutex`, which `modules_unloadall` and each `modules_loadmod` have released
themselves: so no call of it that gets to its end unlocks a mutex that it holds
(`balanced_iff_safe`).
-/

namespace MinervaBot

open Lib

variable {H : Type}

/-- A call of a function of the module core that takes a mutex. -/
inductive CoreFunction (H : Type) where
  | registerCmd (calloc : Nat → Bool) (cmdname : CString) (handler : Option H)
  | unregisterCmd (cmdname : CString)
  | checkCmd (sender target message : CString)
  | cmdsClean
  | loadmod (steps : LoadSteps H) (modFile : CString)
  | unloadall (queued : Nat → Bool)
  | rescanall (queued : Nat → Bool) (folder : Option (List (DirEntry H)))

/-- The call. -/
def CoreFunction.call (modDir cmdPrefix : CString) : CoreFunction H → CallM H Unit
  | .registerCmd calloc cmdname handler => do
    let _ ← Caller.modulesRegisterCmd calloc cmdname handler
  | .unregisterCmd cmdname => do
    let _ ← Caller.modulesUnregisterCmd (H := H) cmdname
  | .checkCmd sender target message => do
    let _ ← Caller.modulesCheckCmd (H := H) cmdPrefix sender target message
  | .cmdsClean => do
    let c ← get
    let _ ← Caller.modulesCmdsClean 0 [] c.loader.cmds
  | .loadmod steps modFile => Caller.modulesLoadmod modDir steps modFile
  | .unloadall queued => Caller.modulesUnloadall queued
  | .rescanall queued folder => Caller.modulesRescanall modDir queued folder

/-- The call unlocks a mutex only while the thread holds it, locks none that it holds, and holds
none on return. A call that exits does not return; of one that is undefined nothing can be said. -/
def Caller.Balanced (c : Caller H) (x : CallM H Unit) : Prop :=
  match x.run c with
  | .ok _ c' => ∀ m, c'.held m = false
  | .error e _ => e = .exit

/-- A load that gets as far as the search finds no free entry. -/
def Loader.NoEntryFree (steps : LoadSteps H) (s : Loader H) : Prop :=
  ∃ lib s', steps.sys.dlopen = some lib ∧ s.grow steps.realloc = some s' ∧
    s'.loaded.findIdx? (·.isNone) = none

/-- A scan of the modules directory comes to a load that exits. -/
inductive ScanExits (modDir : CString) : Loader H → List (DirEntry H) → Prop
  | exits (module : isModuleFile dir.dName) (fits : ¬ PathTooLong modDir dir.dName)
      (full : (dir.others s).NoEntryFree dir.steps) : ScanExits modDir s (dir :: dirs)
  | loads (module : isModuleFile dir.dName)
      (loaded : modulesLoadmod modDir dir.steps.sys (dir.others s) dir.dName = some s')
      (rest : ScanExits modDir s' dirs) : ScanExits modDir s (dir :: dirs)
  | skips (other : ¬ isModuleFile dir.dName) (rest : ScanExits modDir (dir.others s) dirs) :
      ScanExits modDir s (dir :: dirs)

/-- The call loads no path that is too long, and is no `modules_rescanall` that gets to its end. -/
def CoreFunction.Safe (modDir : CString) (s : Loader H) : CoreFunction H → Prop
  | .loadmod _ modFile => ¬ PathTooLong modDir modFile
  | .rescanall queued folder => ∀ dirs, folder = some dirs →
    ScanExits modDir (if s.loadedUse > 0 then s.unloadAll queued else s) dirs
  | .registerCmd .. | .unregisterCmd _ | .checkCmd .. | .cmdsClean | .unloadall _ => True

section
variable {modDir cmdPrefix : CString} {c : Caller H} {dir : DirEntry H} {dirs : List (DirEntry H)}
  {s s' : Loader H} {steps : LoadSteps H} {modFile : CString}

/-! ## Scans -/

/-- A load without a result. -/
theorem modulesLoadmod_eq_none_iff :
    modulesLoadmod modDir steps.sys s modFile = none ↔
      PathTooLong modDir modFile ∨ s.NoEntryFree steps := by
  rw [modulesLoadmod, Loader.NoEntryFree, show steps.sys.realloc = steps.realloc from rfl]
  split
  · next hlong => exact iff_of_true rfl (.inl hlong)
  next hfits =>
  cases steps.sys.dlopen with
  | none => exact iff_of_false (Option.some_ne_none _) (by simp [PathTooLong, hfits])
  | some lib =>
    simp only
    cases s.grow steps.realloc with
    | none => exact iff_of_false (Option.some_ne_none _) (by simp [PathTooLong, hfits])
    | some s₁ =>
      simp only
      cases hfree : s₁.loaded.findIdx? (·.isNone) with
      | none => exact iff_of_true rfl (.inr ⟨lib, s₁, rfl, rfl, hfree⟩)
      | some i =>
        refine iff_of_false (Option.some_ne_none _) ?_
        rintro (hlong | ⟨_, _, -, heq, hnone⟩)
        · exact hfits hlong
        · cases heq
          rw [hfree] at hnone
          cases hnone

/-- A scan over a file that is loaded. -/
theorem scanExits_loads (hmod : isModuleFile dir.dName)
    (hload : modulesLoadmod modDir dir.steps.sys (dir.others s) dir.dName = some s') :
    ScanExits modDir s (dir :: dirs) ↔ ScanExits modDir s' dirs := by
  constructor
  · intro h
    cases h with
    | exits _ hfits hfull =>
      rw [modulesLoadmod_eq_none_iff.2 (.inr hfull)] at hload
      cases hload
    | loads _ hload' hrest =>
      cases hload.symm.trans hload'
      exact hrest
    | skips hother _ => exact absurd hmod hother
  · exact .loads hmod hload

/-- A scan over a file that cannot be loaded. -/
theorem scanExits_none (dirs : List (DirEntry H)) (hmod : isModuleFile dir.dName)
    (hload : modulesLoadmod modDir dir.steps.sys (dir.others s) dir.dName = none) :
    ScanExits modDir s (dir :: dirs) ↔ ¬ PathTooLong modDir dir.dName := by
  constructor
  · intro h
    cases h with
    | exits _ hfits _ => exact hfits
    | loads _ hload' _ =>
      rw [hload] at hload'
      cases hload'
    | skips hother _ => exact absurd hmod hother
  · exact fun hfits => .exits hmod hfits ((modulesLoadmod_eq_none_iff.1 hload).resolve_left hfits)

/-- A scan over another file. -/
theorem scanExits_skips (hother : ¬ isModuleFile dir.dName) :
    ScanExits modDir s (dir :: dirs) ↔ ScanExits modDir (dir.others s) dirs := by
  constructor
  · intro h
    cases h with
    | exits hmod _ _ => exact absurd hmod hother
    | loads hmod _ _ => exact absurd hmod hother
    | skips _ hrest => exact hrest
  · exact .skips hother

/-- What the loop of `modules_rescanall` does: it ends with the mutexes as they were, or exits, or
comes to a path that is too long. -/
inductive ScanRun (modDir : CString) (c : Caller H) (dirs : List (DirEntry H)) :
    EStateM.Result CallError (Caller H) Unit → Prop
  | ends (held : c'.held = c.held) (safe : ¬ ScanExits modDir c.loader dirs) :
      ScanRun modDir c dirs (.ok () c')
  | exits (exits : ScanExits modDir c.loader dirs) : ScanRun modDir c dirs (.error .exit c')
  | undefined (safe : ¬ ScanExits modDir c.loader dirs) :
      ScanRun modDir c dirs (.error .undefined c')

/-- A scan goes on as the scan of what follows does. -/
theorem ScanRun.of_rest {c₁ : Caller H} {r : EStateM.Result CallError (Caller H) Unit}
    (h : ScanRun modDir c₁ dirs r) (hheld : c₁.held = c.held)
    (hiff : ScanExits modDir c.loader (dir :: dirs) ↔ ScanExits modDir c₁.loader dirs) :
    ScanRun modDir c (dir :: dirs) r := by
  cases h with
  | ends hheld' hsafe => exact .ends (hheld'.trans hheld) (fun h => hsafe (hiff.1 h))
  | exits hexits => exact .exits (hiff.2 hexits)
  | undefined hsafe => exact .undefined fun h => hsafe (hiff.1 h)

/-- The loop of `modules_rescanall`. Induction on the entries of the directory. -/
theorem run_scan (modDir : CString) : ∀ (dirs : List (DirEntry H)) {c : Caller H},
    c.held .array = false →
      ScanRun modDir c dirs ((dirs.forM (Caller.modulesRescanallEntry modDir)).run c)
  | [], c, _ => .ends rfl fun h => nomatch h
  | dir :: dirs, c, harray => by
    show ScanRun modDir c (dir :: dirs) ((Caller.modulesRescanallEntry modDir dir >>= fun _ =>
      dirs.forM (Caller.modulesRescanallEntry modDir)).run c)
    simp only [Caller.modulesRescanallEntry, EStateM.run_bind, Caller.run_modifyLoader]
    by_cases hmod : isModuleFile dir.dName
    · rw [if_pos hmod]
      rcases Caller.modulesLoadmod_cases (c := c.withLoader (dir.others c.loader)) harray modDir
        dir.steps dir.dName with ⟨c₁, hrun, hheld, hload⟩ | ⟨hload, c₁, hrun⟩
      · rw [hrun]
        have harray₁ : c₁.held .array = false := by rwa [hheld]
        exact (run_scan modDir dirs harray₁).of_rest hheld (scanExits_loads hmod hload)
      · rw [hrun]
        have hiff := scanExits_none dirs hmod hload
        by_cases hlong : dir.dName.length + modDir.length + 1 > pathMax
        · rw [if_pos hlong]
          exact .undefined fun h => hiff.1 h hlong
        · rw [if_neg hlong]
          exact .exits (hiff.2 hlong)
    · rw [if_neg hmod, EStateM.run_pure]
      have hrest := run_scan modDir dirs (c := c.withLoader (dir.others c.loader)) harray
      exact hrest.of_rest rfl (scanExits_skips hmod)

/-! ## The functions -/

/-- From the `opendir` on: where the scan ends, `modules_rescanall` unlocks a mutex that it does not
hold. -/
theorem balanced_folder (modDir : CString) (harray : c.held .array = false)
    (folder : Option (List (DirEntry H))) :
    c.Balanced (Caller.modulesRescanallFolder modDir folder) ↔
      ∀ dirs, folder = some dirs → ScanExits modDir c.loader dirs := by
  cases folder with
  | none => exact iff_of_true rfl (by simp)
  | some dirs =>
    have hrun := run_scan modDir dirs harray
    simp only [Caller.Balanced, Caller.modulesRescanallFolder, EStateM.run_bind, Option.some.injEq,
      forall_eq']
    generalize (dirs.forM (Caller.modulesRescanallEntry modDir)).run c = r at hrun
    cases hrun with
    | ends hheld hsafe =>
      simp only [Caller.run_unlock_notHeld (hheld ▸ harray)]
      exact iff_of_false CallError.noConfusion hsafe
    | exits hexits => exact iff_of_true rfl hexits
    | undefined hsafe => exact iff_of_false CallError.noConfusion hsafe

/-- `modules_rescanall` is balanced only if it exits. -/
theorem balanced_rescanall (harray : c.held .array = false) (hcmds : c.held .cmds = false)
    (hroot : c.loader.cmds ≠ .null) (queued : Nat → Bool) (folder : Option (List (DirEntry H))) :
    c.Balanced (Caller.modulesRescanall modDir queued folder) ↔ ∀ dirs, folder = some dirs →
      ScanExits modDir (if c.loader.loadedUse > 0 then c.loader.unloadAll queued else c.loader) dirs := by
  by_cases huse : c.loader.loadedUse > 0
  · obtain ⟨c₁, hrun, hheld, hloader⟩ := Caller.run_modulesUnloadall harray hcmds hroot queued
    have hfolder := balanced_folder modDir (c := c₁) (by rwa [hheld]) folder
    rw [if_pos huse, ← hloader, ← hfolder]
    simp only [Caller.Balanced, Caller.modulesRescanall, EStateM.run_bind, EStateM.run_get, if_pos huse,
      hrun]
  · have hfolder := balanced_folder modDir harray folder
    rw [if_neg huse, ← hfolder]
    simp only [Caller.Balanced, Caller.modulesRescanall, EStateM.run_bind, EStateM.run_get, if_neg huse]

/-- A call that returns with the mutexes free is balanced. -/
theorem Caller.balanced_of_ok {c' : Caller H} {x : CallM H Unit} (hrun : x.run c = .ok () c')
    (hfree : ∀ m, c'.held m = false) : c.Balanced x := by
  rw [Balanced, hrun]
  exact hfree

/-- The same where the call has a result. -/
theorem Caller.balanced_of_result {α : Type} {a : α} {c' : Caller H} {x : CallM H α}
    (hrun : x.run c = .ok a c') (hfree : ∀ m, c'.held m = false) :
    c.Balanced (do let _ ← x) :=
  balanced_of_ok (by rw [EStateM.run_bind, hrun]; rfl) hfree

/-- `modules_loadmod` is balanced if the path fits. -/
theorem balanced_loadmod (hfree : ∀ m, c.held m = false) (steps : LoadSteps H) (modFile : CString) :
    c.Balanced (Caller.modulesLoadmod modDir steps modFile) ↔ ¬ PathTooLong modDir modFile := by
  by_cases hlong : PathTooLong modDir modFile
  · obtain ⟨c', hrun, -⟩ := Caller.run_modulesLoadmod_long (c := c) steps hlong
    refine iff_of_false ?_ (not_not.2 hlong)
    rw [Caller.Balanced, hrun]
    exact CallError.noConfusion
  · refine iff_of_true ?_ hlong
    rcases Caller.modulesLoadmod_cases (hfree .array) modDir steps modFile with
      ⟨c', hrun, hheld, -⟩ | ⟨-, c', hrun⟩
    · exact Caller.balanced_of_ok hrun (by rwa [hheld])
    · rw [Caller.Balanced, hrun]
      exact if_neg hlong

/-- Every call of a function of the module core unlocks only what it holds, locks only what it does
not hold and holds nothing on return, unless it loads a path that is too long or is a
`modules_rescanall` that gets to its end. -/
theorem balanced_iff_safe (hfree : ∀ m, c.held m = false) (hroot : c.loader.cmds ≠ .null)
    (f : CoreFunction H) : c.Balanced (f.call modDir cmdPrefix) ↔ f.Safe modDir c.loader := by
  cases f with
  | registerCmd calloc cmdname handler =>
    have hrun := Caller.run_modulesRegisterCmd (hfree .cmds) calloc cmdname handler
    exact iff_of_true (Caller.balanced_of_result hrun hfree) trivial
  | unregisterCmd cmdname =>
    have hrun := Caller.run_modulesUnregisterCmd (hfree .cmds) cmdname
    exact iff_of_true (Caller.balanced_of_result hrun hfree) trivial
  | checkCmd sender target message =>
    have hrun := Caller.run_modulesCheckCmd (hfree .cmds) cmdPrefix sender target message
    exact iff_of_true (Caller.balanced_of_result hrun hfree) trivial
  | cmdsClean =>
    have hrun := Caller.run_modulesCmdsClean (hfree .cmds) hroot
    exact iff_of_true (Caller.balanced_of_result hrun hfree) trivial
  | loadmod steps modFile => exact balanced_loadmod hfree steps modFile
  | unloadall queued =>
    obtain ⟨c', hrun, hheld, -⟩ := Caller.run_modulesUnloadall (hfree .array) (hfree .cmds) hroot queued
    exact iff_of_true (Caller.balanced_of_ok hrun (by rwa [hheld])) trivial
  | rescanall queued folder =>
    exact balanced_rescanall (hfree .array) (hfree .cmds) hroot queued folder

end

/-- The command `op` is registered in a new tree. -/
theorem balanced_iff_safe_op : (callerInit (loaderInit (H := Nat))).Balanced
    ((CoreFunction.registerCmd (fun _ => true) (CString.lit "op") (some 7)).call (CString.lit "mods/")
      (CString.lit "!")) :=
  (balanced_iff_safe (fun _ => rfl) cmdsInit_ne_null
    (.registerCmd (fun _ => true) (CString.lit "op") (some 7))).2 trivial

/-- Nothing is loaded and the modules directory is empty: `modules_rescanall` unlocks
`modules_array_mutex`, which it has not locked. -/
theorem not_balanced : ¬ ∀ (modDir cmdPrefix : CString) (c : Caller Nat),
    (∀ m, c.held m = false) → c.loader.cmds ≠ .null →
      ∀ f : CoreFunction Nat, c.Balanced (f.call modDir cmdPrefix) := by
  intro h
  have hrun := h (CString.lit "mods/") (CString.lit "!") (callerInit loaderInit) (fun _ => rfl)
    cmdsInit_ne_null (.rescanall (fun _ => true) (some []))
  cases hrun

end MinervaBot
