import MinervaBot.LoaderCallsSpec

/-!
# Loads that fail

The ways out of `modules_loadmod` behind a step that fails. Where `dlopen` finds no library, the
library has no `module_init`, or there is no memory for the array or the context, the function has
undone what it did before it returns. Of a path that is too long it only writes to the log, and that
`threadpool_queue_init` starts no thread it does not notice (`changesNothing_iff`).
-/

namespace MinervaBot

open Lib

variable {H : Type}

/-- A step of `modules_loadmod` that fails. -/
inductive LoadFailure where
  | path
  | dlopen
  | moduleInit
  | growth
  | context
  | queueing
  deriving DecidableEq

/-- The first step from the lock on that fails. There is none if no entry of `loaded` is free, where
the code exits. -/
def contextFailure (steps : LoadSteps H) (s : Loader H) : Option LoadFailure :=
  match s.grow steps.realloc with
  | none => some .growth
  | some s =>
    match s.loaded.findIdx? (·.isNone) with
    | none => none
    | some _ =>
      if steps.calloc then
        if steps.queued then none else some .queueing
      else some .context

/-- The first step of a load that fails. -/
def loadFailure (modDir : CString) (steps : LoadSteps H) (s : Loader H) (modFile : CString) :
    Option LoadFailure :=
  if PathTooLong modDir modFile then some .path
  else if steps.dlopen then
    match steps.moduleInit with
    | none => some .moduleInit
    | some _ => contextFailure steps s
  else some .dlopen

/-- Between two points of a call it wrote within `local_file` only; the contexts in `loaded`,
`loaded_use` and the number of open libraries are as before; and `modules_array_mutex` is released.
-/
structure ChangesNothing (c c' : Caller H) : Prop where
  localFile : ∃ is, c'.localFile = c.localFile ++ is ∧ ∀ i ∈ is, i < pathMax
  loaded : c'.loader.loaded.reduceOption = c.loader.loaded.reduceOption
  loadedUse : c'.loader.loadedUse = c.loader.loadedUse
  opened : c'.opened = c.opened
  array : c'.held .array = false

section
variable {modDir modFile : CString} {steps : LoadSteps H} {c : Caller H}

/-- Growing `loaded` adds free entries only. -/
theorem Loader.reduceOption_grow {realloc : Option Bool} {s s' : Loader H}
    (h : s.grow realloc = some s') :
    s'.loaded.reduceOption = s.loaded.reduceOption ∧ s'.loadedUse = s.loadedUse := by
  unfold Loader.grow at h
  split at h
  · obtain ⟨moved, -, rfl⟩ := Option.map_eq_some_iff.1 h
    refine ⟨?_, rfl⟩
    rw [List.reduceOption_append, List.reduceOption_replicate_none, List.append_nil]
  · cases h
    exact ⟨rfl, rfl⟩

/-- Writing a path that fits. -/
theorem changesNothing_copied (harray : c.held .array = false) (hfit : ¬ PathTooLong modDir modFile) :
    ChangesNothing c (c.copied modDir modFile) where
  localFile := by
    refine ⟨_, List.append_assoc .., fun i hi => ?_⟩
    rw [PathTooLong] at hfit
    rcases List.mem_append.1 hi with hi | hi <;> have hi := List.mem_range'_1.1 hi <;> omega
  loaded := rfl
  loadedUse := rfl
  opened := rfl
  array := harray

/-- A load that fails behind the lock closes the library, leaves the contexts and releases the
mutex, unless it is the queueing that fails: then the load counts one more module. -/
theorem run_addContext_failure (harray : c.held .array = false) {failure : LoadFailure}
    (h : contextFailure steps c.loader = some failure) (lib : Library H) (modFile : CString) :
    ∃ s, failure ≠ .path ∧
      if failure = .queueing then
        (Caller.addContext steps lib modFile).run c = .ok () (c.withLoader s) ∧
          s.loadedUse = c.loader.loadedUse + 1
      else
        (Caller.addContext steps lib modFile).run c =
            .ok () { c.withLoader s with opened := c.opened - 1 } ∧
          s.loaded.reduceOption = c.loader.loaded.reduceOption ∧
            s.loadedUse = c.loader.loadedUse := by
  rw [Caller.run_addContext harray]
  unfold contextFailure at h
  cases hgrow : c.loader.grow steps.realloc with
  | none =>
    rw [hgrow] at h
    cases h
    exact ⟨c.loader, LoadFailure.noConfusion, rfl, rfl, rfl⟩
  | some s =>
    obtain ⟨hloaded, huse⟩ := Loader.reduceOption_grow hgrow
    simp only [hgrow] at h ⊢
    cases hfree : s.loaded.findIdx? (·.isNone) with
    | none =>
      rw [hfree] at h
      cases h
    | some i =>
      simp only [hfree] at h ⊢
      cases hcalloc : steps.calloc with
      | false =>
        rw [hcalloc] at h
        cases h
        exact ⟨s, LoadFailure.noConfusion, rfl, hloaded, huse⟩
      | true =>
        rw [hcalloc, if_pos rfl] at h
        split at h
        · cases h
        · cases h
          exact ⟨_, LoadFailure.noConfusion, rfl, congrArg (· + 1) huse⟩

/-- A load that fails behind the lock changes nothing, unless it is the queueing that fails. `c₀` is
the state before the library was opened. -/
theorem changesNothing_addContext_iff {c₀ : Caller H} (harray : c.held .array = false)
    {failure : LoadFailure} (h : contextFailure steps c.loader = some failure)
    (hbefore : ChangesNothing c₀ { c with opened := c.opened - 1 }) (lib : Library H)
    (modFile : CString) :
    (∃ c', (Caller.addContext steps lib modFile).run c = .ok () c' ∧ ChangesNothing c₀ c') ↔
      failure ≠ .path ∧ failure ≠ .queueing := by
  obtain ⟨s, hpath, hrun⟩ := run_addContext_failure harray h lib modFile
  by_cases hqueueing : failure = .queueing
  · rw [if_pos hqueueing] at hrun
    refine iff_of_false ?_ (fun h => h.2 hqueueing)
    rintro ⟨c', hok, hnothing⟩
    cases hrun.1.symm.trans hok
    have huse : s.loadedUse = c.loader.loadedUse :=
      hnothing.loadedUse.trans hbefore.loadedUse.symm
    omega
  · rw [if_neg hqueueing] at hrun
    refine iff_of_true ⟨_, hrun.1, ?_⟩ ⟨hpath, hqueueing⟩
    exact { hbefore with
      loaded := hrun.2.1.trans hbefore.loaded
      loadedUse := hrun.2.2.trans hbefore.loadedUse }

/-- A load that fails changes nothing, whichever of its steps it is that fails, unless the path is
too long or the queueing fails. -/
theorem changesNothing_iff (harray : c.held .array = false) (failure : LoadFailure)
    (h : loadFailure modDir steps c.loader modFile = some failure) :
    (∃ c', (Caller.modulesLoadmod modDir steps modFile).run c = .ok () c' ∧ ChangesNothing c c') ↔
      failure ≠ .path ∧ failure ≠ .queueing := by
  unfold loadFailure at h
  by_cases hlong : PathTooLong modDir modFile
  · rw [if_pos hlong] at h
    cases h
    obtain ⟨c₁, hrun, -⟩ := Caller.run_modulesLoadmod_long (c := c) steps hlong
    refine iff_of_false ?_ (fun h => h.1 rfl)
    rintro ⟨c', hok, -⟩
    rw [hrun] at hok
    cases hok
  rw [if_neg hlong] at h
  have hcopied := changesNothing_copied harray hlong
  rw [Caller.run_modulesLoadmod steps hlong, LoadSteps.sys]
  cases hdlopen : steps.dlopen with
  | false =>
    rw [hdlopen] at h
    cases h
    exact iff_of_true ⟨_, rfl, hcopied⟩ (by decide)
  | true =>
    rw [hdlopen, if_pos rfl] at h
    simp only [if_true]
    cases hinit : steps.moduleInit with
    | none =>
      rw [hinit] at h
      cases h
      exact iff_of_true ⟨_, rfl, hcopied⟩ (by decide)
    | some lib =>
      rw [hinit] at h
      refine changesNothing_addContext_iff
        (c := { c.copied modDir modFile with opened := c.opened + 1 }) harray h ?_ lib modFile
      exact { hcopied with opened := add_sub_cancel_right .. }

end

/-- A library without `module_init`: the first load closes it again. -/
theorem changesNothing_iff_moduleInit :
    ∃ c', (Caller.modulesLoadmod (H := Nat) (CString.lit "mods/") ⟨true, none, none, true, true⟩
        (CString.lit "a.so")).run (callerInit loaderInit) = .ok () c' ∧
      ChangesNothing (callerInit loaderInit) c' :=
  (changesNothing_iff (c := callerInit loaderInit) rfl .moduleInit rfl).2 (by decide)

/-- `threadpool_queue_init` starts no thread for the first library: it stays open, its context stays
in `loaded`, and `loaded_use` is `1`. -/
theorem not_changesNothing : ¬ ∀ (modDir modFile : CString) (steps : LoadSteps Nat) (c : Caller Nat)
    (failure : LoadFailure), c.held .array = false →
      loadFailure modDir steps c.loader modFile = some failure →
        ∃ c', (Caller.modulesLoadmod modDir steps modFile).run c = .ok () c' ∧ ChangesNothing c c' := by
  intro h
  obtain ⟨c', hrun, hnothing⟩ := h (CString.lit "mods/") (CString.lit "a.so")
    ⟨true, some ⟨[], none⟩, none, true, false⟩ (callerInit loaderInit) .queueing rfl rfl
  cases hrun
  exact absurd hnothing.loadedUse (by decide)

end MinervaBot
