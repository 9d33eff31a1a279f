import MinervaBot.LoaderUse

/-!
# What `loaded_use` counts

`loaded_use` goes up in `modules_loadmod` and down in `modules_unloadmod`; the entries of `loaded`
are cleared by the threads, at the end of a cleanup and after an initialization that failed. Here
loads and events wait until the job before them has ended, so that in between the counter and the
array can be compared.

`useCounts_iff` tells for every such run when they agree: `threadpool_wrapper_init` clears the entry
of a module that failed and leaves `loaded_use`.
-/

namespace MinervaBot

open Lib

variable {H : Type}

/-! ## One job at a time -/

/-- Whether a job is in `threadpool_wrapper_init`. -/
def Job.isInit : Job H → Bool
  | .init .. => true
  | _ => false

/-- Whether a job is in `threadpool_wrapper_deinit`. -/
def Job.isDeinit : Job H → Bool
  | .deinit .. => true
  | _ => false

/-- Whether the watching thread is in the `pthread_join`. -/
def Watchdog.isJoin : Watchdog → Bool
  | .join .. => true
  | _ => false

/-- No job is pending, and no unload is on its way. -/
def Loader.idle (s : Loader H) : Bool :=
  s.jobs.all Job.isFinished && !s.watchdog.isJoin

/-- Whether a step is a load or the start of an event. -/
def LoaderAct.starts : LoaderAct H → Bool
  | .loadmod .. => true
  | .event .. => true
  | .load _ => true
  | _ => false

/-- A step of the loader in which loads and events wait for the jobs before them. -/
def serialStep (modDir : CString) (s : Loader H) (act : LoaderAct H) :
    Option (Loader H × Option (LoggedCall H)) :=
  if act.starts && !s.idle then none else loaderStep modDir poolDetached s act

/-- `loaded_use` is the number of entries that are not `NULL`, not negative and below
`loaded_len`. -/
structure Loader.UseCounts (s : Loader H) : Prop where
  counts : s.loadedUse = s.loaded.countP (·.isSome)
  nonneg : 0 ≤ s.loadedUse
  lt : s.loadedUse < s.loaded.length

/-- No `module_init` fails, and the thread of each cleanup is started. -/
def LoaderAct.KeepsUse (s : Loader H) : LoaderAct H → Prop
  | .event false evt => s.cleanupOf evt.name = none
  | .finish j => ∀ ctx ctxPos ret, s.jobs[j]? = some (.init ctx ctxPos [] ret) → ret = 0
  | .fail j => ∀ ctx ctxPos todo ret, s.jobs[j]? ≠ some (.init ctx ctxPos todo ret)
  | _ => True

/-! ## What is pending -/

/-- The number of jobs in `threadpool_wrapper_init`. -/
def Loader.inits (s : Loader H) : Nat :=
  s.jobs.countP Job.isInit

/-- The number of jobs in `threadpool_wrapper_deinit`. -/
def Loader.deinits (s : Loader H) : Nat :=
  s.jobs.countP Job.isDeinit

/-- The number of unloads whose `loaded_use--` is still to come. -/
def Loader.joins (s : Loader H) : Nat :=
  if s.watchdog.isJoin then 1 else 0

/-- The invariant. A cleanup that has not ended yet accounts for one entry, an unload in the
`pthread_join` for one of `loaded_use`; at most one job is pending, and its entry is not `NULL`. -/
structure Loader.Serial (s : Loader H) : Prop where
  drift : s.drift + s.joins = s.deinits
  single : s.inits + s.deinits ≤ 1
  joining : s.inits + s.joins ≤ 1
  held : ∀ (ctx : Nat) (pos : SlotPos), some (ctx, pos) ∈ s.table.pending →
    (s.table.held pos).isSome
  use : s.loadedUse < s.loaded.length

section
variable {s s' : Loader H} {modDir modFile : CString} {j : Nat} {job : Job H}

/-- No job is pending if and only if none is counted. -/
theorem Loader.finished_iff : s.jobs.all Job.isFinished = true ↔ s.inits = 0 ∧ s.deinits = 0 := by
  rw [inits, deinits, List.countP_eq_zero, List.countP_eq_zero, List.all_eq_true, ← forall₂_and]
  refine forall₂_congr fun job _ => ?_
  cases job <;> simp [Job.isFinished, Job.isInit, Job.isDeinit]

theorem Loader.idle_iff : s.idle = true ↔ s.inits = 0 ∧ s.deinits = 0 ∧ s.joins = 0 := by
  rw [idle, Bool.and_eq_true, finished_iff, and_assoc, joins]
  cases s.watchdog.isJoin <;> simp

/-- Without a pending job no position is held for one. -/
theorem Loader.not_mem_pending {ctx : Nat} {pos : SlotPos} (hinits : s.inits = 0)
    (hdeinits : s.deinits = 0) : some (ctx, pos) ∉ s.table.pending := by
  intro hmem
  obtain ⟨job, hjob, hpending⟩ := List.mem_map.1 hmem
  have hfinished := List.all_eq_true.1 (finished_iff.2 ⟨hinits, hdeinits⟩) job hjob
  cases job with
  | init ctx ctxPos todo ret => cases hfinished
  | deinit ctx ctxPos todo => cases hfinished
  | finished error => cases hpending

/-- Replacing a job replaces it in every count. -/
theorem countP_setJob (p : Job H → Bool) (job' : Job H) (hjob : s.jobs[j]? = some job) :
    (s.jobs.set j job').countP p + (if p job then 1 else 0) =
      s.jobs.countP p + if p job' then 1 else 0 := by
  obtain ⟨hlt, rfl⟩ := List.getElem?_eq_some_iff.1 hjob
  have hpos : p s.jobs[j] = true → 0 < s.jobs.countP p :=
    fun hp => List.countP_pos_iff.2 ⟨_, List.getElem_mem hlt, hp⟩
  rw [List.countP_set hlt]
  by_cases hp : p s.jobs[j]
  · have := hpos hp
    simp only [if_pos hp]
    omega
  · simp only [if_neg hp]
    omega

/-- An event that starts no thread goes on at once. -/
theorem InotifyEvent.isJoin_next (evt : InotifyEvent) : evt.next.isJoin = false := by
  rw [next]
  cases evt.inDelete <;> rfl

/-- Without a job in the way the counter and the array agree. -/
theorem Loader.Serial.useCounts (h : s.Serial) (hidle : s.idle = true) : s.UseCounts := by
  obtain ⟨-, hdeinits, hjoins⟩ := idle_iff.1 hidle
  have hdrift := h.drift
  rw [hdeinits, hjoins, Loader.drift] at hdrift
  have hcounts : s.loadedUse = s.table.occupied := by omega
  exact ⟨hcounts, by omega, h.use⟩

theorem Loader.UseCounts.drift_eq (h : s.UseCounts) : s.drift = 0 := by
  have hcounts : s.loadedUse = s.table.occupied := h.counts
  rw [Loader.drift]
  omega

/-! ## Loads and events -/

/-- A load leaves `loaded_use` below `loaded_len`. -/
theorem modulesLoadmod_lt {sys : LoadSys H} (h : modulesLoadmod modDir sys s modFile = some s')
    (hnonneg : 0 ≤ s.loadedUse) (hlt : s.loadedUse < s.loaded.length) :
    s'.loadedUse < s'.loaded.length := by
  unfold modulesLoadmod at h
  split at h
  · cases h
  split at h
  · cases h
    exact hlt
  split at h
  · cases h
    exact hlt
  next s₁ hgrow =>
  have hroom : s₁.loadedUse + 1 < s₁.loaded.length := by
    rw [Loader.grow] at hgrow
    split at hgrow
    · obtain ⟨moved, -, rfl⟩ := Option.map_eq_some_iff.1 hgrow
      simp only [List.length_append, List.length_replicate]
      omega
    · cases hgrow
      omega
  split at h
  · cases h
  next i hi =>
  cases h
  split
  · simpa [Loader.addModule] using hroom
  · omega

/-- A load with nothing pending keeps the invariant. -/
theorem Loader.Serial.loadmod {sys : LoadSys H} (hs : s.Serial) (hidle : s.idle = true)
    (h : modulesLoadmod modDir sys s modFile = some s') : s'.Serial ∧ s'.joins = 0 := by
  obtain ⟨hinits, hdeinits, hjoins⟩ := idle_iff.1 hidle
  obtain ⟨hcounts, hnonneg, hlt⟩ := hs.useCounts hidle
  obtain ⟨hdrift, -⟩ := drift_modulesLoadmod h
  obtain ⟨-, hwatchdog, hjobs⟩ := modulesLoadmod_cases h
  have hjoins' : s'.joins = 0 := by
    rw [joins, hwatchdog]
    exact hjoins
  have hjobs' : s'.inits ≤ 1 ∧ s'.deinits = 0 := by
    rw [inits] at hinits
    rw [deinits] at hdeinits
    rw [inits, deinits]
    rcases hjobs with hsame | ⟨lib, ctxPos, -, hnew⟩
    · rw [hsame]
      omega
    · rw [hnew, List.countP_append, List.countP_append, hinits, hdeinits]
      exact ⟨Nat.le_refl 1, rfl⟩
  have hdrift₀ := hs.drift
  refine ⟨⟨by omega, by omega, by omega, ?_, modulesLoadmod_lt h hnonneg hlt⟩, hjoins'⟩
  -- only the new job is pending, and it has just taken its entry
  intro ctx pos hmem
  obtain ⟨t, ht, htable⟩ := modulesLoadmod_table h
  have hold : t.pending = s.table.pending := by
    rcases ht with rfl | ⟨moved, n, rfl⟩ <;> rfl
  have hnone : some (ctx, pos) ∉ t.pending := hold ▸ not_mem_pending hinits hdeinits
  rcases htable with ⟨hsame, -⟩ | ⟨i, hi, -, hacquire | hrequest⟩
  · rw [hsame] at hmem
    exact absurd hmem hnone
  · rw [hacquire] at hmem
    exact absurd hmem hnone
  · rw [hrequest] at hmem ⊢
    rcases List.mem_append.1 hmem with hmem | hmem
    · exact absurd hmem hnone
    · obtain ⟨-, rfl⟩ : ctx = t.count ∧ pos = ⟨t.block, i⟩ := by simpa using hmem
      have hlt := (List.getElem?_eq_some_iff.1 hi).1
      simp [SlotTable.held, SlotTable.request, SlotTable.acquire, hlt]

/-- What an event starts: nothing, or the thread of the cleanup. -/
theorem watchdirEvent_jobs (queued : Bool) (s : Loader H) (evt : InotifyEvent) :
    (queued = false ∨ s.cleanupOf evt.name = none) ∧
        (watchdirEvent queued s evt).jobs = s.jobs ∧
        (watchdirEvent queued s evt).watchdog = evt.next ∨
      queued = true ∧ ∃ i ctx names, s.loaded[i]? = some (some ctx) ∧
        watchdirEvent queued s evt =
          { s with
            jobs := s.jobs ++ [.deinit ctx ⟨s.block, i⟩ names]
            watchdog := .join s.jobs.length evt } := by
  rw [watchdirEvent]
  cases hfind : s.findModule evt.name with
  | none =>
    refine .inl ⟨.inr ?_, rfl, rfl⟩
    rw [Loader.cleanupOf, hfind]
    rfl
  | some i =>
    obtain ⟨ctx, hctx⟩ := Loader.findModule_entry hfind
    rw [Loader.cleanupOf_eq hfind hctx]
    simp only [hctx, Option.join_some, modulesUnloadmod]
    cases s.ctxs[ctx]?.bind (·.dlsym.moduleCleanup) with
    | none => exact .inl ⟨.inr rfl, rfl, rfl⟩
    | some names =>
      cases queued with
      | false => exact .inl ⟨.inl rfl, rfl, rfl⟩
      | true => exact .inr ⟨rfl, i, ctx, names, hctx, rfl⟩

/-- The thread of a cleanup, started with nothing pending, is what the watchdog then joins. -/
theorem Loader.Serial.queued {i ctx : Nat} {names : List CString} {evt : InotifyEvent}
    (hs : s.Serial) (hinits : s.inits = 0) (hdeinits : s.deinits = 0) (hjoins : s.joins = 0)
    (hctx : s.loaded[i]? = some (some ctx)) :
    ({ s with
      jobs := s.jobs ++ [.deinit ctx ⟨s.block, i⟩ names]
      watchdog := .join s.jobs.length evt } : Loader H).Serial := by
  have hdrift := hs.drift
  have hinits' : (s.jobs ++ [Job.deinit ctx ⟨s.block, i⟩ names]).countP Job.isInit = 0 := by
    rw [List.countP_append, ← inits, hinits]
    rfl
  have hdeinits' : (s.jobs ++ [Job.deinit ctx ⟨s.block, i⟩ names]).countP Job.isDeinit = 1 := by
    rw [List.countP_append, ← deinits, hdeinits]
    rfl
  refine ⟨?_, ?_, ?_, ?_, hs.use⟩
  · show s.drift + ((1 : Nat) : Int) = _
    rw [deinits, hdeinits']
    omega
  · rw [inits, deinits, hinits', hdeinits']
  · rw [inits, hinits']
    exact Nat.le_refl 1
  · intro c pos hmem
    rw [table, List.map_append] at hmem
    rcases List.mem_append.1 hmem with hmem | hmem
    · exact absurd hmem (not_mem_pending hinits hdeinits)
    · obtain ⟨-, rfl⟩ : c = ctx ∧ pos = ⟨s.block, i⟩ := by
        simpa [Job.pending, Job.target, CtxPos.slotPos] using hmem
      simp [SlotTable.held, table, hctx]

/-- An event with nothing pending keeps the invariant if the thread of its cleanup is started. -/
theorem Loader.Serial.event {queued : Bool} {evt : InotifyEvent} (hs : s.Serial)
    (hidle : s.idle = true) (hkeeps : (LoaderAct.event queued evt).KeepsUse s) :
    (watchdirEvent queued s evt).Serial := by
  obtain ⟨hinits, hdeinits, hjoins⟩ := idle_iff.1 hidle
  have hdrift₀ := hs.drift
  rcases watchdirEvent_jobs queued s evt with ⟨hcleanup, hjobs, hwatchdog⟩ |
    ⟨rfl, i, ctx, names, hctx, heq⟩
  · have hnone : s.cleanupOf evt.name = none := by
      rcases hcleanup with rfl | hnone
      · exact hkeeps
      · exact hnone
    have hunloads : LoaderAct.unloads s (.event queued evt) = 0 := by
      cases queued <;> simp [LoaderAct.unloads, hnone]
    obtain ⟨hloaded, huse⟩ := @watchdirEvent_use _ s queued evt
    have hdrift : (watchdirEvent queued s evt).drift = s.drift := by
      rw [Loader.drift, Loader.drift, huse, hunloads, table, table, hloaded]
      exact congrArg _ (Int.sub_zero _)
    have hinits' : (watchdirEvent queued s evt).inits = 0 := by rwa [inits, hjobs]
    have hdeinits' : (watchdirEvent queued s evt).deinits = 0 := by rwa [deinits, hjobs]
    have hjoins' : (watchdirEvent queued s evt).joins = 0 := by
      rw [joins, hwatchdog, evt.isJoin_next]
      rfl
    have huse' := hs.use
    refine ⟨by omega, by omega, by omega, ?_, by rw [hloaded, huse, hunloads]; omega⟩
    exact fun ctx pos hmem => absurd hmem (not_mem_pending hinits' hdeinits')
  · rw [heq]
    exact hs.queued hinits hdeinits hjoins hctx

/-! ## The end of a job -/

/-- Only a job that has not ended can end. -/
theorem loaderStep_unfinished {act : LoaderAct H} {out : Option (LoggedCall H)}
    (hact : act = .finish j ∨ act = .fail j)
    (h : loaderStep modDir poolDetached s act = some (s', out)) (hjob : s.jobs[j]? = some job) :
    job.isFinished = false := by
  cases job with
  | init ctx ctxPos todo ret => rfl
  | deinit ctx ctxPos todo => rfl
  | finished error =>
    rcases hact with rfl | rfl
    · cases loaderStep_inv h with
      | finish hjob' hfinish =>
        cases hjob'.symm.trans hjob
        cases hfinish
    · cases loaderStep_inv h with
      | fail hjob' hfail =>
        cases hjob'.symm.trans hjob
        cases hfail

/-- The pending job is the only one: when it ends, nothing is pending. -/
theorem Loader.Serial.single_eq {jobs' : List (Job H)} {error : Bool} (hs : s.Serial)
    (hjob : s.jobs[j]? = some job) (hunfinished : job.isFinished = false)
    (hjobs' : jobs' = s.jobs.set j (.finished error)) :
    s.inits = (if job.isInit then 1 else 0) ∧ s.deinits = (if job.isDeinit then 1 else 0) ∧
      jobs'.countP Job.isInit = 0 ∧ jobs'.countP Job.isDeinit = 0 := by
  have hinits := countP_setJob Job.isInit (.finished error) hjob
  have hdeinits := countP_setJob Job.isDeinit (.finished error) hjob
  rw [← hjobs'] at hinits hdeinits
  have hsingle := hs.single
  rw [inits, deinits] at hsingle ⊢
  cases job with
  | init ctx ctxPos todo ret =>
    simp only [Job.isInit, Job.isDeinit, Bool.false_eq_true, if_true, if_false] at *
    omega
  | deinit ctx ctxPos todo =>
    simp only [Job.isInit, Job.isDeinit, Bool.false_eq_true, if_true, if_false] at *
    omega
  | finished error => cases hunfinished

/-- A job that closes its context clears an entry that is not `NULL`. -/
theorem Loader.Serial.clears_eq {act : LoaderAct H} (hs : s.Serial) (hjob : s.jobs[j]? = some job)
    (htarget : ∀ t, act.closes s = some t → job.target = some t) :
    act.clears s = if (act.closes s).isSome then 1 else 0 := by
  rw [LoaderAct.clears]
  cases hcloses : act.closes s with
  | none => rfl
  | some t =>
    have hheld := hs.held _ _ (mem_pending hjob (htarget t hcloses))
    have hentry : (s.entryAt t.2).isSome := hheld
    rw [Option.bind_some, if_pos hentry]
    rfl

/-- What is left when a job has ended: nothing is pending, and the drift has gone down by the entry
that was cleared. -/
theorem Loader.Serial.ends {act : LoaderAct H} {out : Option (LoggedCall H)} (hs : s.Serial)
    (hact : act = .finish j ∨ act = .fail j)
    (h : loaderStep modDir poolDetached s act = some (s', out)) (hjob : s.jobs[j]? = some job) :
    s'.inits = 0 ∧ s'.deinits = 0 ∧ s'.joins = s.joins ∧ s'.loadedUse = s.loadedUse ∧
      s.inits = (if job.isInit then 1 else 0) ∧ s.deinits = (if job.isDeinit then 1 else 0) ∧
      s'.drift + ((if (act.closes s).isSome then 1 else 0 : Nat) : Int) = s.drift := by
  obtain ⟨job', error, hjob', htarget, rfl⟩ := loaderStep_ends hact h
  cases hjob'.symm.trans hjob
  obtain ⟨hdrift, -⟩ := drift_ends hact h
  rw [hs.clears_eq hjob htarget] at hdrift
  have hunfinished := loaderStep_unfinished hact h hjob
  obtain ⟨hjobs, hwatchdog, huse⟩ :
      ((((act.closes s).map fun t => s.close t.1 t.2)).getD s).jobs = s.jobs ∧
      ((((act.closes s).map fun t => s.close t.1 t.2)).getD s).watchdog = s.watchdog ∧
      ((((act.closes s).map fun t => s.close t.1 t.2)).getD s).loadedUse = s.loadedUse := by
    cases act.closes s with
    | none => exact ⟨rfl, rfl, rfl⟩
    | some t =>
      obtain ⟨-, hjobs, hwatchdog⟩ := s.close_frame t.1 t.2
      exact ⟨hjobs, hwatchdog, (Loader.close_use t.1 t.2 s).1⟩
  obtain ⟨hinits, hdeinits, hinits', hdeinits'⟩ :=
    hs.single_eq hjob hunfinished (congrArg (·.set j (.finished error)) hjobs)
  refine ⟨hinits', hdeinits', ?_, huse, hinits, hdeinits, hdrift⟩
  rw [joins, joins]
  exact congrArg (if ·.isJoin then 1 else 0) hwatchdog

/-- The end of a job keeps the invariant if it is a cleanup or closes nothing. -/
theorem Loader.Serial.ended {act : LoaderAct H} {out : Option (LoggedCall H)} (hs : s.Serial)
    (hact : act = .finish j ∨ act = .fail j)
    (h : loaderStep modDir poolDetached s act = some (s', out)) (hjob : s.jobs[j]? = some job)
    (hcloses : (act.closes s).isSome = job.isDeinit) : s'.Serial := by
  obtain ⟨hinits', hdeinits', hjoins, huse, hinits, hdeinits, hdrift⟩ := hs.ends hact h hjob
  obtain ⟨-, hlen⟩ := drift_ends hact h
  have hdrift₀ := hs.drift
  have huse₀ := hs.use
  have hjoining := hs.joining
  rw [hcloses, ← hdeinits] at hdrift
  refine ⟨by omega, by omega, by omega, ?_, by omega⟩
  exact fun ctx pos hmem => absurd hmem (not_mem_pending hinits' hdeinits')

/-- A failed initialization leaves the counter one above the array. -/
theorem Loader.Serial.failed {act : LoaderAct H} {out : Option (LoggedCall H)} (hs : s.Serial)
    (hact : act = .finish j ∨ act = .fail j)
    (h : loaderStep modDir poolDetached s act = some (s', out)) (hjob : s.jobs[j]? = some job)
    (hinit : job.isInit = true) (hcloses : (act.closes s).isSome = true) :
    s'.idle = true ∧ ¬ s'.UseCounts := by
  obtain ⟨hinits', hdeinits', hjoins, -, hinits, hdeinits, hdrift⟩ := hs.ends hact h hjob
  have hdrift₀ := hs.drift
  have hsingle := hs.single
  have hjoining := hs.joining
  rw [if_pos hinit] at hinits
  rw [hcloses, if_pos rfl] at hdrift
  refine ⟨idle_iff.2 ⟨hinits', hdeinits', by omega⟩, fun hcounts => ?_⟩
  have := hcounts.drift_eq
  omega

/-! ## Runs -/

/-- A step that starts something finds nothing pending. -/
theorem serialStep_inv {act : LoaderAct H} {out : Option (LoggedCall H)}
    (h : serialStep modDir s act = some (s', out)) :
    loaderStep modDir poolDetached s act = some (s', out) ∧
      (act.starts = true → s.idle = true) := by
  rw [serialStep] at h
  split at h
  · cases h
  · next hguard => exact ⟨h, fun hstarts => by simpa [hstarts] using hguard⟩

/-- The watchdog that has joined the thread of a cleanup takes one off the counter. -/
theorem Loader.Serial.join {joined : Nat} {evt : InotifyEvent} (hs : s.Serial)
    (hwatchdog : s.watchdog = .join joined evt) :
    ({ s with loadedUse := s.loadedUse - 1, watchdog := evt.next } : Loader H).Serial := by
  have hjoins : s.joins = 1 := by
    rw [joins, hwatchdog]
    rfl
  have hdrift := hs.drift
  have huse : s.loadedUse - 1 < s.loaded.length := by
    have := hs.use
    omega
  have hnext : (if evt.next.isJoin then 1 else 0 : Nat) = 0 := by
    rw [evt.isJoin_next]
    rfl
  refine ⟨?_, hs.single, ?_, hs.held, huse⟩
  · show (s.table.occupied - (s.loadedUse - 1) : Int) +
      ((if evt.next.isJoin then 1 else 0 : Nat) : Int) = s.deinits
    rw [Loader.drift] at hdrift
    omega
  · show s.inits + (if evt.next.isJoin then 1 else 0) ≤ 1
    have := hs.joining
    omega

/-- A job that has made a call is still the same kind of job. -/
theorem Loader.Serial.call {r : Int} {cmds : CommandTree H} (hs : s.Serial)
    (hjob : s.jobs[j]? = some job) :
    ({ s.setJob j (job.afterCall r) with cmds := cmds } : Loader H).Serial := by
  have htable : (s.setJob j (job.afterCall r)).table = s.table := table_setJob_afterCall hjob
  have hcounts : ∀ p : Job H → Bool, p (job.afterCall r) = p job →
      (s.jobs.set j (job.afterCall r)).countP p = s.jobs.countP p := by
    intro p hp
    have := countP_setJob p (job.afterCall r) hjob
    rw [hp] at this
    omega
  have hinits : (s.setJob j (job.afterCall r)).inits = s.inits :=
    hcounts Job.isInit (by cases job <;> rfl)
  have hdeinits : (s.setJob j (job.afterCall r)).deinits = s.deinits :=
    hcounts Job.isDeinit (by cases job <;> rfl)
  refine ⟨?_, ?_, ?_, ?_, hs.use⟩
  · exact hs.drift.trans (congrArg _ hdeinits.symm)
  · exact hinits ▸ hdeinits ▸ hs.single
  · exact hinits ▸ hs.joining
  · exact htable ▸ hs.held

/-- A step that meets the condition keeps the invariant. -/
theorem Loader.Serial.step {act : LoaderAct H} {out : Option (LoggedCall H)} (hs : s.Serial)
    (hkeeps : act.KeepsUse s) (h : serialStep modDir s act = some (s', out)) : s'.Serial := by
  obtain ⟨h, hidle⟩ := serialStep_inv h
  cases loaderStep_inv h with
  | loadmod hload => exact (hs.loadmod (hidle rfl) hload).1
  | event hread => exact hs.event (hidle rfl) hkeeps
  | join hwatchdog hjoined => exact hs.join hwatchdog
  | @load _ sys s₁ hwatchdog hload =>
    obtain ⟨hs₁, hjoins⟩ := hs.loadmod (hidle rfl) hload
    have hdrift := hs₁.drift
    have hjoining := hs₁.joining
    rw [hjoins] at hdrift hjoining
    exact ⟨hdrift, hs₁.single, hjoining, hs₁.held, hs₁.use⟩
  | call hjob hop hcmds => exact hs.call hjob
  | @finish j job s₁ error hjob hfinish =>
    refine hs.ended (.inl rfl) h hjob ?_
    rw [LoaderAct.closes, hjob, Option.bind_some]
    rcases (Job.finish_cases hfinish).2.2.2 with ⟨ctx, ctxPos, ret, rfl, -⟩ | ⟨ctx, ctxPos, rfl⟩
    · rw [Job.closes, hkeeps ctx ctxPos ret hjob]
      rfl
    · rfl
  | @fail j job s₁ error hjob hfail =>
    refine hs.ended (.inr rfl) h hjob ?_
    rw [LoaderAct.closes, hjob, Option.bind_some]
    cases job with
    | init ctx ctxPos todo ret => exact absurd hjob (hkeeps ctx ctxPos todo ret)
    | deinit ctx ctxPos todo => rfl
    | finished error => cases hfail

/-- A step that does not meet the condition leaves nothing pending, and a counter that is wrong. -/
theorem Loader.Serial.breaks {act : LoaderAct H} {out : Option (LoggedCall H)} (hs : s.Serial)
    (hbreaks : ¬ act.KeepsUse s) (h : serialStep modDir s act = some (s', out)) :
    s'.idle = true ∧ ¬ s'.UseCounts := by
  obtain ⟨h, hidle⟩ := serialStep_inv h
  cases loaderStep_inv h with
  | @event queued evt hread =>
    cases queued with
    | true => exact absurd trivial hbreaks
    | false =>
      have hcounts := hs.useCounts (hidle rfl)
      have hcleanup : (s.cleanupOf evt.name).isSome = true :=
        Option.isSome_iff_ne_none.2 hbreaks
      obtain ⟨hloaded, huse⟩ := @watchdirEvent_use _ s false evt
      rw [LoaderAct.unloads, if_pos hcleanup] at huse
      rcases watchdirEvent_jobs false s evt with ⟨-, hjobs, hwatchdog⟩ | ⟨⟨⟩, -⟩
      refine ⟨?_, fun hcounts' => ?_⟩
      · rw [idle, hjobs, hwatchdog, evt.isJoin_next]
        have hidle' := hidle rfl
        rw [idle, Bool.and_eq_true] at hidle'
        rw [hidle'.1]
        rfl
      · have hthen := hcounts'.counts
        rw [huse, hloaded, hcounts.counts] at hthen
        omega
  | @finish j job s₁ error hjob hfinish =>
    obtain ⟨ctx, ctxPos, ret, hinit, hret⟩ :
        ∃ ctx ctxPos ret, s.jobs[j]? = some (.init ctx ctxPos [] ret) ∧ ret ≠ 0 := by
      simpa [LoaderAct.KeepsUse] using hbreaks
    cases hinit.symm.trans hjob
    refine hs.failed (.inl rfl) h hjob rfl ?_
    rw [LoaderAct.closes, hjob, Option.bind_some, Job.closes, if_pos hret]
    rfl
  | @fail j job s₁ error hjob hfail =>
    obtain ⟨ctx, ctxPos, todo, ret, hinit⟩ :
        ∃ ctx ctxPos todo ret, s.jobs[j]? = some (.init ctx ctxPos todo ret) := by
      simpa [LoaderAct.KeepsUse] using hbreaks
    cases hinit.symm.trans hjob
    refine hs.failed (.inr rfl) h hjob rfl ?_
    rw [LoaderAct.closes, hjob, Option.bind_some]
    rfl
  | _ => exact absurd trivial hbreaks

/-- In every run with one job at a time, `loaded_use` is the number of entries of `loaded` that are
not `NULL`, not negative and below `loaded_len`, whenever no job is pending, if and only if no
`module_init` fails and the thread of each cleanup is started. -/
theorem useCounts_iff (modDir : CString) (acts : List (LoaderAct H)) :
    EveryState (serialStep modDir) loaderInit acts (fun s => s.idle = true → s.UseCounts) ↔
      EachStep (serialStep modDir) loaderInit acts LoaderAct.KeepsUse := by
  refine everyState_iff_eachStep (I := Loader.Serial) (fun s hs => hs.useCounts)
    (fun s act s' out hs hkeeps hstep => hs.step hkeeps hstep) ?_ acts ?_
  · intro s act s' out hs hbreaks hstep hcounts
    obtain ⟨hidle, hwrong⟩ := hs.breaks hbreaks hstep
    exact hwrong (hcounts hidle)
  · have huse : (0 : Int) < 6 := by decide
    exact ⟨rfl, Nat.zero_le 1, Nat.zero_le 1, fun ctx pos hmem => (nomatch hmem), huse⟩

/-- The first module is loaded and its `module_init` fails: `loaded` is empty again, and
`loaded_use` stays at `1`. -/
theorem not_useCounts :
    ¬ EveryState (serialStep (H := Unit) (CString.lit "./")) loaderInit
        [.loadmod ⟨some ⟨[], some []⟩, some false, true, true⟩ (CString.lit "a.so"), .fail 0]
        (fun s => s.idle = true → s.UseCounts) := by
  intro h
  have hcounts := (h _ _ _ (List.prefix_refl _) rfl rfl).counts
  exact absurd hcounts (by decide)

end

end MinervaBot
