import Mathlib.Data.List.Induction
import MinervaBot.Lib.CString
import MinervaBot.Pool

/-!
# Waiting for the workers

Here a worker takes the steps of its own end one by one, and so does the thread that calls the pool:
`threadpool_waitall` sets bit 0 of `pool_flags`, passes over the slots, clears the bit and returns;
`threadpool_deinit` frees `pool` after that; `threadpool_queue_deinit` with `wait` calls
`pthread_join` after `pthread_create`. The threads are detached, so `pthread_join` waits for
nothing, and the bit keeps every worker that has not passed its loop on `pool_flags` from its last
access to `pool` until `threadpool_waitall` is over.

So a wait ends with all workers at their ends only if they get there on their own: those that
`threadpool_waitall` finds unfinished are past the loop and write before it returns, and the worker
of a waiting `threadpool_queue_deinit` makes all its steps before the `pthread_join`
(`barrierWorks_iff`).
-/

namespace MinervaBot

open Lib

/-- Where the thread that calls the pool is: outside, in `threadpool_waitall` before a slot, in
`threadpool_deinit` before or after `free(pool)`, or in the `pthread_join` of
`threadpool_queue_deinit`. -/
inductive PoolCaller where
  | ready
  | waitall (n : Nat) (deinit : Bool)
  | deinit
  | freed
  | join (job : Nat)
  deriving DecidableEq

/-- The pool and its caller. -/
structure PoolThreads where
  pool : Pool
  caller : PoolCaller
  deriving DecidableEq

/-- The state after `threadpool_init`. -/
def poolThreadsInit : PoolThreads where
  pool := threadpoolInit
  caller := .ready

/-- A step of the caller or of a worker. -/
inductive WaitAct where
  | queue (kind : WorkerKind) (sys : QueueSys)
  | queueDeinit (sys : QueueSys)
  | joined
  | waitallBegin (deinit : Bool)
  | waitallNext
  | waitallEnd
  | free
  | handlerEnd (job : Nat)
  | check (job : Nat)
  | write (job : Nat)

/-- A step of a worker. -/
def WaitAct.isWorker : WaitAct → Bool
  | .handlerEnd _ | .check _ | .write _ => true
  | _ => false

/-- The caller after a `threadpool_queue_deinit` with `wait`: in `pthread_join` if the thread was
created. -/
def joinNew (p p' : Pool) : PoolCaller :=
  if p'.jobs[p.jobs.length]?.any (·.phase = .handler) then .join p.jobs.length else .ready

/-- A worker goes from one phase to the next. -/
def Pool.advance (j : Nat) (old new : WorkerPhase) (p : Pool) : Option Pool :=
  p.jobs[j]?.bind fun job => if job.phase = old then some (p.setPhase j new) else none

/-- One step. There is no result when a worker writes to a pool that is freed. -/
def waitStep (s : PoolThreads) : WaitAct → Option (PoolThreads × Unit)
  | .queue kind sys =>
    match s.caller with
    | .ready => (threadpoolQueue kind sys s.pool).map fun p => ({ s with pool := p }, ())
    | _ => none
  | .queueDeinit sys =>
    match s.caller with
    | .ready => (threadpoolQueueDeinit sys s.pool).map fun p => (⟨p, joinNew s.pool p⟩, ())
    | _ => none
  | .joined =>
    match s.caller with
    | .join _ => some ({ s with caller := .ready }, ())
    | _ => none
  | .waitallBegin deinit =>
    match s.caller with
    | .ready =>
      some (⟨{ s.pool with poolFlags := s.pool.poolFlags ||| 1 }, .waitall 0 deinit⟩, ())
    | _ => none
  | .waitallNext =>
    match s.caller with
    | .waitall n deinit =>
      if n < s.pool.poolLen then
        (waitallSlot n s.pool).map fun p => (⟨p, .waitall (n + 1) deinit⟩, ())
      else none
    | _ => none
  | .waitallEnd =>
    match s.caller with
    | .waitall n deinit =>
      if n < s.pool.poolLen then none
      else
        some (⟨{ s.pool with poolFlags := s.pool.poolFlags ^^^ 1 },
          if deinit then .deinit else .ready⟩, ())
    | _ => none
  | .free =>
    match s.caller with
    | .deinit => some (⟨{ s.pool with poolLen := 8 }, .freed⟩, ())
    | _ => none
  | .handlerEnd j => (s.pool.advance j .handler .checking).map fun p => ({ s with pool := p }, ())
  | .check j =>
    if s.pool.poolFlags &&& 1 = 0 then
      (s.pool.advance j .checking .writing).map fun p => ({ s with pool := p }, ())
    else none
  | .write j =>
    if s.caller = .freed then none
    else
      s.pool.jobs[j]?.bind fun job =>
        ((s.pool.clearArgs job.n).advance j .writing .ended).map fun p => ({ s with pool := p }, ())

/-- All workers have executed their last access to `pool`. -/
def Pool.AllEnded (p : Pool) : Prop :=
  ∀ job ∈ p.jobs, job.unfinished = false

/-- What a wait is for, where it returns: `threadpool_waitall` has waited for all workers, and the
`pthread_join` for one. -/
def WaitAct.Waited (s : PoolThreads) : WaitAct → Prop
  | .waitallEnd => s.pool.AllEnded
  | .joined => ∀ j job, s.caller = .join j → s.pool.jobs[j]? = some job → job.unfinished = false
  | _ => True

/-- Every wait of a run returns after the last accesses to `pool` it was for, and when `pool` is
freed no worker will still access it. -/
def BarrierWorks (acts : List WaitAct) : Prop :=
  EachStep waitStep poolThreadsInit acts WaitAct.Waited ∧
    EveryState waitStep poolThreadsInit acts fun s => s.caller = .freed → s.pool.AllEnded

/-- The workers get to their ends on their own: those that `threadpool_waitall` finds unfinished are
past the loop on `pool_flags` and write before it returns, and the worker of a waiting
`threadpool_queue_deinit` writes before the `pthread_join`. -/
def WorkersFirst (acts : List WaitAct) : Prop :=
  (∀ (pre : List WaitAct) (deinit : Bool) (mid post : List WaitAct) (s : PoolThreads) (os : List Unit),
    acts = pre ++ WaitAct.waitallBegin deinit :: (mid ++ WaitAct.waitallEnd :: post) →
    WaitAct.waitallEnd ∉ mid → runSteps waitStep poolThreadsInit pre = some (s, os) →
    ∀ (j : Nat) (job : PoolJob), s.pool.jobs[j]? = some job → job.unfinished →
      job.phase = .writing ∧ WaitAct.write j ∈ mid) ∧
  ∀ (pre : List WaitAct) (sys : QueueSys) (mid post : List WaitAct) (s : PoolThreads)
    (os : List Unit), acts = pre ++ WaitAct.queueDeinit sys :: (mid ++ WaitAct.joined :: post) →
    (∀ act ∈ mid, act.isWorker) → runSteps waitStep poolThreadsInit pre = some (s, os) →
    WaitAct.write s.pool.jobs.length ∈ mid

/-! ## The steps -/

/-- The steps of `waitStep`, with what each needs. -/
inductive WaitStep (s : PoolThreads) : WaitAct → PoolThreads → Prop
  | queue {kind : WorkerKind} {sys : QueueSys} {pool : Pool} : s.caller = .ready →
      threadpoolQueue kind sys s.pool = some pool → WaitStep s (.queue kind sys) ⟨pool, .ready⟩
  | queueDeinit {sys : QueueSys} {pool : Pool} : s.caller = .ready →
      threadpoolQueueDeinit sys s.pool = some pool →
      WaitStep s (.queueDeinit sys) ⟨pool, joinNew s.pool pool⟩
  | joined {job : Nat} : s.caller = .join job → WaitStep s .joined ⟨s.pool, .ready⟩
  | waitallBegin {deinit : Bool} : s.caller = .ready → WaitStep s (.waitallBegin deinit)
      ⟨{ s.pool with poolFlags := s.pool.poolFlags ||| 1 }, .waitall 0 deinit⟩
  | waitallNext {n : Nat} {deinit : Bool} {pool : Pool} : s.caller = .waitall n deinit →
      waitallSlot n s.pool = some pool → WaitStep s .waitallNext ⟨pool, .waitall (n + 1) deinit⟩
  | waitallEnd {n : Nat} {deinit : Bool} : s.caller = .waitall n deinit → s.pool.poolLen ≤ n →
      WaitStep s .waitallEnd ⟨{ s.pool with poolFlags := s.pool.poolFlags ^^^ 1 },
        if deinit then .deinit else .ready⟩
  | free : s.caller = .deinit → WaitStep s .free ⟨{ s.pool with poolLen := 8 }, .freed⟩
  | handlerEnd {i : Nat} {pool : Pool} : s.pool.advance i .handler .checking = some pool →
      WaitStep s (.handlerEnd i) ⟨pool, s.caller⟩
  | check {i : Nat} {pool : Pool} : s.pool.poolFlags &&& 1 = 0 →
      s.pool.advance i .checking .writing = some pool → WaitStep s (.check i) ⟨pool, s.caller⟩
  | write {i n : Nat} {pool : Pool} : s.caller ≠ .freed →
      (s.pool.clearArgs n).advance i .writing .ended = some pool →
      WaitStep s (.write i) ⟨pool, s.caller⟩

/-- Every step of the function is one of these. -/
theorem waitStep_inv {s s' : PoolThreads} {a : WaitAct} {o : Unit}
    (h : waitStep s a = some (s', o)) : WaitStep s a s' := by
  cases a with
  | queue kind sys =>
    simp only [waitStep] at h
    split at h
    · next hc =>
      obtain ⟨p, hp, ⟨⟩⟩ := Option.map_eq_some_iff.1 h
      rw [hc]
      exact .queue hc hp
    · cases h
  | queueDeinit sys =>
    simp only [waitStep] at h
    split at h
    · next hc =>
      obtain ⟨p, hp, ⟨⟩⟩ := Option.map_eq_some_iff.1 h
      exact .queueDeinit hc hp
    · cases h
  | joined =>
    simp only [waitStep] at h
    split at h
    · next hc =>
      cases h
      exact .joined hc
    · cases h
  | waitallBegin deinit =>
    simp only [waitStep] at h
    split at h
    · next hc =>
      cases h
      exact .waitallBegin hc
    · cases h
  | waitallNext =>
    simp only [waitStep] at h
    split at h
    · next hc =>
      split at h
      · obtain ⟨p, hp, ⟨⟩⟩ := Option.map_eq_some_iff.1 h
        exact .waitallNext hc hp
      · cases h
    · cases h
  | waitallEnd =>
    simp only [waitStep] at h
    split at h
    · next hc =>
      split at h
      · cases h
      · next hlen =>
        cases h
        exact .waitallEnd hc (Nat.le_of_not_lt hlen)
    · cases h
  | free =>
    simp only [waitStep] at h
    split at h
    · next hc =>
      cases h
      exact .free hc
    · cases h
  | handlerEnd i =>
    obtain ⟨p, hp, ⟨⟩⟩ := Option.map_eq_some_iff.1 h
    exact .handlerEnd hp
  | check i =>
    simp only [waitStep] at h
    split at h
    · next hflags =>
      obtain ⟨p, hp, ⟨⟩⟩ := Option.map_eq_some_iff.1 h
      exact .check hflags hp
    · cases h
  | write i =>
    simp only [waitStep] at h
    split at h
    · cases h
    · next hfreed =>
      obtain ⟨job, -, h⟩ := Option.bind_eq_some_iff.1 h
      obtain ⟨p, hp, ⟨⟩⟩ := Option.map_eq_some_iff.1 h
      exact .write hfreed hp

/-! ## The phases of the workers -/

/-- The phase of a job. -/
def Pool.phase (p : Pool) (j : Nat) : Option WorkerPhase :=
  p.jobs[j]?.map (·.phase)

/-- The phase of job `j` after a step. -/
def WaitAct.nextPhase (j : Nat) (phase : WorkerPhase) : WaitAct → WorkerPhase
  | .handlerEnd i => if i = j then .checking else phase
  | .check i => if i = j then .writing else phase
  | .write i => if i = j then .ended else phase
  | _ => phase

/-- What a worker's step needs. -/
def WaitAct.Enabled (p : Pool) (j : Nat) (phase : WorkerPhase) : WaitAct → Prop
  | .handlerEnd i => i = j → phase = .handler
  | .check i => i = j → phase = .checking ∧ p.poolFlags &&& 1 = 0
  | .write i => i = j → phase = .writing
  | _ => True

section
variable {p p' : Pool} {s s' : PoolThreads} {j : Nat} {ph : WorkerPhase} {a : WaitAct}

/-- A job is unfinished by its phase. -/
theorem unfinished_iff {job : PoolJob} :
    job.unfinished = true ↔ job.phase ≠ .ended ∧ job.phase ≠ .unborn := by
  simp [PoolJob.unfinished]

/-- A worker goes on. -/
theorem Pool.advance_spec {old new : WorkerPhase} (h : p.advance j old new = some p') :
    p.phase j = some old ∧ (∀ i, p'.phase i = if j = i then some new else p.phase i) ∧
      p'.poolFlags = p.poolFlags ∧ p'.jobs.length = p.jobs.length ∧ p'.poolLen = p.poolLen := by
  obtain ⟨job, hj, hp⟩ := Option.bind_eq_some_iff.1 h
  split at hp
  · next hold =>
    cases hp
    refine ⟨by rw [Pool.phase, hj, ← hold]; rfl, fun i => ?_, rfl, by simp [setPhase], rfl⟩
    simp only [phase, setPhase, List.getElem?_modify]
    by_cases hi : j = i
    · subst hi
      simp [hj]
    · cases p.jobs[i]? <;> simp [hi]
  · cases hp

/-- A queueing function adds at most one block. -/
theorem threadpoolQueue_jobs {kind : WorkerKind} {sys : QueueSys}
    (h : threadpoolQueue kind sys p = some p') :
    p'.jobs = p.jobs ∨ ∃ job : PoolJob, p'.jobs = p.jobs ++ [job] := by
  obtain ⟨⟨p₁, r⟩, hfind, rfl⟩ := Option.map_eq_some_iff.1 h
  have hjobs : p₁.jobs = p.jobs := by
    obtain ⟨n, -, hr⟩ := Option.map_eq_some_iff.1 hfind
    split at hr
    · split at hr <;> · cases hr; rfl
    · cases hr; rfl
  cases r with
  | none => exact .inl hjobs
  | some n =>
    simp only
    split
    · exact .inr ⟨_, by rw [Pool.start, hjobs]⟩
    · exact .inl hjobs

/-- A queueing function leaves the phases. -/
theorem threadpoolQueue_phase {kind : WorkerKind} {sys : QueueSys}
    (h : threadpoolQueue kind sys p = some p') (hj : p.phase j = some ph) :
    p'.phase j = some ph := by
  rcases threadpoolQueue_jobs h with hjobs | ⟨job, hjobs⟩
  · rw [Pool.phase, hjobs]
    exact hj
  · obtain ⟨a, ha, -⟩ := Option.map_eq_some_iff.1 hj
    rw [Pool.phase, hjobs, List.getElem?_append_left (List.getElem?_eq_some_iff.1 ha).1]
    exact hj

/-- The phase of a job over a worker's step. -/
theorem Pool.advance_phase {i : Nat} {old new : WorkerPhase} (h : p.advance i old new = some p')
    (hj : p.phase j = some ph) :
    (i = j → ph = old) ∧ p'.phase j = some (if i = j then new else ph) := by
  obtain ⟨hold, hnew, -⟩ := advance_spec h
  refine ⟨fun hi => ?_, ?_⟩
  · rw [hi, hj] at hold
    exact Option.some.inj hold
  · rw [hnew, hj]
    split <;> rfl

/-- What a step does to the phase of a job. -/
theorem waitStep_phase {o : Unit} (h : waitStep s a = some (s', o)) (hj : s.pool.phase j = some ph) :
    a.Enabled s.pool j ph ∧ s'.pool.phase j = some (a.nextPhase j ph) := by
  cases waitStep_inv h with
  | queue _ hp | queueDeinit _ hp => exact ⟨trivial, threadpoolQueue_phase hp hj⟩
  | joined | waitallBegin | waitallEnd | free => exact ⟨trivial, hj⟩
  | waitallNext _ hp =>
    refine ⟨trivial, ?_⟩
    rw [Pool.phase, (waitallSlot_spec hp).1]
    exact hj
  | handlerEnd hp => exact Pool.advance_phase hp hj
  | check hflags hp =>
    obtain ⟨hold, hnew⟩ := Pool.advance_phase hp hj
    exact ⟨fun hi => ⟨hold hi, hflags⟩, hnew⟩
  | write _ hp => exact Pool.advance_phase hp hj

/-- A phase before the last access to `pool`. -/
def WorkerPhase.Open (ph : WorkerPhase) : Prop :=
  ph ≠ .ended ∧ ph ≠ .unborn

/-- A phase that is over stays. -/
theorem WaitAct.nextPhase_of_not_open (h : a.Enabled p j ph) (hph : ¬ ph.Open) :
    a.nextPhase j ph = ph := by
  have hno : ph ≠ .handler ∧ ph ≠ .checking ∧ ph ≠ .writing := by
    refine ⟨?_, ?_, ?_⟩ <;> · rintro rfl; exact hph ⟨by decide, by decide⟩
  cases a with
  | handlerEnd i => exact if_neg fun hi => hno.1 (h hi)
  | check i => exact if_neg fun hi => hno.2.1 (h hi).1
  | write i => exact if_neg fun hi => hno.2.2 (h hi)
  | _ => rfl

/-- Only its write ends an open phase. -/
theorem WaitAct.nextPhase_open (ha : a ≠ .write j) (hph : ph.Open) : (a.nextPhase j ph).Open := by
  cases a with
  | handlerEnd i =>
    rw [nextPhase]
    split
    · exact ⟨by decide, by decide⟩
    · exact hph
  | check i =>
    rw [nextPhase]
    split
    · exact ⟨by decide, by decide⟩
    · exact hph
  | write i =>
    rw [nextPhase, if_neg fun hi => ha (by rw [hi])]
    exact hph
  | _ => exact hph

/-- A run over the end of a worker. -/
theorem waitRun_not_open (hph : ¬ ph.Open) : ∀ {mid : List WaitAct}
    {s : PoolThreads} {os : List Unit}, runSteps waitStep s mid = some (s', os) →
      s.pool.phase j = some ph → s'.pool.phase j = some ph
  | [], s, os, hrun, hj => by
    cases hrun
    exact hj
  | a :: mid, s, os, hrun, hj => by
    obtain ⟨s₁, o, os', hs, hrest, rfl⟩ := runSteps_cons_inv hrun
    obtain ⟨henabled, hj₁⟩ := waitStep_phase hs hj
    rw [WaitAct.nextPhase_of_not_open henabled hph] at hj₁
    exact waitRun_not_open hph hrest hj₁

/-- In a run a worker gets to its end if the run has its write. -/
theorem waitRun_open : ∀ {mid : List WaitAct} {s : PoolThreads} {ph : WorkerPhase} {os : List Unit},
    runSteps waitStep s mid = some (s', os) → s.pool.phase j = some ph → ph.Open →
      ∃ ph', s'.pool.phase j = some ph' ∧ (ph'.Open ↔ .write j ∉ mid)
  | [], s, ph, os, hrun, hj, hph => by
    cases hrun
    exact ⟨ph, hj, by simp [hph]⟩
  | a :: mid, s, ph, os, hrun, hj, hph => by
    obtain ⟨s₁, o, os', hs, hrest, rfl⟩ := runSteps_cons_inv hrun
    obtain ⟨-, hj₁⟩ := waitStep_phase hs hj
    by_cases ha : a = .write j
    · subst ha
      rw [WaitAct.nextPhase, if_pos rfl] at hj₁
      have hended : ¬ WorkerPhase.ended.Open := fun h => h.1 rfl
      exact ⟨.ended, waitRun_not_open hended hrest hj₁, by simp [hended]⟩
    · obtain ⟨ph', hj', hiff⟩ := waitRun_open hrest hj₁ (WaitAct.nextPhase_open ha hph)
      refine ⟨ph', hj', hiff.trans ?_⟩
      rw [List.mem_cons, not_or]
      exact ⟨fun h => ⟨fun h' => ha h'.symm, h⟩, fun h => h.2⟩

/-! ## In `threadpool_waitall` -/

/-- The thread is in `threadpool_waitall`, and bit 0 of `pool_flags` is set. -/
def PoolThreads.InWaitall (deinit : Bool) (s : PoolThreads) : Prop :=
  s.pool.poolFlags &&& 1 ≠ 0 ∧ ∃ n, s.caller = .waitall n deinit

/-- Setting bit 0. -/
theorem flags_set (x : UInt8) : (x ||| 1) &&& 1 ≠ 0 := by
  have hall : ∀ x : UInt8, (x ||| 1) &&& 1 ≠ 0 := forall_byte (by decide +kernel)
  exact hall x

/-- A step of a worker leaves the caller, the flags and the number of jobs. -/
theorem waitStep_worker {o : Unit} (ha : a.isWorker) (h : waitStep s a = some (s', o)) :
    s'.caller = s.caller ∧ s'.pool.poolFlags = s.pool.poolFlags ∧
      s'.pool.jobs.length = s.pool.jobs.length := by
  cases waitStep_inv h with
  | handlerEnd hp | check _ hp | write _ hp =>
    obtain ⟨-, -, hflags, hlen, -⟩ := Pool.advance_spec hp
    exact ⟨rfl, hflags, hlen⟩
  | _ => cases ha

/-- A step while the thread is in `threadpool_waitall`, other than its return. -/
theorem waitStep_inWaitall {o : Unit} {deinit : Bool} (hs : s.InWaitall deinit)
    (ha : a ≠ .waitallEnd) (h : waitStep s a = some (s', o)) :
    s'.InWaitall deinit ∧ s'.pool.jobs.length = s.pool.jobs.length := by
  obtain ⟨hflags, n, hcaller⟩ := hs
  by_cases hworker : a.isWorker
  · obtain ⟨hcaller', hflags', hlen⟩ := waitStep_worker hworker h
    exact ⟨⟨hflags'.symm ▸ hflags, n, hcaller'.trans hcaller⟩, hlen⟩
  · cases waitStep_inv h with
    | waitallNext hc hp =>
      cases hcaller.symm.trans hc
      obtain ⟨w, -, hw⟩ := Option.map_eq_some_iff.1 hp
      refine ⟨⟨?_, n + 1, rfl⟩, by rw [(waitallSlot_spec hp).1]⟩
      split at hw <;> · cases hw; exact hflags
    | waitallEnd => exact absurd rfl ha
    | handlerEnd | check | write => exact absurd rfl hworker
    | queue hc | queueDeinit hc | joined hc | waitallBegin hc | free hc =>
      cases hcaller.symm.trans hc

/-- While bit 0 is set, only a worker that writes already is past the loop after a step. -/
theorem WaitAct.writing_of_nextPhase (hflags : p.poolFlags &&& 1 ≠ 0) (henabled : a.Enabled p j ph)
    (h : a.nextPhase j ph = .writing) : ph = .writing := by
  cases a with
  | handlerEnd i =>
    rw [nextPhase] at h
    split at h
    · cases h
    · exact h
  | check i =>
    rw [nextPhase] at h
    split at h
    · next hi => exact absurd (henabled hi).2 hflags
    · exact h
  | write i =>
    rw [nextPhase] at h
    split at h
    · cases h
    · exact h
  | _ => exact h

/-- A run inside `threadpool_waitall` adds no job, and only the workers that write already get to
their ends. -/
theorem waitRun_inWaitall {deinit : Bool} : ∀ {mid : List WaitAct} {s : PoolThreads}
    {os : List Unit}, s.InWaitall deinit → .waitallEnd ∉ mid →
      runSteps waitStep s mid = some (s', os) →
        s'.pool.jobs.length = s.pool.jobs.length ∧
          ∀ j ph, s.pool.phase j = some ph → ph.Open → .write j ∈ mid → ph = .writing
  | [], s, os, _, _, hrun => by
    cases hrun
    exact ⟨rfl, fun j ph _ _ hj => nomatch hj⟩
  | a :: mid, s, os, hs, hmid, hrun => by
    obtain ⟨s₁, o, os', hstep, hrest, rfl⟩ := runSteps_cons_inv hrun
    rw [List.mem_cons, not_or] at hmid
    obtain ⟨hs₁, hlen₁⟩ := waitStep_inWaitall hs (Ne.symm hmid.1) hstep
    obtain ⟨hlen, hwriting⟩ := waitRun_inWaitall hs₁ hmid.2 hrest
    refine ⟨hlen.trans hlen₁, fun j ph hj hph hmem => ?_⟩
    obtain ⟨henabled, hj₁⟩ := waitStep_phase hstep hj
    by_cases ha : a = .write j
    · subst ha
      exact henabled rfl
    · have hmem' := (List.mem_cons.1 hmem).resolve_left (Ne.symm ha)
      have hnext := hwriting j _ hj₁ (WaitAct.nextPhase_open ha hph) hmem'
      exact WaitAct.writing_of_nextPhase hs.1 henabled hnext

/-! ## Where the caller comes from -/

/-- `pool_flags |= 1`. -/
theorem waitStep_waitallBegin {deinit : Bool} {o : Unit}
    (h : waitStep s (.waitallBegin deinit) = some (s', o)) :
    s'.InWaitall deinit ∧ s'.pool.jobs = s.pool.jobs := by
  cases waitStep_inv h with
  | waitallBegin => exact ⟨⟨flags_set _, 0, rfl⟩, rfl⟩

/-- `threadpool_queue_deinit` goes on to its `pthread_join` for the worker it has created. -/
theorem joinNew_cases (p p' : Pool) :
    joinNew p p' = .ready ∨
      joinNew p p' = .join p.jobs.length ∧ p'.phase p.jobs.length = some .handler := by
  rw [joinNew]
  split
  · next hany =>
    refine .inr ⟨rfl, ?_⟩
    obtain ⟨job, hjob, hphase⟩ := (Option.any_eq_true _ _).1 hany
    rw [Pool.phase, hjob, ← of_decide_eq_true hphase]
    rfl
  · exact .inl rfl

/-- The same for the step. -/
theorem waitStep_queueDeinit {sys : QueueSys} {o : Unit}
    (h : waitStep s (.queueDeinit sys) = some (s', o)) :
    s'.caller = .ready ∨
      s'.caller = .join s.pool.jobs.length ∧
        s'.pool.phase s.pool.jobs.length = some .handler := by
  cases waitStep_inv h with
  | queueDeinit => exact joinNew_cases _ _

/-- What the steps do to the caller, where `jobs` is the number of the next job. -/
inductive CallerStep (jobs : Nat) : PoolCaller → WaitAct → PoolCaller → Prop
  | worker : act.isWorker = true → CallerStep jobs caller act caller
  | queue : CallerStep jobs .ready (.queue kind sys) .ready
  | notCreated : CallerStep jobs .ready (.queueDeinit sys) .ready
  | join : CallerStep jobs .ready (.queueDeinit sys) (.join jobs)
  | joined : CallerStep jobs (.join job) .joined .ready
  | begin : CallerStep jobs .ready (.waitallBegin deinit) (.waitall 0 deinit)
  | next : CallerStep jobs (.waitall n deinit) .waitallNext (.waitall (n + 1) deinit)
  | returned : CallerStep jobs (.waitall n false) .waitallEnd .ready
  | returnedDeinit : CallerStep jobs (.waitall n true) .waitallEnd .deinit
  | free : CallerStep jobs .deinit .free .freed

/-- Every step is one of these for the caller. -/
theorem waitStep_callerStep {o : Unit} (h : waitStep s a = some (s', o)) :
    CallerStep s.pool.jobs.length s.caller a s'.caller := by
  cases waitStep_inv h with
  | queue hc =>
    rw [hc]
    exact .queue
  | queueDeinit hc =>
    rw [hc]
    rcases joinNew_cases s.pool _ with hready | ⟨hjoin, -⟩
    · rw [hready]
      exact .notCreated
    · rw [hjoin]
      exact .join
  | joined hc =>
    rw [hc]
    exact .joined
  | waitallBegin hc =>
    rw [hc]
    exact .begin
  | waitallNext hc =>
    rw [hc]
    exact .next
  | @waitallEnd _ deinit hc =>
    rw [hc]
    cases deinit with
    | false => exact .returned
    | true => exact .returnedDeinit
  | free hc =>
    rw [hc]
    exact .free
  | handlerEnd | check | write => exact .worker rfl

/-! ## The waits of a run -/

/-- A run that ends in `threadpool_waitall` has its call, and its return is not after that.
Induction from the end. -/
theorem waitRun_to_waitall {deinit : Bool} (acts : List WaitAct) : ∀ {s : PoolThreads} {n : Nat}
    {os : List Unit}, runSteps waitStep poolThreadsInit acts = some (s, os) →
      s.caller = .waitall n deinit →
        ∃ pre mid, acts = pre ++ .waitallBegin deinit :: mid ∧ .waitallEnd ∉ mid := by
  induction acts using List.reverseRecOn with
  | nil =>
    intro s n os hrun hc
    cases hrun
    cases hc
  | append_singleton acts a ih =>
    intro s n os hrun hc
    obtain ⟨s₁, os', o, hrun', hstep⟩ := runSteps_concat_inv hrun
    have hcaller := waitStep_callerStep hstep
    rw [hc] at hcaller
    have hearlier : ∀ m, s₁.caller = .waitall m deinit → a ≠ .waitallEnd →
        ∃ pre mid, acts ++ [a] = pre ++ .waitallBegin deinit :: mid ∧ .waitallEnd ∉ mid := by
      intro m hm ha
      obtain ⟨pre, mid, rfl, hmid⟩ := ih hrun' hm
      refine ⟨pre, mid ++ [a], by simp, fun hmem => ?_⟩
      rcases List.mem_append.1 hmem with h | h
      · exact hmid h
      · exact ha (List.mem_singleton.1 h).symm
    generalize hc₁ : s₁.caller = c₁ at hcaller
    cases hcaller with
    | worker hworker =>
      refine hearlier n hc₁ ?_
      rintro rfl
      cases hworker
    | begin => exact ⟨acts, [], rfl, nofun⟩
    | next => exact hearlier _ hc₁ nofun

/-- A run that ends in the `pthread_join` of `threadpool_queue_deinit` has its call, and only steps
of workers after that. Induction from the end. -/
theorem waitRun_to_join (acts : List WaitAct) : ∀ {s : PoolThreads} {os : List Unit},
    runSteps waitStep poolThreadsInit acts = some (s, os) → s.caller = .join j →
      ∃ pre sys mid s₀ os₀, acts = pre ++ .queueDeinit sys :: mid ∧ (∀ a ∈ mid, a.isWorker) ∧
        runSteps waitStep poolThreadsInit pre = some (s₀, os₀) ∧ j = s₀.pool.jobs.length := by
  induction acts using List.reverseRecOn with
  | nil =>
    intro s os hrun hc
    cases hrun
    cases hc
  | append_singleton acts a ih =>
    intro s os hrun hc
    obtain ⟨s₁, os', o, hrun', hstep⟩ := runSteps_concat_inv hrun
    have hcaller := waitStep_callerStep hstep
    rw [hc] at hcaller
    generalize hc₁ : s₁.caller = c₁ at hcaller
    cases hcaller with
    | worker hworker =>
      obtain ⟨pre, sys, mid, s₀, os₀, rfl, hmid, hpre, hj⟩ := ih hrun' hc₁
      refine ⟨pre, sys, mid ++ [a], s₀, os₀, by simp, fun b hb => ?_, hpre, hj⟩
      rcases List.mem_append.1 hb with h | h
      · exact hmid b h
      · rw [List.mem_singleton.1 h]
        exact hworker
    | join => exact ⟨acts, _, [], s₁, os', rfl, nofun, hrun', rfl⟩

/-- All workers are at their ends if no phase is open. -/
theorem Pool.allEnded_iff : p.AllEnded ↔ ∀ j ph, p.phase j = some ph → ¬ ph.Open := by
  constructor
  · intro h j ph hj hopen
    obtain ⟨job, hjob, rfl⟩ := Option.map_eq_some_iff.1 hj
    have hdone := h job (List.mem_of_getElem? hjob)
    rw [unfinished_iff.2 hopen] at hdone
    cases hdone
  · intro h job hjob
    obtain ⟨j, hj⟩ := List.mem_iff_getElem?.1 hjob
    have hclosed := h j job.phase (by rw [Pool.phase, hj]; rfl)
    rw [← Bool.not_eq_true]
    exact fun hu => hclosed (unfinished_iff.1 hu)

/-- A job that is there has a phase. -/
theorem Pool.phase_of_lt (h : j < p.jobs.length) : ∃ ph, p.phase j = some ph :=
  ⟨_, by rw [phase, List.getElem?_eq_getElem h]; rfl⟩

/-- `threadpool_waitall` returns with all workers at their ends if and only if those it finds
unfinished are past the loop and write before it returns. -/
theorem waitall_allEnded_iff {deinit : Bool} {mid : List WaitAct} {s₀ s₁ s₂ : PoolThreads} {o : Unit}
    {os : List Unit} (hbegin : waitStep s₀ (.waitallBegin deinit) = some (s₁, o))
    (hmid : .waitallEnd ∉ mid) (hrun : runSteps waitStep s₁ mid = some (s₂, os)) :
    s₂.pool.AllEnded ↔ ∀ j job, s₀.pool.jobs[j]? = some job → job.unfinished →
      job.phase = .writing ∧ .write j ∈ mid := by
  obtain ⟨hin, hjobs⟩ := waitStep_waitallBegin hbegin
  obtain ⟨hlen, hwriting⟩ := waitRun_inWaitall hin hmid hrun
  rw [Pool.allEnded_iff]
  constructor
  · intro hended j job hj hu
    have hph : s₁.pool.phase j = some job.phase := by
      rw [Pool.phase, hjobs, hj]
      rfl
    have hopen := unfinished_iff.1 hu
    obtain ⟨ph', hj', hiff⟩ := waitRun_open hrun hph hopen
    have hmem : .write j ∈ mid := by
      by_contra hno
      exact hended j ph' hj' (hiff.2 hno)
    exact ⟨hwriting j _ hph hopen hmem, hmem⟩
  · intro hfirst j ph' hj' hopen'
    have hlt : j < s₁.pool.jobs.length := by
      obtain ⟨job, hjob, -⟩ := Option.map_eq_some_iff.1 hj'
      exact hlen ▸ (List.getElem?_eq_some_iff.1 hjob).1
    obtain ⟨ph, hj⟩ := Pool.phase_of_lt hlt
    by_cases hopen : ph.Open
    · obtain ⟨job, hjob, rfl⟩ := Option.map_eq_some_iff.1 hj
      obtain ⟨-, hmem⟩ := hfirst j job (hjobs ▸ hjob) (unfinished_iff.2 hopen)
      obtain ⟨ph₂, hj₂, hiff⟩ := waitRun_open hrun hj hopen
      obtain rfl := Option.some.inj (hj₂.symm.trans hj')
      exact hiff.1 hopen' hmem
    · obtain rfl := Option.some.inj ((waitRun_not_open hopen hrun hj).symm.trans hj')
      exact hopen hopen'

/-- The `pthread_join` of `threadpool_queue_deinit` returns after the end of its worker if and only
if this writes before. -/
theorem joined_ended_iff {sys : QueueSys} {mid : List WaitAct} {s₀ s₁ s₂ : PoolThreads} {o : Unit}
    {os : List Unit} (hqueue : waitStep s₀ (.queueDeinit sys) = some (s₁, o))
    (hc : s₁.caller = .join s₀.pool.jobs.length) (hrun : runSteps waitStep s₁ mid = some (s₂, os)) :
    (∀ job, s₂.pool.jobs[s₀.pool.jobs.length]? = some job → job.unfinished = false) ↔
      .write s₀.pool.jobs.length ∈ mid := by
  obtain hready | ⟨-, hph⟩ := waitStep_queueDeinit hqueue
  · cases hready.symm.trans hc
  · obtain ⟨ph', hj', hiff⟩ := waitRun_open hrun hph ⟨nofun, nofun⟩
    obtain ⟨job, hjob, rfl⟩ := Option.map_eq_some_iff.1 hj'
    have hopen : job.unfinished = true ↔ job.phase.Open := unfinished_iff
    rw [← not_iff_not, ← hiff, ← hopen]
    simp [hjob]

/-- Steps of workers leave the caller. -/
theorem waitRun_worker : ∀ {mid : List WaitAct} {s : PoolThreads} {os : List Unit},
    (∀ a ∈ mid, a.isWorker) → runSteps waitStep s mid = some (s', os) → s'.caller = s.caller
  | [], s, os, _, hrun => by
    cases hrun
    rfl
  | a :: mid, s, os, hmid, hrun => by
    obtain ⟨s₁, o, os', hstep, hrest, rfl⟩ := runSteps_cons_inv hrun
    rw [waitRun_worker (fun b hb => hmid b (.tail _ hb)) hrest,
      (waitStep_worker (hmid a (.head _)) hstep).1]

/-- `threadpool_waitall` returns only where it was called, and leaves the jobs. -/
theorem waitStep_waitallEnd {o : Unit} (h : waitStep s .waitallEnd = some (s', o)) :
    (∃ n deinit, s.caller = .waitall n deinit) ∧ s'.pool.jobs = s.pool.jobs := by
  cases waitStep_inv h with
  | waitallEnd hc => exact ⟨⟨_, _, hc⟩, rfl⟩

/-- A `pthread_join` returns only where it was called. -/
theorem waitStep_joined {o : Unit} (h : waitStep s .joined = some (s', o)) :
    ∃ j, s.caller = .join j := by
  cases waitStep_inv h with
  | joined hc => exact ⟨_, hc⟩

/-- `free(pool)` leaves the jobs. -/
theorem waitStep_free {o : Unit} (h : waitStep s .free = some (s', o)) :
    s'.pool.jobs = s.pool.jobs := by
  cases waitStep_inv h with
  | free => rfl

/-- If the workers are first, every wait returns after what it was for. -/
theorem WorkersFirst.waited {acts : List WaitAct} (hfirst : WorkersFirst acts) :
    EachStep waitStep poolThreadsInit acts WaitAct.Waited := by
  rintro pre a s₁ os s₂ o ⟨post, rfl⟩ hpre hstep
  cases a with
  | waitallEnd =>
    obtain ⟨⟨n, deinit, hc⟩, -⟩ := waitStep_waitallEnd hstep
    obtain ⟨begun, mid, rfl, hmid⟩ := waitRun_to_waitall pre hpre hc
    obtain ⟨s₀, os₀, os', hbegun, hrest⟩ := runSteps_append_inv hpre
    obtain ⟨s', o', os'', hbegin, hrun, -⟩ := runSteps_cons_inv hrest
    refine (waitall_allEnded_iff hbegin hmid hrun).2 ?_
    exact hfirst.1 begun deinit mid post s₀ os₀ (by simp) hmid hbegun
  | joined =>
    intro j job hc hjob
    obtain ⟨begun, sys, mid, s₀, os₀, rfl, hmid, hbegun, rfl⟩ := waitRun_to_join pre hpre hc
    obtain ⟨s₀', os₀', os', hbegun', hrest⟩ := runSteps_append_inv hpre
    obtain ⟨rfl, -⟩ := Prod.mk.inj (Option.some.inj (hbegun'.symm.trans hbegun))
    obtain ⟨s', o', os'', hqueue, hrun, -⟩ := runSteps_cons_inv hrest
    have hc' : s'.caller = .join s₀'.pool.jobs.length := (waitRun_worker hmid hrun).symm.trans hc
    have hmem := hfirst.2 begun sys mid post s₀' os₀' (by simp) hmid hbegun'
    exact (joined_ended_iff hqueue hc' hrun).2 hmem job hjob
  | _ => trivial

/-- If every wait of a run returns after what it was for, the workers are first. -/
theorem workersFirst_of_waited {acts : List WaitAct} {os : List Unit}
    (hrun : runSteps waitStep poolThreadsInit acts = some (s, os))
    (hwaited : EachStep waitStep poolThreadsInit acts WaitAct.Waited) : WorkersFirst acts := by
  constructor
  · rintro pre deinit mid post s₀ os₀ rfl hmid hpre
    obtain ⟨s₀', os₁, os₂, hpre', hrest⟩ := runSteps_append_inv hrun
    obtain ⟨rfl, -⟩ := Prod.mk.inj (Option.some.inj (hpre'.symm.trans hpre))
    obtain ⟨s₁, o, os₃, hbegin, hrest', -⟩ := runSteps_cons_inv hrest
    obtain ⟨s₂, os₄, os₅, hmidrun, hend⟩ := runSteps_append_inv hrest'
    obtain ⟨s₃, o', -, hstep, -, -⟩ := runSteps_cons_inv hend
    refine (waitall_allEnded_iff hbegin hmid hmidrun).1 ?_
    have hlast := runSteps_append (runSteps_cons hbegin hmidrun) hpre'
    exact hwaited _ _ _ _ _ _ ⟨post, by simp⟩ hlast hstep
  · rintro pre sys mid post s₀ os₀ rfl hmid hpre
    obtain ⟨s₀', os₁, os₂, hpre', hrest⟩ := runSteps_append_inv hrun
    obtain ⟨rfl, -⟩ := Prod.mk.inj (Option.some.inj (hpre'.symm.trans hpre))
    obtain ⟨s₁, o, os₃, hqueue, hrest', -⟩ := runSteps_cons_inv hrest
    obtain ⟨s₂, os₄, os₅, hmidrun, hend⟩ := runSteps_append_inv hrest'
    obtain ⟨s₃, o', -, hstep, -, -⟩ := runSteps_cons_inv hend
    obtain ⟨j, hj⟩ := waitStep_joined hstep
    have hc : s₁.caller = .join s₀'.pool.jobs.length := by
      rcases waitStep_queueDeinit hqueue with hready | ⟨hjoin, -⟩
      · rw [waitRun_worker hmid hmidrun, hready] at hj
        cases hj
      · exact hjoin
    have hlast := runSteps_append (runSteps_cons hqueue hmidrun) hpre'
    have hdone := hwaited _ _ _ _ _ _ ⟨post, by simp⟩ hlast hstep
    refine (joined_ended_iff hqueue hc hmidrun).1 fun job => ?_
    exact hdone _ job ((waitRun_worker hmid hmidrun).trans hc)

/-- The thread is in `threadpool_deinit` after `threadpool_waitall`, or `pool` is freed. -/
def PoolCaller.deiniting (c : PoolCaller) : Prop :=
  c = .deinit ∨ c = .freed

/-- Workers at their ends stay there. -/
theorem waitStep_allEnded {o : Unit} (hlen : s'.pool.jobs.length = s.pool.jobs.length)
    (hended : s.pool.AllEnded) (h : waitStep s a = some (s', o)) : s'.pool.AllEnded := by
  rw [Pool.allEnded_iff] at hended ⊢
  intro j ph' hj'
  obtain ⟨job, hjob, -⟩ := Option.map_eq_some_iff.1 hj'
  obtain ⟨ph, hj⟩ := Pool.phase_of_lt (hlen ▸ (List.getElem?_eq_some_iff.1 hjob).1)
  obtain ⟨henabled, hnext⟩ := waitStep_phase h hj
  rw [WaitAct.nextPhase_of_not_open henabled (hended j ph hj)] at hnext
  obtain rfl := Option.some.inj (hnext.symm.trans hj')
  exact hended j _ hj

/-- If every wait returns after what it was for, `pool` is freed after the last access to it: from
the return of `threadpool_waitall` on, no worker is added. -/
theorem freed_allEnded {acts : List WaitAct}
    (hwaited : EachStep waitStep poolThreadsInit acts WaitAct.Waited) :
    EveryState waitStep poolThreadsInit acts fun s => s.caller.deiniting → s.pool.AllEnded := by
  refine EachStep.everyState ?_ (by rintro (h | h) <;> cases h) hwaited
  intro s a s' o hs hwait hstep hc
  have hcaller := waitStep_callerStep hstep
  by_cases hworker : a.isWorker
  · obtain ⟨hc', -, hlen⟩ := waitStep_worker hworker hstep
    exact waitStep_allEnded hlen (hs (hc' ▸ hc)) hstep
  · generalize hc₁ : s.caller = c₁ at hcaller
    generalize hc₂ : s'.caller = c₂ at hcaller hc
    cases hcaller with
    | worker h => exact absurd h hworker
    | returnedDeinit =>
      exact waitStep_allEnded (by rw [(waitStep_waitallEnd hstep).2]) hwait hstep
    | free => exact waitStep_allEnded (by rw [waitStep_free hstep]) (hs (.inl hc₁)) hstep
    | _ => rcases hc with h | h <;> cases h

/-- In every run the waits work if and only if the workers get to their ends on their own. -/
theorem barrierWorks_iff (acts : List WaitAct) (s : PoolThreads) (os : List Unit)
    (hrun : runSteps waitStep poolThreadsInit acts = some (s, os)) :
    BarrierWorks acts ↔ WorkersFirst acts := by
  constructor
  · rintro ⟨hwaited, -⟩
    exact workersFirst_of_waited hrun hwaited
  · intro hfirst
    refine ⟨hfirst.waited, fun pre s' os' hpre hrun' hfreed => ?_⟩
    exact freed_allEnded hfirst.waited pre s' os' hpre hrun' (.inr hfreed)

/-- A worker that is past the loop when `threadpool_waitall` is called, and writes before it
returns. -/
theorem barrierWorks_iff_one :
    BarrierWorks [.queue .cmd ⟨true, true, true⟩, .handlerEnd 0, .check 0, .waitallBegin true,
      .waitallNext, .write 0, .waitallNext, .waitallEnd, .free] := by
  refine (barrierWorks_iff _ _ _ rfl).2 ⟨?_, ?_⟩
  · intro pre deinit mid post s os hacts hmid hrun j job hjob hun
    -- there is one call of `threadpool_waitall`, and one return of it
    have hsplit : pre = [.queue .cmd ⟨true, true, true⟩, .handlerEnd 0, .check 0] ∧ deinit = true ∧
        mid ++ WaitAct.waitallEnd :: post =
          [.waitallNext, .write 0, .waitallNext, .waitallEnd, .free] := by
      simpa [List.cons_eq_append_iff] using hacts
    obtain ⟨rfl, rfl, hrest⟩ := hsplit
    obtain ⟨rfl, -⟩ : mid = [.waitallNext, .write 0, .waitallNext] ∧ post = [.free] := by
      simpa [List.append_eq_cons_iff, List.cons_eq_append_iff] using hrest
    cases hrun
    cases j with
    | zero =>
      cases hjob
      exact ⟨rfl, by simp⟩
    | succ j => cases hjob
  · intro pre sys mid post s os hacts
    simp [List.cons_eq_append_iff] at hacts

/-- A command runs while `threadpool_deinit` waits, and `pool` is freed before its last access; and
the `pthread_join` of a waiting `threadpool_queue_deinit` returns while its handler runs. -/
theorem not_barrierWorks :
    ¬ BarrierWorks [.queue .cmd ⟨true, true, true⟩, .waitallBegin true, .waitallNext, .waitallNext,
        .waitallEnd, .free] ∧
      ¬ BarrierWorks [.queueDeinit ⟨true, true, true⟩, .joined] := by
  constructor
  · intro h
    have hended := h.2 _ _ _ (List.prefix_refl _) rfl rfl
    exact absurd (hended ⟨.cmd, 0, .handler⟩ (by decide)) (by decide)
  · intro h
    have hdone := h.1 [.queueDeinit ⟨true, true, true⟩] .joined _ _ _ _ (List.prefix_refl _) rfl rfl
    exact absurd (hdone 0 ⟨.deinit, 0, .handler⟩ rfl rfl) (by decide)

end

end MinervaBot
