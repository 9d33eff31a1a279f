import MinervaBot.Lib.Run

/-!
# The slots of the thread pool

`threadpool_queue_findspace`, the three queueing functions and `threadpool_waitall` of
`threadpool.c`, and the end of a worker, which clears the slot whose index its argument block holds.
The threads are created detached, and `pthread_join` of a detached thread returns an error at once.

Here the steps are calls and the ends of workers. A job holds a slot of its own, marked by its own
argument block, until a `threadpool_waitall` comes while it is running: this clears its slot for the
next job, and the late worker clears that job's mark again. `poolExclusive_iff` says that nothing
else breaks the exclusivity of the slots.
-/

namespace MinervaBot

open Lib

/-! ## State -/

/-- `struct threadpool_wrapper`. An argument block and its thread are known by the number of their
job; `none` for `NULL`, and for a thread that was never created. -/
structure ThreadpoolWrapper where
  args : Option Nat
  thread : Option Nat
  deriving DecidableEq

/-- Where a worker is: before the end of its handler, in the loop on `pool_flags`, before its write
to `pool`, or after it. A block whose `pthread_create` failed has no worker. -/
inductive WorkerPhase where
  | handler
  | checking
  | writing
  | ended
  | unborn
  deriving DecidableEq

/-- The wrapper function of a worker. -/
inductive WorkerKind where
  | cmd
  | init
  | deinit
  deriving DecidableEq

/-- An argument block, with the worker it was made for. -/
structure PoolJob where
  kind : WorkerKind
  n : Nat
  phase : WorkerPhase
  deriving DecidableEq

/-- The worker has still to access `pool`. -/
def PoolJob.unfinished (job : PoolJob) : Bool :=
  job.phase ≠ .ended ∧ job.phase ≠ .unborn

/-- The variables of `threadpool.c`, with all argument blocks so far. `pool` lists the elements that
are allocated. -/
structure Pool where
  poolFlags : UInt8
  pool : List ThreadpoolWrapper
  poolLen : Nat
  jobs : List PoolJob
  deriving DecidableEq

/-- The state after `threadpool_init`. -/
def threadpoolInit : Pool where
  poolFlags := 0
  pool := .replicate 2 ⟨none, none⟩
  poolLen := 2
  jobs := []

/-! ## Queueing -/

/-- The loop of `threadpool_queue_findspace` from index `n` on, with `todo` indices to go. There is
no result when it reads behind the elements that are allocated. -/
def findFree (pool : List ThreadpoolWrapper) : (todo n : Nat) → Option Nat
  | 0, n => some n
  | todo + 1, n =>
    match pool[n]? with
    | none => none
    | some wrapper => if wrapper.args.isNone then some n else findFree pool todo (n + 1)

/-- `threadpool_queue_findspace`, with whether `realloc` succeeds: the slot found, or `none` where
it returns `-1`. -/
def threadpoolQueueFindspace (realloc : Bool) (p : Pool) : Option (Pool × Option Nat) :=
  (findFree p.pool p.poolLen 0).map fun n =>
    if n ≥ p.poolLen then
      let invalid := { p with poolFlags := p.poolFlags ||| 1, poolLen := p.poolLen * 2 }
      if realloc then
        ({ invalid with
          poolFlags := invalid.poolFlags ^^^ 1
          pool := p.pool ++ .replicate p.poolLen ⟨none, none⟩ }, some n)
      else (invalid, none)
    else (p, some n)

/-- What the system answers to a queueing function: whether `realloc`, `malloc` and
`pthread_create` succeed. -/
structure QueueSys where
  realloc : Bool
  malloc : Bool
  create : Bool

/-- A new argument block in a slot, and its worker if a thread is created. -/
def Pool.start (kind : WorkerKind) (create : Bool) (n : Nat) (p : Pool) : Pool :=
  { p with
    pool := p.pool.modify n fun wrapper =>
      { args := some p.jobs.length
        thread := if create then some p.jobs.length else wrapper.thread }
    jobs := p.jobs ++ [⟨kind, n, if create then .handler else .unborn⟩] }

/-- The three queueing functions, up to the `pthread_join` of `threadpool_queue_deinit`. Without
memory for the block the slot stays `NULL`. -/
def threadpoolQueue (kind : WorkerKind) (sys : QueueSys) (p : Pool) : Option Pool :=
  (threadpoolQueueFindspace sys.realloc p).map fun r =>
    match r.2 with
    | none => r.1
    | some n => if sys.malloc then r.1.start kind sys.create n else r.1

/-- `threadpool_queue_cmd`. -/
def threadpoolQueueCmd : QueueSys → Pool → Option Pool :=
  threadpoolQueue .cmd

/-- `threadpool_queue_init`. -/
def threadpoolQueueInit : QueueSys → Pool → Option Pool :=
  threadpoolQueue .init

/-- `threadpool_queue_deinit` up to its `pthread_join`. -/
def threadpoolQueueDeinit : QueueSys → Pool → Option Pool :=
  threadpoolQueue .deinit

/-! ## Waiting and ending -/

/-- `pool[n].args = NULL`. -/
def Pool.clearArgs (n : Nat) (p : Pool) : Pool :=
  { p with pool := p.pool.modify n fun wrapper => { wrapper with args := none } }

/-- A pass of the loop of `threadpool_waitall`: a used slot is cleared after the `pthread_join`,
which returns at once. There is no result when it reads behind the elements that are allocated. -/
def waitallSlot (n : Nat) (p : Pool) : Option Pool :=
  p.pool[n]?.map fun wrapper => if wrapper.args.isSome then p.clearArgs n else p

/-- The loop of `threadpool_waitall` from index `n` on, with `todo` indices to go. -/
def waitallLoop : (todo n : Nat) → Pool → Option Pool
  | 0, _, p => some p
  | todo + 1, n, p => (waitallSlot n p).bind (waitallLoop todo (n + 1))

/-- `threadpool_waitall`. -/
def threadpoolWaitall (p : Pool) : Option Pool :=
  (waitallLoop p.poolLen 0 { p with poolFlags := p.poolFlags ||| 1 }).map fun p =>
    { p with poolFlags := p.poolFlags ^^^ 1 }

/-- The phase of a job. -/
def Pool.setPhase (j : Nat) (phase : WorkerPhase) (p : Pool) : Pool :=
  { p with jobs := p.jobs.modify j fun job => { job with phase := phase } }

/-- The end of a worker, from its handler on: it finds bit 0 of `pool_flags` clear and clears the
slot of its block. -/
def workerEnd (j : Nat) (p : Pool) : Option Pool :=
  p.jobs[j]?.bind fun job =>
    if job.phase = .handler ∧ p.poolFlags &&& 1 = 0 then
      some ((p.clearArgs job.n).setPhase j .ended)
    else none

/-! ## Steps -/

/-- A step: a queueing function, the end of a worker, or `threadpool_waitall`. -/
inductive PoolAct where
  | queue (kind : WorkerKind) (sys : QueueSys)
  | finish (job : Nat)
  | waitall

/-- One step. -/
def poolStep (p : Pool) : PoolAct → Option (Pool × Unit)
  | .queue kind sys => (threadpoolQueue kind sys p).map (·, ())
  | .finish j => (workerEnd j p).map (·, ())
  | .waitall => (threadpoolWaitall p).map (·, ())

/-- The argument block that marks a slot as used. -/
def Pool.owner (p : Pool) (n : Nat) : Option Nat :=
  p.pool[n]?.bind (·.args)

/-- Two different unfinished jobs never hold the same slot, and the slot of an unfinished job is
marked by its own argument block. -/
structure Pool.Exclusive (p : Pool) : Prop where
  distinct : ∀ (i j : Nat) (a b : PoolJob), p.jobs[i]? = some a → p.jobs[j]? = some b → a.unfinished →
    b.unfinished → i ≠ j → a.n ≠ b.n
  marked : ∀ (j : Nat) (job : PoolJob), p.jobs[j]? = some job → job.unfinished → p.owner job.n = some j

/-- `threadpool_waitall` is called when all workers have ended. -/
def PoolAct.Idle (p : Pool) : PoolAct → Prop
  | .waitall => ∀ job ∈ p.jobs, job.unfinished = false
  | _ => True

/-! ## What the functions do to the marks -/

section
variable {p p' : Pool} {n k j : Nat}

/-- The search stops at a free slot, or behind the slots it looked at. Induction on the indices to
go. -/
theorem findFree_spec {pool : List ThreadpoolWrapper} (todo : Nat) : ∀ {n m : Nat},
    findFree pool todo n = some m →
      n ≤ m ∧ m ≤ n + todo ∧ (m < n + todo → ∃ w, pool[m]? = some w ∧ w.args = none) ∧
        m ≤ max n pool.length := by
  induction todo with
  | zero =>
    intro n m h
    cases h
    exact ⟨Nat.le_refl n, Nat.le_refl n, fun h => absurd h (Nat.lt_irrefl n), by omega⟩
  | succ todo ih =>
    intro n m h
    rw [findFree] at h
    cases hn : pool[n]? with
    | none => rw [hn] at h; cases h
    | some w =>
      have hlen := (List.getElem?_eq_some_iff.1 hn).1
      simp only [hn] at h
      split at h
      · next hfree =>
        cases h
        exact ⟨Nat.le_refl n, by omega, fun _ => ⟨w, hn, by simpa using hfree⟩, by omega⟩
      · obtain ⟨hle, hle', hfree, hmax⟩ := ih h
        exact ⟨by omega, by omega, fun hm => hfree (by omega), by omega⟩

/-- Clearing a slot clears its mark. -/
theorem Pool.owner_clearArgs (p : Pool) (n k : Nat) :
    (p.clearArgs n).owner k = if n = k then none else p.owner k := by
  simp only [owner, clearArgs, List.getElem?_modify]
  cases p.pool[k]? with
  | none => simp
  | some w => by_cases h : n = k <;> simp [h]

@[simp] theorem Pool.jobs_clearArgs (p : Pool) (n : Nat) : (p.clearArgs n).jobs = p.jobs := rfl

@[simp] theorem Pool.length_clearArgs (p : Pool) (n : Nat) :
    (p.clearArgs n).pool.length = p.pool.length := by
  simp [clearArgs]

/-- A new block marks its slot. -/
theorem Pool.owner_start (p : Pool) (kind : WorkerKind) (create : Bool) (hn : n < p.pool.length)
    (k : Nat) :
    (p.start kind create n).owner k = if n = k then some p.jobs.length else p.owner k := by
  simp only [owner, start, List.getElem?_modify]
  by_cases h : n = k
  · subst h
    simp [hn]
  · cases p.pool[k]? <;> simp [h]

/-- A slot that was found is free, and the marks are as before. -/
theorem threadpoolQueueFindspace_spec {realloc : Bool} {r : Option Nat}
    (hlen : p.pool.length ≤ p.poolLen) (hpos : 0 < p.poolLen)
    (h : threadpoolQueueFindspace realloc p = some (p', r)) :
    p'.jobs = p.jobs ∧ p'.pool.length ≤ p'.poolLen ∧ 0 < p'.poolLen ∧ (∀ k, p'.owner k = p.owner k) ∧
      ∀ n, r = some n → n < p'.pool.length ∧ p'.owner n = none := by
  obtain ⟨n, hfind, hr⟩ := Option.map_eq_some_iff.1 h
  obtain ⟨-, hle, hfree, hmax⟩ := findFree_spec _ hfind
  split at hr
  · next hfull =>
    have hall : p.pool.length = p.poolLen := by omega
    split at hr
    · cases hr
      have howner : ∀ k, Pool.owner { p with
          poolFlags := (p.poolFlags ||| 1) ^^^ 1
          poolLen := p.poolLen * 2
          pool := p.pool ++ .replicate p.poolLen ⟨none, none⟩ } k = p.owner k := by
        intro k
        simp only [Pool.owner]
        rcases Nat.lt_or_ge k p.pool.length with hk | hk
        · rw [List.getElem?_append_left hk]
        · rw [List.getElem?_append_right hk, List.getElem?_eq_none hk, List.getElem?_replicate]
          split <;> rfl
      have hlength : (p.pool ++ List.replicate p.poolLen (⟨none, none⟩ : ThreadpoolWrapper)).length =
          p.poolLen * 2 := by
        rw [List.length_append, List.length_replicate]
        omega
      refine ⟨rfl, Nat.le_of_eq hlength, Nat.mul_pos hpos (by decide), howner, ?_⟩
      rintro _ ⟨⟩
      refine ⟨hlength.symm ▸ (by omega), (howner n).trans ?_⟩
      rw [Pool.owner, List.getElem?_eq_none (by omega)]
      rfl
    · cases hr
      exact ⟨rfl, Nat.le_trans hlen (Nat.le_mul_of_pos_right _ (by decide)),
        Nat.mul_pos hpos (by decide), fun _ => rfl, nofun⟩
  · next hroom =>
    cases hr
    refine ⟨rfl, hlen, hpos, fun _ => rfl, ?_⟩
    rintro _ ⟨⟩
    obtain ⟨w, hw, hargs⟩ := hfree (by omega)
    exact ⟨(List.getElem?_eq_some_iff.1 hw).1, by rw [Pool.owner, hw]; exact hargs⟩

/-- A pass of `threadpool_waitall` clears the mark of its slot. -/
theorem waitallSlot_spec (h : waitallSlot n p = some p') :
    p'.jobs = p.jobs ∧ p'.pool.length = p.pool.length ∧ p'.poolLen = p.poolLen ∧
      ∀ k, p'.owner k = if n = k then none else p.owner k := by
  obtain ⟨w, hw, hp⟩ := Option.map_eq_some_iff.1 h
  split at hp
  · cases hp
    exact ⟨rfl, Pool.length_clearArgs p n, rfl, Pool.owner_clearArgs p n⟩
  · next hfree =>
    cases hp
    refine ⟨rfl, rfl, rfl, fun k => ?_⟩
    split
    · next hk =>
      subst hk
      rw [Pool.owner, hw]
      simpa using hfree
    · rfl

/-- The loop of `threadpool_waitall` clears the marks it passes. Induction on the indices to go. -/
theorem waitallLoop_spec (todo : Nat) : ∀ {n : Nat} {p : Pool}, waitallLoop todo n p = some p' →
    p'.jobs = p.jobs ∧ p'.pool.length = p.pool.length ∧ p'.poolLen = p.poolLen ∧
      ∀ k, p'.owner k = if n ≤ k ∧ k < n + todo then none else p.owner k := by
  induction todo with
  | zero =>
    intro n p h
    cases h
    exact ⟨rfl, rfl, rfl, fun k => (if_neg (by omega)).symm⟩
  | succ todo ih =>
    intro n p h
    obtain ⟨p₁, hslot, hrest⟩ := Option.bind_eq_some_iff.1 h
    obtain ⟨hjobs, hlen, hpoolLen, howner⟩ := waitallSlot_spec hslot
    obtain ⟨hjobs', hlen', hpoolLen', howner'⟩ := ih hrest
    refine ⟨hjobs'.trans hjobs, hlen'.trans hlen, hpoolLen'.trans hpoolLen, fun k => ?_⟩
    rw [howner', howner]
    by_cases hk : n = k
    · rw [if_pos hk, ite_self, if_pos (by omega)]
    · rw [if_neg hk]
      congr 1
      exact propext (by omega)

/-- After `threadpool_waitall` no slot is marked. -/
theorem threadpoolWaitall_spec (hlen : p.pool.length ≤ p.poolLen)
    (h : threadpoolWaitall p = some p') :
    p'.jobs = p.jobs ∧ p'.pool.length ≤ p'.poolLen ∧ p'.poolLen = p.poolLen ∧
      ∀ k, p'.owner k = none := by
  obtain ⟨p₁, hloop, rfl⟩ := Option.map_eq_some_iff.1 h
  obtain ⟨hjobs, hlen', hpoolLen, howner⟩ := waitallLoop_spec _ hloop
  refine ⟨hjobs, by rw [hlen', hpoolLen]; exact hlen, hpoolLen, fun k => ?_⟩
  show p₁.owner k = none
  rw [howner]
  split
  · rfl
  · next hk =>
    show (p.pool[k]?).bind _ = none
    rw [List.getElem?_eq_none (by omega)]
    rfl

end

/-! ## Exclusivity -/

/-- No more slots are allocated than `pool_len` says, and the slot of an unfinished job is marked by
its own argument block. -/
structure Pool.Marked (p : Pool) : Prop where
  len : p.pool.length ≤ p.poolLen
  pos : 0 < p.poolLen
  marked : ∀ (j : Nat) (job : PoolJob), p.jobs[j]? = some job → job.unfinished → p.owner job.n = some j

/-- A mark names one job. -/
theorem Pool.Marked.exclusive {p : Pool} (h : p.Marked) : p.Exclusive where
  distinct := by
    intro i j a b ha hb hua hub hne heq
    have hmark := h.marked i a ha hua
    rw [heq, h.marked j b hb hub] at hmark
    exact hne (Option.some.inj hmark).symm
  marked := h.marked

/-- A call of a queueing function. The slot it takes is free, so no unfinished job holds it. -/
theorem Pool.Marked.queue {p p' : Pool} {kind : WorkerKind} {sys : QueueSys} (h : p.Marked)
    (hq : threadpoolQueue kind sys p = some p') : p'.Marked := by
  obtain ⟨⟨p₁, r⟩, hfind, rfl⟩ := Option.map_eq_some_iff.1 hq
  obtain ⟨hjobs, hlen, hpos, howner, hfree⟩ := threadpoolQueueFindspace_spec h.len h.pos hfind
  have hmarked : p₁.Marked := by
    refine ⟨hlen, hpos, fun j job hj hu => ?_⟩
    rw [howner]
    exact h.marked j job (hjobs ▸ hj) hu
  cases r with
  | none => exact hmarked
  | some n =>
    simp only
    split
    · obtain ⟨hn, hnone⟩ := hfree n rfl
      refine ⟨by simpa [Pool.start] using hlen, hpos, fun j job hj hu => ?_⟩
      rw [Pool.owner_start _ _ _ hn]
      rcases Nat.lt_or_ge j p₁.jobs.length with hlt | hge
      · have hj' : p₁.jobs[j]? = some job := by
          rw [← hj]
          exact (List.getElem?_append_left hlt).symm
        have hmark := hmarked.marked j job hj' hu
        rw [if_neg, hmark]
        rintro rfl
        rw [hnone] at hmark
        cases hmark
      · have hj' : (p₁.jobs ++ [⟨kind, n, if sys.create then .handler else .unborn⟩])[j]? =
            some job := hj
        rw [List.getElem?_append_right hge, List.getElem?_singleton] at hj'
        split at hj'
        · next hzero =>
          cases hj'
          rw [if_pos rfl, show j = p₁.jobs.length by omega]
        · cases hj'
    · exact hmarked

/-- The end of a worker that holds its slot. -/
theorem Pool.Marked.finish {p p' : Pool} {j : Nat} (h : p.Marked) (hf : workerEnd j p = some p') :
    p'.Marked := by
  obtain ⟨job, hj, hp⟩ := Option.bind_eq_some_iff.1 hf
  split at hp
  · next hguard =>
    cases hp
    have hu : job.unfinished := by simp [PoolJob.unfinished, hguard.1]
    have hmark := h.marked j job hj hu
    refine ⟨Nat.le_trans (Nat.le_of_eq (Pool.length_clearArgs p job.n)) h.len, h.pos,
      fun i job' hi hu' => ?_⟩
    have hi' : (p.jobs.modify j fun job => { job with phase := .ended })[i]? = some job' := hi
    rw [List.getElem?_modify] at hi'
    obtain ⟨a, ha, hjob⟩ := Option.map_eq_some_iff.1 hi'
    split at hjob
    · cases hjob
      cases hu'
    · next hne =>
      obtain rfl : a = job' := hjob
      have hmark' := h.marked i a ha hu'
      show (p.clearArgs job.n).owner a.n = some i
      rw [Pool.owner_clearArgs, if_neg, hmark']
      intro heq
      rw [heq, hmark'] at hmark
      exact hne (Option.some.inj hmark).symm
  · cases hp

/-- In every run from `threadpool_init` on, the slots are exclusive in every state exactly if
`threadpool_waitall` is called only when all workers have ended. -/
theorem poolExclusive_iff (acts : List PoolAct) :
    EveryState poolStep threadpoolInit acts Pool.Exclusive ↔
      EachStep poolStep threadpoolInit acts PoolAct.Idle := by
  refine everyState_iff_eachStep (I := Pool.Marked) (fun _ h => h.exclusive) ?_ ?_ acts ?_
  · intro p act p' _ h hidle hstep
    cases act with
    | queue kind sys =>
      obtain ⟨p₁, hq, ⟨⟩⟩ := Option.map_eq_some_iff.1 hstep
      exact h.queue hq
    | finish j =>
      obtain ⟨p₁, hf, ⟨⟩⟩ := Option.map_eq_some_iff.1 hstep
      exact h.finish hf
    | waitall =>
      obtain ⟨p₁, hw, ⟨⟩⟩ := Option.map_eq_some_iff.1 hstep
      obtain ⟨hjobs, hlen, hpoolLen, -⟩ := threadpoolWaitall_spec h.len hw
      refine ⟨hlen, hpoolLen ▸ h.pos, fun j job hj hu => ?_⟩
      have hdone := hidle job (List.mem_of_getElem? (hjobs ▸ hj))
      rw [hdone] at hu
      cases hu
  · intro p act p' _ h hbusy hstep hexcl
    cases act with
    | queue kind sys => exact hbusy trivial
    | finish j => exact hbusy trivial
    | waitall =>
      obtain ⟨p₁, hw, ⟨⟩⟩ := Option.map_eq_some_iff.1 hstep
      obtain ⟨hjobs, -, -, howner⟩ := threadpoolWaitall_spec h.len hw
      refine hbusy fun job hjob => ?_
      by_contra hu
      obtain ⟨j, hj⟩ := List.mem_iff_getElem?.1 hjob
      have hmark := hexcl.marked j job (hjobs.symm ▸ hj) (by simpa using hu)
      rw [howner] at hmark
      cases hmark
  · exact ⟨Nat.le_refl 2, Nat.two_pos, fun j job hj => by simp [threadpoolInit] at hj⟩

/-- A command is running while `threadpool_waitall` is called, and another is queued then: both jobs
hold slot `0`, which is marked by the second. -/
theorem poolExclusive_waitall :
    ∃ p os, runSteps poolStep threadpoolInit
        [.queue .cmd ⟨true, true, true⟩, .waitall, .queue .cmd ⟨true, true, true⟩] = some (p, os) ∧
      p.jobs = [⟨.cmd, 0, .handler⟩, ⟨.cmd, 0, .handler⟩] ∧ p.owner 0 = some 1 ∧
      ¬ p.Exclusive := by
  refine ⟨_, _, rfl, rfl, rfl, fun h => ?_⟩
  exact h.distinct 0 1 _ _ rfl rfl rfl rfl (by decide) rfl

end MinervaBot
