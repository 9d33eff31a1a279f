import MinervaBot.Lib.CString
import MinervaBot.Pool

/-!
# A queueing that fails

The steps of a queueing function that can fail are the `realloc` of `threadpool_queue_findspace`,
the `malloc` of the argument block and `pthread_create`. By the time `realloc` has failed,
`pool_len` is doubled and bit 0 of `pool_flags` is set; by the time `pthread_create` has failed, the
slot holds the block; nothing takes this back. Only a failed `malloc` leaves the pool usable
(`leftUsable_iff`).
-/

namespace MinervaBot

open Lib

/-- Every slot is in use, so that `threadpool_queue_findspace` calls `realloc`. -/
def Pool.Full (p : Pool) : Prop :=
  ∀ k < p.poolLen, p.owner k ≠ none

/-- A step of the call that is reached fails. -/
def QueueSys.Fails (sys : QueueSys) (p : Pool) : Prop :=
  ¬ ((p.Full → sys.realloc = true) ∧ sys.malloc = true ∧ sys.create = true)

/-- The slot that the call chooses for its job. -/
def queueSlot (sys : QueueSys) (p : Pool) : Option Nat :=
  (threadpoolQueueFindspace sys.realloc p).bind (·.2)

/-- The call leaves the pool `p` usable as `p'`: `pool_len` counts the elements allocated, bit 0 of
`pool_flags` is as before, what the slot of a running job held it still holds, and the slot chosen
is free. -/
structure Pool.LeftUsable (sys : QueueSys) (p p' : Pool) : Prop where
  poolLen : p'.poolLen = p'.pool.length
  flag : p'.poolFlags &&& 1 = p.poolFlags &&& 1
  running : ∀ job ∈ p.jobs, job.unfinished → ∀ wrapper, p.pool[job.n]? = some wrapper →
    p'.pool[job.n]? = some wrapper
  chosen : ∀ n, queueSlot sys p = some n → p'.owner n = none

/-- At least one element, and no more than `pool_len` says. -/
structure Pool.Allocated (p : Pool) : Prop where
  len : p.pool.length ≤ p.poolLen
  pos : 0 < p.poolLen

section
variable {p p' : Pool} {kind : WorkerKind} {sys : QueueSys} {n : Nat}

/-! ## The states of the pool -/

/-- A step keeps the pool allocated. -/
theorem Pool.Allocated.step (h : p.Allocated) {act : PoolAct} {u : Unit}
    (hstep : poolStep p act = some (p', u)) : p'.Allocated := by
  cases act with
  | queue kind sys =>
    obtain ⟨p₁, hq, ⟨⟩⟩ := Option.map_eq_some_iff.1 hstep
    obtain ⟨⟨p₂, r⟩, hfind, rfl⟩ := Option.map_eq_some_iff.1 hq
    obtain ⟨-, hlen, hpos, -, -⟩ := threadpoolQueueFindspace_spec h.len h.pos hfind
    cases r with
    | none => exact ⟨hlen, hpos⟩
    | some n =>
      simp only
      split
      · exact ⟨by simpa [Pool.start] using hlen, hpos⟩
      · exact ⟨hlen, hpos⟩
  | finish j =>
    obtain ⟨p₁, hf, ⟨⟩⟩ := Option.map_eq_some_iff.1 hstep
    obtain ⟨job, -, hp⟩ := Option.bind_eq_some_iff.1 hf
    split at hp
    · cases hp
      exact ⟨Nat.le_trans (Nat.le_of_eq (Pool.length_clearArgs p job.n)) h.len, h.pos⟩
    · cases hp
  | waitall =>
    obtain ⟨p₁, hw, ⟨⟩⟩ := Option.map_eq_some_iff.1 hstep
    obtain ⟨-, hlen, hpoolLen, -⟩ := threadpoolWaitall_spec h.len hw
    exact ⟨hlen, hpoolLen ▸ h.pos⟩

/-- In every state after `threadpool_init` the pool is allocated. -/
theorem allocated_of_run {acts : List PoolAct} {us : List Unit}
    (hrun : runSteps poolStep threadpoolInit acts = some (p, us)) : p.Allocated := by
  have hinit : threadpoolInit.Allocated := ⟨Nat.le_refl 2, Nat.two_pos⟩
  exact runSteps_preserves (fun _ _ _ _ h hstep => h.step hstep) hinit hrun

/-! ## The call -/

/-- The search passes over used slots. Induction on the indices to go. -/
theorem findFree_used {pool : List ThreadpoolWrapper} (todo : Nat) : ∀ {n m k : Nat},
    findFree pool todo n = some m → n ≤ k → k < m → pool[k]?.bind (·.args) ≠ none := by
  induction todo with
  | zero =>
    intro n m k h hn hk
    cases h
    omega
  | succ todo ih =>
    intro n m k h hn hk
    rw [findFree] at h
    split at h
    · cases h
    · next w hw =>
      split at h
      · cases h
        omega
      · next hused =>
        rcases Nat.eq_or_lt_of_le hn with rfl | hlt
        · rw [hw]
          simpa using hused
        · exact ih h hlt hk

/-- The search comes to the end of the pool exactly if it is full. -/
theorem findFree_full (hfind : findFree p.pool p.poolLen 0 = some n) : p.poolLen ≤ n ↔ p.Full := by
  obtain ⟨-, hle, hfree, -⟩ := findFree_spec _ hfind
  constructor
  · exact fun hn k hk => findFree_used _ hfind (Nat.zero_le k) (by omega)
  · intro hfull
    by_contra hlt
    obtain ⟨w, hw, hargs⟩ := hfree (by omega)
    refine hfull n (by omega) ?_
    rw [Pool.owner, hw]
    exact hargs

/-- Bit 0 after it has been set and flipped. -/
theorem flags_flipped (x : UInt8) : ((x ||| 1) ^^^ 1) &&& 1 = 0 := by
  have hall : ∀ x : UInt8, ((x ||| 1) ^^^ 1) &&& 1 = 0 := forall_byte (by decide +kernel)
  exact hall x

/-- A slot with a block whose thread was not created is not free. -/
theorem not_leftUsable_start (hn : n < p'.pool.length) (hslot : queueSlot sys p = some n) :
    ¬ p.LeftUsable sys (p'.start kind false n) := by
  intro h
  have hfree := h.chosen n hslot
  rw [Pool.owner_start _ _ _ hn, if_pos rfl] at hfree
  cases hfree

/-- A failing call on a pool with a free slot. -/
theorem leftUsable_iff_of_not_full (hfind : findFree p.pool p.poolLen 0 = some n)
    (hfull : ¬ p.Full) (hq : threadpoolQueue kind sys p = some p') (hfails : sys.Fails p) :
    p.LeftUsable sys p' ↔ p.poolLen = p.pool.length ∧ sys.malloc = false := by
  have hlt : ¬ p.poolLen ≤ n := fun hle => hfull ((findFree_full hfind).1 hle)
  obtain ⟨-, -, hfree, -⟩ := findFree_spec _ hfind
  obtain ⟨w, hw, hargs⟩ := hfree (by omega)
  have hspace : threadpoolQueueFindspace sys.realloc p = some (p, some n) := by
    rw [threadpoolQueueFindspace, hfind, Option.map_some, if_neg hlt]
  have hslot : queueSlot sys p = some n := by
    rw [queueSlot, hspace]
    rfl
  simp only [threadpoolQueue, hspace, Option.map_some] at hq
  cases hmalloc : sys.malloc with
  | true =>
    have hcreate : sys.create = false :=
      Bool.eq_false_iff.2 fun h => hfails ⟨fun h => absurd h hfull, hmalloc, h⟩
    rw [if_pos hmalloc, hcreate] at hq
    cases hq
    have hn := (List.getElem?_eq_some_iff.1 hw).1
    exact iff_of_false (not_leftUsable_start hn hslot) (by simp)
  | false =>
    rw [if_neg (by simp [hmalloc])] at hq
    cases hq
    refine ⟨fun h => ⟨h.poolLen, rfl⟩, fun h => ⟨h.1, rfl, fun _ _ _ _ h => h, fun k hk => ?_⟩⟩
    obtain rfl : n = k := Option.some.inj (hslot.symm.trans hk)
    rw [Pool.owner, hw]
    exact hargs

/-- A full pool after a `realloc` that succeeds: twice as long, with bit 0 set and flipped. -/
def Pool.grown (p : Pool) : Pool :=
  { p with
    poolFlags := (p.poolFlags ||| 1) ^^^ 1
    poolLen := p.poolLen * 2
    pool := p.pool ++ .replicate p.poolLen ⟨none, none⟩ }

theorem threadpoolQueueFindspace_full (hfind : findFree p.pool p.poolLen 0 = some n)
    (hle : p.poolLen ≤ n) : threadpoolQueueFindspace true p = some (p.grown, some n) := by
  simp only [threadpoolQueueFindspace, hfind, Option.map_some, ge_iff_le, if_pos hle, if_true]
  rfl

/-- A pool that has grown is usable if bit 0 was clear. -/
theorem leftUsable_grown (hlen : p.poolLen = p.pool.length) (hslot : queueSlot sys p = some n)
    (hfree : p.grown.owner n = none) :
    p.LeftUsable sys p.grown ↔ p.poolFlags &&& 1 = 0 := by
  constructor
  · exact fun h => h.flag.symm.trans (flags_flipped _)
  · intro hflag
    refine ⟨?_, (flags_flipped _).trans hflag.symm, fun job _ _ w hw => ?_, fun k hk => ?_⟩
    · simp only [Pool.grown, List.length_append, List.length_replicate]
      omega
    · exact (List.getElem?_append_left (List.getElem?_eq_some_iff.1 hw).1).trans hw
    · obtain rfl : n = k := Option.some.inj (hslot.symm.trans hk)
      exact hfree

/-- A failing call on a full pool. -/
theorem leftUsable_iff_of_full (halloc : p.Allocated)
    (hfind : findFree p.pool p.poolLen 0 = some n) (hfull : p.Full)
    (hq : threadpoolQueue kind sys p = some p') (hfails : sys.Fails p) :
    p.LeftUsable sys p' ↔
      (sys.realloc = true ∧ p.poolFlags &&& 1 = 0) ∧ sys.malloc = false := by
  have hle := (findFree_full hfind).2 hfull
  obtain ⟨-, hn, -, hmax⟩ := findFree_spec _ hfind
  have hpos := halloc.pos
  have hlen := halloc.len
  cases hrealloc : sys.realloc with
  | false =>
    simp only [threadpoolQueue, threadpoolQueueFindspace, hfind, Option.map_some, ge_iff_le,
      if_pos hle, hrealloc, Bool.false_eq_true, if_false] at hq
    cases hq
    refine iff_of_false (fun h => ?_) (by simp)
    have hpoolLen : p.poolLen * 2 = p.pool.length := h.poolLen
    omega
  | true =>
    have hspace := threadpoolQueueFindspace_full hfind hle
    have hslot : queueSlot sys p = some n := by
      rw [queueSlot, hrealloc, hspace]
      rfl
    obtain ⟨hin, hfree⟩ := (threadpoolQueueFindspace_spec hlen hpos hspace).2.2.2.2 n rfl
    simp only [threadpoolQueue, hrealloc, hspace, Option.map_some, Option.some.injEq] at hq
    cases hmalloc : sys.malloc with
    | true =>
      have hcreate : sys.create = false :=
        Bool.eq_false_iff.2 fun h => hfails ⟨fun _ => hrealloc, hmalloc, h⟩
      rw [if_pos hmalloc, hcreate] at hq
      subst hq
      exact iff_of_false (not_leftUsable_start hin hslot) (by simp)
    | false =>
      rw [if_neg (by simp [hmalloc])] at hq
      subst hq
      rw [leftUsable_grown (by omega) hslot hfree]
      simp

/-- A call of a queueing function in which a step fails leaves the pool usable if and only if no
earlier failure has left `pool_len` too large, the step that fails is the `malloc`, and where the
pool had to grow, bit 0 of `pool_flags` was clear. -/
theorem leftUsable_iff (halloc : p.Allocated) (hq : threadpoolQueue kind sys p = some p')
    (hfails : sys.Fails p) :
    p.LeftUsable sys p' ↔ p.poolLen = p.pool.length ∧
      (p.Full → sys.realloc = true ∧ p.poolFlags &&& 1 = 0) ∧ sys.malloc = false := by
  obtain ⟨⟨p₁, r⟩, hspace, -⟩ := Option.map_eq_some_iff.1 hq
  obtain ⟨n, hfind, -⟩ := Option.map_eq_some_iff.1 hspace
  by_cases hfull : p.Full
  · -- the search has read all elements that `pool_len` counts
    have hlen : p.poolLen = p.pool.length := by
      have hle := (findFree_full hfind).2 hfull
      obtain ⟨-, -, -, hmax⟩ := findFree_spec _ hfind
      have hlen' := halloc.len
      omega
    rw [leftUsable_iff_of_full halloc hfind hfull hq hfails]
    exact ⟨fun h => ⟨hlen, fun _ => h.1, h.2⟩, fun h => ⟨h.2.1 hfull, h.2.2⟩⟩
  · rw [leftUsable_iff_of_not_full hfind hfull hq hfails]
    exact ⟨fun h => ⟨h.1, fun h => absurd h hfull, h.2⟩, fun h => ⟨h.1, h.2.2⟩⟩

/-- Without memory for the block of its first job. -/
theorem leftUsable_iff_malloc :
    threadpoolInit.LeftUsable ⟨true, false, true⟩ threadpoolInit := by
  have hrun : runSteps poolStep threadpoolInit [] = some (threadpoolInit, []) := rfl
  have hq : threadpoolQueue .cmd ⟨true, false, true⟩ threadpoolInit = some threadpoolInit := rfl
  exact (leftUsable_iff (allocated_of_run hrun) hq fun h => Bool.false_ne_true h.2.1).2
    ⟨rfl, fun h => absurd rfl (h 0 (by decide)), rfl⟩

/-- The pool after `threadpool_init` when `pthread_create` fails for its first job: slot `0` keeps
the block. With two jobs running, a `realloc` that fails leaves `pool_len` at 4 with 2 elements, and
bit 0 set. -/
theorem not_leftUsable :
    (∃ p', threadpoolQueueCmd ⟨true, true, false⟩ threadpoolInit = some p' ∧
      p'.owner 0 = some 0 ∧ ¬ threadpoolInit.LeftUsable ⟨true, true, false⟩ p') ∧
    ∃ p p' us, runSteps poolStep threadpoolInit
        [.queue .cmd ⟨true, true, true⟩, .queue .cmd ⟨true, true, true⟩] = some (p, us) ∧
      threadpoolQueueInit ⟨false, true, true⟩ p = some p' ∧ p'.poolLen = 4 ∧ p'.pool.length = 2 ∧
      p'.poolFlags = 1 ∧ ¬ p.LeftUsable ⟨false, true, true⟩ p' := by
  refine ⟨⟨_, rfl, rfl, fun h => ?_⟩, _, _, _, rfl, rfl, rfl, rfl, rfl, fun h => ?_⟩
  · exact Option.some_ne_none _ (h.chosen 0 rfl)
  · exact absurd h.poolLen (by decide)

end

end MinervaBot
