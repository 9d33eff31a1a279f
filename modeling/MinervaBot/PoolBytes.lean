import MinervaBot.Lib.MemStr
import MinervaBot.PoolFailures

/-!
# The bytes of the pool

`threadpool_queue_findspace` on the block at `pool` byte by byte: `realloc` keeps the bytes of the
elements and leaves those behind them indeterminate, and `memset` has to clear these and no others.
`PoolBytes.threadpoolQueueFindspace_lowest` says what the function returns and leaves for any length
of the pool; `PoolBytes.Represents.findspace` connects it to the function on slots.

The sizes are numbers without bound here. In C they are of type `size_t`, where they do not wrap:
the block of `pool_len` elements is an object, of less than `2^63` bytes, so twice its size is less
than `2^64`.
-/

namespace MinervaBot

open Lib

/-- `sizeof(struct threadpool_wrapper)`: `args` and `thread`, with eight bytes each. -/
def sizeofWrapper : Nat := 16

/-- `!(pool[n].args)`: the pointer at the start of the element is `NULL`. -/
def argsNull (pool : Mem) (n : Nat) : Bool :=
  (List.range 8).all fun i => pool (sizeofWrapper * n + i : Nat) == 0

/-- `pool_flags`, the block at `pool`, and `pool_len`. -/
structure PoolBytes where
  poolFlags : UInt8
  pool : Mem
  poolLen : Nat

/-- What `threadpool_queue_findspace` returns, `*n`, and the variables afterwards. -/
structure FoundSpace where
  ret : Int
  n : Nat
  pool : PoolBytes

/-- The loop of `threadpool_queue_findspace` from index `n` on, with `todo` indices to go. -/
def findArgsNull (pool : Mem) : (todo n : Nat) → Nat
  | 0, n => n
  | todo + 1, n => if argsNull pool n then n else findArgsNull pool todo (n + 1)

namespace PoolBytes

/-- `threadpool_queue_findspace`; `realloc` is what a successful `realloc` leaves behind the
elements, `none` where it fails. -/
def threadpoolQueueFindspace (realloc : Option Mem) (p : PoolBytes) : FoundSpace :=
  let n := findArgsNull p.pool p.poolLen 0
  if n ≥ p.poolLen then
    let q := { p with poolFlags := p.poolFlags ||| 1, poolLen := p.poolLen * 2 }
    match realloc with
    | none => { ret := -1, n, pool := q }
    | some fresh =>
      let pool := p.pool.realloc (sizeofWrapper * p.poolLen) fresh
      { ret := 0
        n
        pool := { q with
          poolFlags := q.poolFlags ^^^ 1
          pool := pool.memset (sizeofWrapper * (q.poolLen / 2) : Nat) 0
            (sizeofWrapper * q.poolLen / 2) } }
  else { ret := 0, n, pool := p }

end PoolBytes

/-! ## The search -/

theorem argsNull_iff {pool : Mem} {n : Nat} :
    argsNull pool n = true ↔ ∀ i < 8, pool (sizeofWrapper * n + i : Nat) = 0 := by
  simp [argsNull]

/-- The search stops at the first slot that is free, or behind the last. Induction on the indices to
go. -/
theorem findArgsNull_spec (pool : Mem) (todo : Nat) : ∀ n : Nat,
    n ≤ findArgsNull pool todo n ∧ findArgsNull pool todo n ≤ n + todo ∧
      (∀ k, n ≤ k → k < findArgsNull pool todo n → argsNull pool k = false) ∧
      (findArgsNull pool todo n < n + todo → argsNull pool (findArgsNull pool todo n) = true) := by
  induction todo with
  | zero => exact fun n => ⟨le_rfl, le_rfl, fun k hn hk => absurd hk (Nat.not_lt.2 hn), fun h =>
      absurd h (Nat.lt_irrefl n)⟩
  | succ todo ih =>
    intro n
    obtain ⟨hlo, hhi, hused, hfree⟩ := ih (n + 1)
    rw [findArgsNull]
    split
    · next hnull =>
      exact ⟨le_rfl, by omega, fun k hn hk => absurd hk (Nat.not_lt.2 hn), fun _ => hnull⟩
    · next hnull =>
      refine ⟨by omega, by omega, fun k hn hk => ?_, fun hlt => hfree (by omega)⟩
      rcases Nat.eq_or_lt_of_le hn with rfl | hlt
      · exact Bool.eq_false_iff.2 hnull
      · exact hused k hlt hk

namespace PoolBytes

variable {p : PoolBytes} {fresh : Mem}

/-- The variables after a full pool has grown. -/
def grown (fresh : Mem) (p : PoolBytes) : PoolBytes where
  poolFlags := (p.poolFlags ||| 1) ^^^ 1
  pool := (p.pool.realloc (sizeofWrapper * p.poolLen) fresh).memset
    (sizeofWrapper * (p.poolLen * 2 / 2) : Nat) 0 (sizeofWrapper * (p.poolLen * 2) / 2)
  poolLen := p.poolLen * 2

/-- With memory, the function leaves the pool, or one that has grown. -/
theorem threadpoolQueueFindspace_eq (p : PoolBytes) (fresh : Mem) :
    p.threadpoolQueueFindspace (some fresh) =
      { ret := 0
        n := findArgsNull p.pool p.poolLen 0
        pool := if p.poolLen ≤ findArgsNull p.pool p.poolLen 0 then p.grown fresh else p } := by
  unfold threadpoolQueueFindspace
  simp only [ge_iff_le]
  split
  · rfl
  · rfl

/-- The bytes of the elements are kept: neither is one of them lost nor cleared. -/
theorem grown_pool_of_lt {i : Int} (hi : 0 ≤ i ∧ i < (sizeofWrapper * p.poolLen : Nat)) :
    (p.grown fresh).pool i = p.pool i := by
  have hhalf : p.poolLen * 2 / 2 = p.poolLen := Nat.mul_div_cancel _ (by decide)
  simp only [grown, hhalf]
  rw [Mem.memset_of_not_mem _ _ (by omega), Mem.realloc_of_lt _ _ hi]

/-- The bytes of the new elements are cleared. -/
theorem grown_pool_of_le {i : Int} (hlo : (sizeofWrapper * p.poolLen : Nat) ≤ i)
    (hhi : i < (sizeofWrapper * (p.poolLen * 2) : Nat)) : (p.grown fresh).pool i = 0 := by
  refine Mem.memset_of_mem _ 0 ?_
  simp only [sizeofWrapper] at hlo hhi ⊢
  omega

/-- An element is free after the growth if it was free or is new. -/
theorem argsNull_grown {k : Nat} (hk : k < p.poolLen * 2) :
    argsNull (p.grown fresh).pool k = (argsNull p.pool k || decide (p.poolLen ≤ k)) := by
  rw [Bool.eq_iff_iff, Bool.or_eq_true, argsNull_iff, argsNull_iff, decide_eq_true_iff]
  rcases Nat.lt_or_ge k p.poolLen with hlt | hge
  · have hkeep : ∀ i < 8, (p.grown fresh).pool (sizeofWrapper * k + i : Nat) =
        p.pool (sizeofWrapper * k + i : Nat) := fun i hi =>
      grown_pool_of_lt (by simp only [sizeofWrapper]; omega)
    have hnew : ¬ p.poolLen ≤ k := Nat.not_le.2 hlt
    constructor
    · exact fun h => .inl fun i hi => (hkeep i hi).symm.trans (h i hi)
    · exact fun h i hi => (hkeep i hi).trans (h.resolve_right hnew i hi)
  · refine ⟨fun _ => .inr hge, fun _ i hi => grown_pool_of_le ?_ ?_⟩ <;>
      simp only [sizeofWrapper] <;> omega

/-- Setting and flipping bit 0 leaves flags in which it is clear. -/
theorem flags_restored {x : UInt8} (h : x &&& 1 = 0) : (x ||| 1) ^^^ 1 = x := by
  have hall : ∀ x : UInt8, x &&& 1 = 0 → (x ||| 1) ^^^ 1 = x := forall_byte (by decide +kernel)
  exact hall x h

/-- For a pool of any length from 1 on, with memory, `threadpool_queue_findspace` returns `0` with
the lowest slot that is free, and changes nothing; or all slots are used, `n` is the old length,
`pool_len` is doubled, the elements have the bytes that they had, and the new ones are free.
`pool_flags` is as before if bit 0 was clear. -/
theorem threadpoolQueueFindspace_lowest (p : PoolBytes) (fresh : Mem) (hpos : 1 ≤ p.poolLen) :
    let r := p.threadpoolQueueFindspace (some fresh)
    r.ret = 0 ∧ r.n < r.pool.poolLen ∧ (∀ k < r.n, argsNull p.pool k = false) ∧
      (r.n < p.poolLen ∧ argsNull p.pool r.n = true ∧ r.pool = p ∨
        r.n = p.poolLen ∧ r.pool.poolLen = 2 * p.poolLen ∧
          (∀ i : Int, 0 ≤ i → i < (sizeofWrapper * p.poolLen : Nat) → r.pool.pool i = p.pool i) ∧
          ∀ k, p.poolLen ≤ k → k < r.pool.poolLen → argsNull r.pool.pool k = true) ∧
      (p.poolFlags &&& 1 = 0 → r.pool.poolFlags = p.poolFlags) := by
  intro r
  obtain ⟨-, hle, hused, hfree⟩ := findArgsNull_spec p.pool p.poolLen 0
  have hr : r = _ := threadpoolQueueFindspace_eq p fresh
  clear_value r
  subst hr
  simp only
  split
  · next hfull =>
    refine ⟨trivial, ?_, fun k => hused k (Nat.zero_le k), .inr ⟨by omega, Nat.mul_comm _ _, ?_, ?_⟩,
      flags_restored⟩
    · simp only [grown]
      omega
    · exact fun i h0 hi => grown_pool_of_lt ⟨h0, hi⟩
    · intro k hk hlt
      rw [argsNull_grown hlt, decide_eq_true hk, Bool.or_true]
  · next hroom =>
    have hlt := Nat.not_le.1 hroom
    exact ⟨trivial, hlt, fun k => hused k (Nat.zero_le k), .inl ⟨hlt, hfree (by omega), rfl⟩,
      fun _ => rfl⟩

/-- Two slots that are both used: the third is found, behind them are two free slots where `realloc`
has left other bytes, and bit 2 of `pool_flags` is still set. -/
theorem threadpoolQueueFindspace_lowest_full :
    let r := (PoolBytes.mk 4 (fun _ => 1) 2).threadpoolQueueFindspace (some fun _ => 255)
    r.ret = 0 ∧ r.n = 2 ∧ r.pool.poolLen = 4 ∧
      (∀ i : Int, 0 ≤ i → i < 32 → r.pool.pool i = 1) ∧
      (∀ k, 2 ≤ k → k < 4 → argsNull r.pool.pool k = true) ∧ r.pool.poolFlags = 4 := by
  obtain ⟨hret, -, -, hfree | hfull, hflags⟩ :=
    threadpoolQueueFindspace_lowest ⟨4, fun _ => 1, 2⟩ (fun _ => 255) (by decide)
  · cases hfree.2.1
  · obtain ⟨hn, hlen, hkept, hnew⟩ := hfull
    rw [hlen] at hnew
    exact ⟨hret, hn, hlen, hkept, hnew, hflags rfl⟩

/-! ## The slots of the block -/

/-- The block has the elements of `q`: the same number, and an element is free in both or in none.
-/
structure Represents (p : PoolBytes) (q : Pool) : Prop where
  poolFlags : p.poolFlags = q.poolFlags
  poolLen : p.poolLen = q.poolLen
  length : q.pool.length = q.poolLen
  args : ∀ k < q.poolLen, argsNull p.pool k = (q.owner k).isNone

/-- Both searches find the same slot. Induction on the indices to go. -/
theorem Represents.find {q : Pool} (h : p.Represents q) (todo : Nat) : ∀ {n : Nat},
    n + todo = q.poolLen → findFree q.pool todo n = some (findArgsNull p.pool todo n) := by
  induction todo with
  | zero => exact fun _ => rfl
  | succ todo ih =>
    intro n hn
    have hlt : n < q.pool.length := by
      rw [h.length]
      omega
    have hargs := h.args n (by omega)
    rw [Pool.owner, List.getElem?_eq_getElem hlt, Option.bind_some] at hargs
    rw [findFree, findArgsNull, List.getElem?_eq_getElem hlt]
    simp only [hargs]
    split
    · rfl
    · exact ih (by omega)

/-- With memory, the function on bytes does what the function on slots does. -/
theorem Represents.findspace {q : Pool} (h : p.Represents q) (fresh : Mem) :
    ∃ q', MinervaBot.threadpoolQueueFindspace true q =
        some (q', some (p.threadpoolQueueFindspace (some fresh)).n) ∧
      (p.threadpoolQueueFindspace (some fresh)).pool.Represents q' := by
  have hfind := h.find q.poolLen (Nat.zero_add _)
  obtain ⟨hflags, hpoolLen, hlength, hargs⟩ := h
  rw [threadpoolQueueFindspace_eq, hpoolLen]
  by_cases hfull : q.poolLen ≤ findArgsNull p.pool q.poolLen 0
  · refine ⟨q.grown, threadpoolQueueFindspace_full hfind hfull, ?_⟩
    rw [if_pos hfull]
    refine ⟨?_, ?_, ?_, fun k hk => ?_⟩
    · simp only [grown, Pool.grown, hflags]
    · simp only [grown, Pool.grown, hpoolLen]
    · simp only [Pool.grown, List.length_append, List.length_replicate, hlength]
      omega
    · have hlt : k < p.poolLen * 2 := by rwa [hpoolLen]
      obtain ⟨-, -, -, howner, -⟩ := threadpoolQueueFindspace_spec hlength.le (by omega)
        (threadpoolQueueFindspace_full hfind hfull)
      rw [howner, argsNull_grown hlt, hpoolLen]
      rcases Nat.lt_or_ge k q.poolLen with hold | hnew
      · rw [hargs k hold, decide_eq_false (Nat.not_le.2 hold), Bool.or_false]
      · rw [decide_eq_true hnew, Bool.or_true, Pool.owner, List.getElem?_eq_none (by omega)]
        rfl
  · refine ⟨q, ?_, ?_⟩
    · rw [MinervaBot.threadpoolQueueFindspace, hfind, Option.map_some, if_neg hfull]
    · rw [if_neg hfull]
      exact ⟨hflags, hpoolLen, hlength, hargs⟩

end PoolBytes

end MinervaBot
