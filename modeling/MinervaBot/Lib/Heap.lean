import Mathlib.Algebra.BigOperators.Group.Finset.Basic
import Mathlib.Algebra.BigOperators.Group.Multiset.Basic
import Mathlib.Algebra.Order.Group.Multiset
import MinervaBot.Lib.Exec

/-!
# A heap of blocks

A heap has a block at some of its addresses. `malloc` never gives an address out twice, so that a
pointer into a block that was freed points to nothing: `load`, `store` and `free` are undefined
through such a pointer, as they are through `NULL`, but for a `free` of `NULL`.

`Heap.Is` describes a whole heap by the multiset of its blocks. Multisets add up, so what a call
does not touch is a summand of the blocks before and after it. The rules say what each operation
does to the blocks; who has shown that a sequence of calls takes the blocks back to what they were
has shown that it frees what it allocates, once, and nothing else (`Heap.Is.block_eq`).
-/

namespace Lib

/-- Blocks at the addresses below `next`. -/
structure Heap (O : Type) where
  block : Nat → Option O
  next : Nat
  block_of_le : ∀ a, next ≤ a → block a = none

/-- A pointer, `none` for `NULL`. -/
abbrev Ptr := Option Nat

/-- Blocks with their addresses. -/
abbrev Blocks (O : Type) := Multiset (Nat × O)

namespace Heap

variable {O α : Type}

/-- The heap without blocks. -/
def empty : Heap O where
  block _ := none
  next := 0
  block_of_le _ _ := rfl

/-- Change what is at an address. -/
def put (h : Heap O) (a : Nat) (o : Option O) : Heap O where
  block b := if b = a then o else h.block b
  next := max h.next (a + 1)
  block_of_le b hb := by
    rw [if_neg (by omega)]
    exact h.block_of_le b (by omega)

/-- The blocks after a change of one. -/
@[simp] theorem block_put (h : Heap O) (a : Nat) (o : Option O) :
    (h.put a o).block = Function.update h.block a o := by
  funext b
  rw [put, Function.update_apply]

/-- A `malloc` that succeeds or not, of a block with the contents given. -/
def malloc (ok : Bool) (o : O) : Exec (Heap O) Ptr := fun h =>
  if ok then (.returned (some h.next), h.put h.next (some o)) else (.returned none, h)

/-- What a pointer points to, which has to be of the kind given. -/
def load (kind : O → Option α) (p : Ptr) : Exec (Heap O) α := fun h =>
  (.ofOption ((p.bind h.block).bind kind), h)

/-- Replace what a pointer points to. -/
def store (p : Ptr) (o : O) : Exec (Heap O) Unit := fun h =>
  match p with
  | some a => if (h.block a).isSome then (.returned (), h.put a (some o)) else (.undefined, h)
  | none => (.undefined, h)

/-- `free`. -/
def free (p : Ptr) : Exec (Heap O) Unit := fun h =>
  match p with
  | some a => if (h.block a).isSome then (.returned (), h.put a none) else (.undefined, h)
  | none => (.returned (), h)

/-- The blocks of the heap are these. -/
structure Is (h : Heap O) (M : Blocks O) : Prop where
  nodup : (M.map Prod.fst).Nodup
  block_iff : ∀ a o, h.block a = some o ↔ (a, o) ∈ M

variable {h h' : Heap O} {M : Blocks O} {a : Nat} {o o' : O}

/-- The blocks up to equality. -/
theorem Is.of_eq {N : Blocks O} (hM : h.Is M) (heq : M = N) : h.Is N := heq ▸ hM

/-- Two heaps with the same blocks have the same at every address. -/
theorem Is.block_eq (hM : h.Is M) (hM' : h'.Is M) : h'.block = h.block := by
  funext a
  refine Option.ext fun o => ?_
  rw [hM'.block_iff, hM.block_iff]

/-- Every heap has its blocks. -/
theorem exists_is (h : Heap O) : ∃ M, h.Is M := by
  have hfst : ((List.range h.next).filterMap fun a => (h.block a).map (a, ·)).map Prod.fst =
      (List.range h.next).filter fun a => (h.block a).isSome := by
    rw [List.map_filterMap, ← List.filterMap_eq_filter]
    congr 1
    funext a
    cases hb : h.block a <;> simp [Option.guard, hb]
  refine ⟨((List.range h.next).filterMap fun a => (h.block a).map (a, ·) : List (Nat × O)), ?_, ?_⟩
  · rw [Multiset.map_coe, hfst, Multiset.coe_nodup]
    exact List.nodup_range.filter _
  · intro a o
    have hlt : h.block a = some o → a < h.next := fun hb => by
      by_contra hle
      rw [h.block_of_le a (by omega)] at hb
      cases hb
    simp only [Multiset.mem_coe, List.mem_filterMap, List.mem_range, Option.map_eq_some_iff,
      Prod.mk.injEq]
    constructor
    · exact fun hb => ⟨a, hlt hb, o, hb, rfl, rfl⟩
    · rintro ⟨b, -, o', hb, rfl, rfl⟩
      exact hb

/-- A block and the others. -/
theorem Is.exists_add (hM : h.Is M) (hblock : h.block a = some o) : ∃ N, h.Is ({(a, o)} + N) := by
  obtain ⟨N, rfl⟩ := Multiset.exists_cons_of_mem ((hM.block_iff a o).1 hblock)
  exact ⟨N, hM⟩

/-- The address of a block is that of no other. -/
theorem Is.not_mem (hM : h.Is ({(a, o)} + M)) : ∀ o', (a, o') ∉ M := by
  intro o' hmem
  have hnodup := hM.nodup
  rw [Multiset.singleton_add, Multiset.map_cons, Multiset.nodup_cons] at hnodup
  exact hnodup.1 (Multiset.mem_map.2 ⟨(a, o'), hmem, rfl⟩)

/-- What is left when a block goes. -/
theorem Is.remove (hM : h.Is ({(a, o)} + M)) : (h.put a none).Is M := by
  have hnodup := hM.nodup
  rw [Multiset.singleton_add, Multiset.map_cons, Multiset.nodup_cons] at hnodup
  refine ⟨hnodup.2, fun b o' => ?_⟩
  rw [put]
  dsimp only
  split
  · next hb =>
    subst hb
    exact ⟨nofun, fun hmem => absurd hmem (hM.not_mem o')⟩
  · next hb =>
    rw [hM.block_iff, Multiset.mem_add, Multiset.mem_singleton, Prod.mk.injEq]
    exact or_iff_right fun heq => hb heq.1

/-- A block comes where none is. -/
theorem Is.add (hM : h.Is M) (hnone : h.block a = none) (o : O) :
    (h.put a (some o)).Is ({(a, o)} + M) := by
  have hnot : ∀ o', (a, o') ∉ M := fun o' hmem => by
    rw [(hM.block_iff a o').2 hmem] at hnone
    cases hnone
  constructor
  · rw [Multiset.singleton_add, Multiset.map_cons, Multiset.nodup_cons]
    refine ⟨fun hmem => ?_, hM.nodup⟩
    obtain ⟨⟨b, o'⟩, hblock, rfl : b = a⟩ := Multiset.mem_map.1 hmem
    exact hnot o' hblock
  · intro b o'
    rw [put, Multiset.mem_add, Multiset.mem_singleton, Prod.mk.injEq]
    dsimp only
    split
    · next hb =>
      subst hb
      simp [hnot, eq_comm]
    · next hb => simp [hb, hM.block_iff]

/-- The second of two changes at an address counts. -/
theorem put_put (h : Heap O) (a : Nat) (o o' : Option O) : ((h.put a o).put a o') = h.put a o' := by
  simp only [put, Heap.mk.injEq]
  refine ⟨?_, by omega⟩
  funext b
  split <;> rfl

/-- A block is replaced. -/
theorem Is.replace (hM : h.Is ({(a, o)} + M)) (o' : O) :
    (h.put a (some o')).Is ({(a, o')} + M) := by
  rw [← put_put h a none]
  exact hM.remove.add (by simp [put]) o'

/-- A block of the sum is at its address. -/
theorem Is.block_eq_some (hM : h.Is ({(a, o)} + M)) : h.block a = some o :=
  (hM.block_iff a o).2 (Multiset.mem_add.2 (.inl (Multiset.mem_singleton_self _)))

/-! ## Rules -/

/-- The rule for an allocation. -/
theorem malloc_yields (hM : h.Is M) (o : O) :
    (malloc true o).Yields h fun p h' => ∃ a, p = some a ∧ h'.Is ({(a, o)} + M) :=
  ⟨_, _, rfl, _, rfl, hM.add (h.block_of_le _ (Nat.le_refl _)) o⟩

/-- The rule for an allocation that fails. -/
theorem malloc_false_yields (o : O) : (malloc false o).Yields h fun p h' => p = none ∧ h = h' :=
  ⟨_, _, rfl, rfl, rfl⟩

/-- The rule for a read. -/
theorem load_yields {kind : O → Option α} {x : α} (hM : h.Is M) (hmem : (a, o) ∈ M)
    (hkind : kind o = some x) : (load kind (some a)).Yields h fun y h' => x = y ∧ h = h' := by
  refine ⟨x, h, ?_, rfl, rfl⟩
  rw [load, Option.bind_some, (hM.block_iff a o).2 hmem, Option.bind_some, hkind]
  rfl

/-- The rule for a write. -/
theorem store_yields (hM : h.Is ({(a, o)} + M)) (o' : O) :
    (store (some a) o').Yields h fun _ h' => h'.Is ({(a, o')} + M) := by
  refine ⟨(), h.put a (some o'), ?_, hM.replace o'⟩
  simp [store, hM.block_eq_some]

/-- The rule for a `free`. -/
theorem free_yields (hM : h.Is ({(a, o)} + M)) :
    (free (some a)).Yields h fun _ h' => h'.Is M := by
  refine ⟨(), h.put a none, ?_, hM.remove⟩
  simp [free, hM.block_eq_some]

/-- A `free` of `NULL` does nothing. -/
theorem free_null_yields : (free none).Yields h fun _ h' => h = h' :=
  ⟨(), h, rfl, rfl⟩

end Heap

end Lib
