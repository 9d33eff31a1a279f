import Mathlib.Algebra.BigOperators.Fin
import Mathlib.Tactic.Abel
import MinervaBot.Lib.Heap
import MinervaBot.Lib.Trie

/-!
# Tries on a heap

The nodes of a trie as blocks of a heap, each with a value and a pointer for every letter. `TrieAt`
relates a pointer into the heap to the trie that it stands for, with the blocks of its nodes, and
`TrieIn` says that a heap has such a trie beside other blocks. `TrieIn.split` makes a child of a
node a trie of its own, with the node among the other blocks, and `TrieIn.join` puts the two
together again: so a walk that allocates, changes or frees something below a node is an induction
over the word that it follows. `Shallow` bounds the words that lead to nodes, and with it how deep a
recursion over the nodes gets.
-/

namespace Lib

open Function (update)

/-- A node on the heap. -/
structure TrieNode (A V : Type) where
  value : Option V := none
  children : A → Ptr := fun _ => none

variable {A V : Type}

/-- The pointer points to the trie, whose nodes are the blocks. -/
inductive TrieAt [Fintype A] : Trie A V → Ptr → Blocks (TrieNode A V) → Prop
  | null : TrieAt .null none 0
  | node (p : Nat) {value : Option V} {children : A → Trie A V} {cs : A → Ptr}
      {parts : A → Blocks (TrieNode A V)} (h : ∀ a, TrieAt (children a) (cs a) (parts a)) :
    TrieAt (.node value children) (some p) ({(p, ⟨value, cs⟩)} + ∑ a, parts a)

namespace TrieAt

variable [Fintype A] {value : Option V} {children : A → Trie A V} {q : Ptr}
  {B : Blocks (TrieNode A V)}

/-- The pointer to no node is `NULL`. -/
theorem null_inv (ht : TrieAt (.null : Trie A V) q B) : q = none ∧ B = 0 := by
  cases ht
  exact ⟨rfl, rfl⟩

/-- The parts of a node. -/
theorem node_inv (ht : TrieAt (.node value children) q B) :
    ∃ (p : Nat) (cs : A → Ptr) (parts : A → Blocks (TrieNode A V)),
    q = some p ∧ B = {(p, ⟨value, cs⟩)} + ∑ a, parts a ∧
      ∀ a, TrieAt (children a) (cs a) (parts a) := by
  cases ht with
  | node p h => exact ⟨p, _, _, rfl, rfl, h⟩

/-- `NULL` points to no node. -/
theorem eq_null {t : Trie A V} (ht : TrieAt t none B) : t = .null := by
  cases ht
  rfl

/-- Another pointer points to a node. -/
theorem exists_node {t : Trie A V} {p : Nat} (ht : TrieAt t (some p) B) :
    ∃ value children, t = .node value children := by
  cases ht
  exact ⟨_, _, rfl⟩

/-- A node without children is one block. -/
theorem leaf (p : Nat) (value : Option V) :
    TrieAt (.node value fun _ : A => .null) (some p) {(p, { value })} := by
  have h : TrieAt (.node value fun _ : A => .null) (some p) _ := node p fun _ => null
  rwa [Finset.sum_const_zero, add_zero] at h

/-- A node without children is one block. -/
theorem leaf_inv (ht : TrieAt (.node value fun _ : A => .null) q B) :
    ∃ p, q = some p ∧ B = {(p, { value })} := by
  obtain ⟨p, cs, parts, rfl, rfl, h⟩ := ht.node_inv
  obtain rfl : cs = fun _ => none := funext fun a => (h a).null_inv.1
  obtain rfl : parts = fun _ => 0 := funext fun a => (h a).null_inv.2
  exact ⟨p, rfl, by rw [Finset.sum_const_zero, add_zero]⟩

/-- The root of a trie and the rest of it, which any value may stand above. -/
theorem root (ht : TrieAt (.node value children) q B) : ∃ p cs rest,
    q = some p ∧ B = {(p, ⟨value, cs⟩)} + rest ∧
      ∀ value', TrieAt (.node value' children) (some p) ({(p, ⟨value', cs⟩)} + rest) := by
  obtain ⟨p, cs, parts, rfl, rfl, h⟩ := ht.node_inv
  exact ⟨p, cs, _, rfl, rfl, fun _ => node p h⟩

variable [DecidableEq A]

/-- What a node is without its child for a letter: with a child there it is a node again. -/
structure Hole (p : Nat) (value : Option V) (children : A → Trie A V) (cs : A → Ptr) (a : A)
    (rest : Blocks (TrieNode A V)) : Prop where
  fill : ∀ {t c B₁}, TrieAt t c B₁ → TrieAt (.node value (update children a t)) (some p)
    ({(p, ⟨value, update cs a c⟩)} + (B₁ + rest))

/-- A single child of a node. -/
theorem focus (ht : TrieAt (.node value children) q B) (a : A) : ∃ p cs B₁ rest,
    q = some p ∧ B = {(p, ⟨value, cs⟩)} + (B₁ + rest) ∧ TrieAt (children a) (cs a) B₁ ∧
      Hole p value children cs a rest := by
  obtain ⟨p, cs, parts, rfl, rfl, h⟩ := ht.node_inv
  refine ⟨p, cs, parts a, ∑ b ∈ Finset.univ \ {a}, parts b, rfl, ?_, h a, ⟨?_⟩⟩
  · rw [← Finset.sum_update_of_mem (Finset.mem_univ a) parts, Function.update_eq_self]
  · intro t c B₁ hchild
    rw [← Finset.sum_update_of_mem (Finset.mem_univ a) parts B₁]
    refine node p fun b => ?_
    rcases eq_or_ne b a with rfl | hb
    · simpa using hchild
    · simpa [hb] using h b

end TrieAt

/-! ## Tries in a heap -/

/-- The heap has the trie at `q`, and the blocks `frame` beside its nodes. -/
def TrieIn [Fintype A] (t : Trie A V) (q : Ptr) (frame : Blocks (TrieNode A V))
    (h : Heap (TrieNode A V)) : Prop :=
  ∃ B, TrieAt t q B ∧ h.Is (B + frame)

namespace TrieIn

variable [Fintype A] {t : Trie A V} {value : Option V} {children : A → Trie A V} {p : Nat} {q : Ptr}
  {frame rest : Blocks (TrieNode A V)} {h : Heap (TrieNode A V)} {cs : A → Ptr} {a : A}
  {node : TrieNode A V}

/-- `NULL` stands for the empty tree. -/
theorem eq_null (ht : TrieIn t none frame h) : t = .null := by
  obtain ⟨B, hB, -⟩ := ht
  exact hB.eq_null

/-- A pointer to a block stands for a node. -/
theorem exists_node (ht : TrieIn t (some p) frame h) :
    ∃ value children, t = .node value children := by
  obtain ⟨B, hB, -⟩ := ht
  exact hB.exists_node

/-- The root is read and its value written. -/
theorem root (ht : TrieIn (.node value children) (some p) frame h) : ∃ cs,
    (Heap.load some (some p)).Yields h (fun node h' => ⟨value, cs⟩ = node ∧ h = h') ∧
      ∀ value', (Heap.store (some p) ⟨value', cs⟩).Yields h fun _ h' =>
        TrieIn (.node value' children) (some p) frame h' := by
  obtain ⟨B, hB, hM⟩ := ht
  obtain ⟨p', cs, rest, hp, rfl, hroot⟩ := hB.root
  cases hp
  refine ⟨cs, Heap.load_yields hM (o := ⟨value, cs⟩) (by simp) rfl, fun value' => ?_⟩
  refine (Heap.store_yields (hM.of_eq (add_assoc _ _ _)) _).mono fun _ h' hM' => ?_
  exact ⟨_, hroot value', hM'.of_eq (add_assoc _ _ _).symm⟩

/-- The parent is read. -/
theorem load_yields (ht : TrieIn t q ({(p, node)} + frame) h) :
    (Heap.load some (some p)).Yields h fun node' h' => node = node' ∧ h = h' := by
  obtain ⟨B, hB, hM⟩ := ht
  exact Heap.load_yields hM (o := node) (by simp) rfl

/-- The parent is assigned to. -/
theorem store_yields (ht : TrieIn t q ({(p, node)} + frame) h) (node' : TrieNode A V) :
    (Heap.store (some p) node').Yields h fun _ h' => TrieIn t q ({(p, node')} + frame) h' := by
  obtain ⟨B, hB, hM⟩ := ht
  refine (Heap.store_yields (hM.of_eq (add_left_comm _ _ _)) node').mono fun _ h' hM' => ?_
  exact ⟨B, hB, hM'.of_eq (add_left_comm _ _ _)⟩

/-- A node is allocated. -/
theorem malloc_yields (ht : TrieIn (.null : Trie A V) q frame h) :
    (Heap.malloc true {}).Yields h fun q' h' => TrieIn (.empty : Trie A V) q' frame h' := by
  obtain ⟨B, hB, hM⟩ := ht
  obtain ⟨rfl, rfl⟩ := hB.null_inv
  refine (Heap.malloc_yields hM _).mono ?_
  rintro _ h' ⟨c, rfl, hM'⟩
  exact ⟨_, .leaf c none, hM'.of_eq (by rw [zero_add])⟩

/-- A node without children as freed. -/
theorem free_yields (ht : TrieIn t.cut (some p) frame h) :
    (Heap.free (some p)).Yields h fun _ h' => TrieIn (.null : Trie A V) none frame h' := by
  obtain ⟨value, children, hnode⟩ := ht.exists_node
  obtain ⟨B, hB, hM⟩ := ht
  cases t with
  | null => cases hnode
  | node value children =>
    obtain ⟨p', hp, rfl⟩ := hB.leaf_inv
    cases hp
    exact (Heap.free_yields hM).mono fun _ h' hM' => ⟨0, .null, hM'.of_eq (zero_add _).symm⟩

variable [DecidableEq A]

/-- A child is a trie of its own, beside its parent and what else there is. -/
theorem split (ht : TrieIn (.node value children) (some p) frame h) (a : A) :
    ∃ cs rest, TrieIn (children a) (cs a) ({(p, ⟨value, cs⟩)} + (rest + frame)) h ∧
      TrieAt.Hole p value children cs a rest := by
  obtain ⟨B, hB, hM⟩ := ht
  obtain ⟨p', cs, B₁, rest, hp, rfl, hchild, hole⟩ := hB.focus a
  cases hp
  exact ⟨cs, rest, ⟨B₁, hchild, hM.of_eq (by abel)⟩, hole⟩

/-- A trie whose parent points to it is the child of its parent. -/
theorem join (hole : TrieAt.Hole p value children cs a rest)
    (ht : TrieIn t q ({(p, ⟨value, update cs a q⟩)} + (rest + frame)) h) :
    TrieIn (.node value (update children a t)) (some p) frame h := by
  obtain ⟨B, hB, hM⟩ := ht
  exact ⟨_, hole.fill hB, hM.of_eq (by abel)⟩

/-- A child is put back where it was. -/
theorem join_self (hole : TrieAt.Hole p value children cs a rest)
    (ht : TrieIn t (cs a) ({(p, ⟨value, cs⟩)} + (rest + frame)) h) :
    TrieIn (.node value (update children a t)) (some p) frame h :=
  .join hole (by rwa [Function.update_eq_self])

end TrieIn

/-! ## Depth -/

namespace Trie

/-- Every word that leads to a node is shorter than this. -/
inductive Shallow : Nat → Trie A V → Prop
  | null (n : Nat) : Shallow n .null
  | node {n : Nat} {value : Option V} {children : A → Trie A V} (h : ∀ a, Shallow n (children a)) :
    Shallow (n + 1) (.node value children)

/-- An empty node is a tree of depth one. -/
theorem shallow_empty (n : Nat) : (empty : Trie A V).Shallow (n + 1) :=
  .node fun _ => .null n

/-- An allocated node is no deeper than a tree may be that may have nodes. -/
theorem Shallow.grow {n : Nat} {t : Trie A V} (h : t.Shallow (n + 1)) (alloc : Bool) :
    (t.grow alloc).Shallow (n + 1) := by
  cases h with
  | null =>
    cases alloc with
    | false => exact .null _
    | true => exact shallow_empty n
  | node h => exact .node h

/-- The children of a node are less deep. -/
theorem Shallow.children {n : Nat} {value : Option V} {children : A → Trie A V}
    (h : Shallow (n + 1) (.node value children)) (a : A) : (children a).Shallow n := by
  cases h with
  | node h => exact h a

/-- With another child that is shallow enough. -/
theorem Shallow.setChild [DecidableEq A] {n : Nat} {value : Option V} {children : A → Trie A V}
    {t : Trie A V} (h : Shallow (n + 1) (.node value children)) (a : A) (ht : t.Shallow n) :
    Shallow (n + 1) (.node value (update children a t)) := by
  refine .node fun b => ?_
  rcases eq_or_ne b a with rfl | hb
  · rwa [Function.update_self]
  · rw [Function.update_of_ne hb]
    exact h.children b

end Trie

end Lib
