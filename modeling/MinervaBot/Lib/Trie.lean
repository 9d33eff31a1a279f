import Mathlib.Data.List.Nodup
import Mathlib.Data.Set.Image
import Mathlib.Logic.Function.Basic

/-!
# Tries

A trie over an alphabet `A` as a tree of nodes, each with a value or none and a child, possibly
`null`, for every letter. `Trie.find` reads it as a partial map from words. What a walk does below a
node is carried to the node by `find_setChild_of_eq` and `find_setChild_update`: replacing a child
by one with the same map changes nothing, and by one with an update of the map at `w` updates the
map of the node at `a :: w`. An empty node has the same map as `null` (`find_grow`), so allocating a
path binds nothing; `nodes` are the words that lead to a node, with or without a value.
`descendants` lists the nodes below the root in the order in which a recursion that frees them
bottom-up meets them, each exactly once (`nodup_descendants`, `mem_descendants`).
-/

namespace Lib

/-- A pointer to a node of a trie. -/
inductive Trie (A V : Type) where
  | null
  | node (value : Option V) (children : A → Trie A V)

namespace Trie

variable {A V : Type}

/-- A node without value and children. -/
def empty : Trie A V :=
  .node none fun _ => .null

/-- The trie as a partial map. -/
def find : Trie A V → List A → Option V
  | .null, _ => none
  | .node value _, [] => value
  | .node _ children, a :: w => find (children a) w

/-- Allocate an empty node at `null`, if the allocation succeeds. -/
def grow (alloc : Bool) : Trie A V → Trie A V
  | .null => if alloc then empty else .null
  | .node value children => .node value children

/-- No word has a value at `null`. -/
@[simp] theorem find_null : find (.null : Trie A V) = fun _ => none := by
  funext w; cases w <;> rfl

/-- No word has a value at an empty node. -/
@[simp] theorem find_empty : find (empty : Trie A V) = fun _ => none := by
  funext w
  cases w with
  | nil => rfl
  | cons a w => simp [empty, find]

/-- Allocating a node binds nothing. -/
@[simp] theorem find_grow (alloc : Bool) (t : Trie A V) : (t.grow alloc).find = t.find := by
  cases t with
  | null => cases alloc <;> simp [grow]
  | node value children => rfl

/-- There is no node if there was none and the allocation failed. -/
theorem grow_eq_null_iff {alloc : Bool} {t : Trie A V} :
    t.grow alloc = .null ↔ t = .null ∧ alloc = false := by
  cases t with
  | null => cases alloc <;> simp [grow, empty]
  | node value children => simp [grow]

/-- Cut off everything below the root. -/
def cut : Trie A V → Trie A V
  | .null => .null
  | .node value _ => .node value fun _ => .null

/-- The root keeps its value. -/
theorem find_cut_nil (t : Trie A V) : t.cut.find [] = t.find [] := by
  cases t <;> rfl

/-- No other word has a value. -/
theorem find_cut_of_ne_nil (t : Trie A V) {w : List A} (hw : w ≠ []) : t.cut.find w = none := by
  obtain ⟨a, w, rfl⟩ := List.exists_cons_of_ne_nil hw
  cases t <;> simp [cut, find]

/-! ## The nodes below the root -/

/-- The node that a word leads to. -/
def sub : Trie A V → List A → Trie A V
  | t, [] => t
  | .null, _ :: _ => .null
  | .node _ children, a :: w => sub (children a) w

/-- The words that lead to a node. -/
def nodes (t : Trie A V) : Set (List A) :=
  {w | t.sub w ≠ .null}

/-- The empty word leads to the root. -/
theorem nil_mem_nodes {t : Trie A V} : [] ∈ t.nodes ↔ t ≠ .null := by
  cases t <;> simp [nodes, sub]

/-- `null` has no nodes. -/
@[simp] theorem nodes_null : nodes (.null : Trie A V) = ∅ := by
  ext w
  cases w <;> simp [nodes, sub]

/-- A node is its own root. -/
theorem nil_mem_nodes_node (value : Option V) (children : A → Trie A V) :
    [] ∈ (node value children).nodes :=
  nil_mem_nodes.2 (by simp)

/-- The nodes below a node. -/
@[simp] theorem cons_mem_nodes {value : Option V} {children : A → Trie A V} {a : A} {w : List A} :
    a :: w ∈ (node value children).nodes ↔ w ∈ (children a).nodes :=
  Iff.rfl

/-- Setting the value of a node. -/
theorem nodes_setValue (value v : Option V) (children : A → Trie A V) :
    (node v children).nodes = (node value children).nodes := by
  ext w
  cases w <;> simp [nil_mem_nodes]

/-- Allocating a node at `null`. -/
theorem mem_nodes_grow {alloc : Bool} {t : Trie A V} {w : List A} :
    w ∈ (t.grow alloc).nodes ↔ w ∈ t.nodes ∨ (alloc = true ∧ w = []) := by
  cases t with
  | null =>
    cases alloc with
    | false => simp [grow]
    | true =>
      cases w with
      | nil => simp [grow, empty, nil_mem_nodes]
      | cons a w => simp [grow, empty]
  | node value children =>
    refine ⟨.inl, ?_⟩
    rintro (h | ⟨-, rfl⟩)
    · exact h
    · exact nil_mem_nodes_node value children

/-- The nodes on the way to a node. -/
theorem mem_nodes_of_prefix {u w : List A} :
    ∀ {t : Trie A V}, u <+: w → w ∈ t.nodes → u ∈ t.nodes := by
  induction u generalizing w with
  | nil =>
    rintro (_ | ⟨value, children⟩) - hw
    · simp at hw
    · exact nil_mem_nodes_node value children
  | cons a u ih =>
    rintro (_ | ⟨value, children⟩) ⟨v, rfl⟩ hw
    · simp at hw
    · exact ih ⟨v, rfl⟩ (cons_mem_nodes.1 hw)

/-- A word with a value has a node. -/
theorem mem_nodes_of_find {t : Trie A V} :
    ∀ {w : List A} {v : V}, t.find w = some v → w ∈ t.nodes := by
  induction t with
  | null => simp
  | node value children ih =>
    intro w v hv
    cases w with
    | nil => exact nil_mem_nodes_node value children
    | cons a w => exact ih a hv

/-- The nodes below the root, as the words that lead to them: each behind those below it, the
children of a node in the order of `letters`. -/
def descendants (letters : List A) : Trie A V → List (List A)
  | .null => []
  | .node _ children => letters.flatMap fun a =>
    match children a with
    | .null => []
    | .node _ _ => (descendants letters (children a)).map (a :: ·) ++ [[a]]

/-- The nodes below and including a child, as words of the parent. -/
theorem mem_child_descendants {letters : List A} {t : Trie A V} {a : A} {w : List A} :
    (w ∈ match t with
      | .null => []
      | .node _ _ => (descendants letters t).map (a :: ·) ++ [[a]]) ↔
      ∃ w', w = a :: w' ∧ t ≠ .null ∧ (w' ∈ descendants letters t ∨ w' = []) := by
  cases t with
  | null => simp
  | node value children =>
    simp only [List.mem_append, List.mem_map, List.mem_singleton, ne_eq, reduceCtorEq,
      not_false_eq_true, true_and]
    constructor
    · rintro (⟨w', hw', rfl⟩ | rfl)
      · exact ⟨w', rfl, .inl hw'⟩
      · exact ⟨[], rfl, .inr rfl⟩
    · rintro ⟨w', rfl, hw' | rfl⟩
      · exact .inl ⟨w', hw', rfl⟩
      · exact .inr rfl

/-- The root is not below itself. -/
theorem nil_notMem_descendants {letters : List A} (t : Trie A V) :
    [] ∉ descendants letters t := by
  cases t with
  | null => simp [descendants]
  | node value children =>
    intro h
    obtain ⟨a, -, h⟩ := List.mem_flatMap.1 h
    obtain ⟨w, hw, -⟩ := mem_child_descendants.1 h
    cases hw

/-- `descendants` lists the nodes that a nonempty word leads to. -/
theorem mem_descendants {letters : List A} (hall : ∀ a, a ∈ letters) (t : Trie A V) :
    ∀ {w : List A}, w ∈ descendants letters t ↔ w ≠ [] ∧ t.sub w ≠ .null := by
  induction t with
  | null =>
    intro w
    cases w <;> simp [descendants, sub]
  | node value children ih =>
    intro w
    simp only [descendants, List.mem_flatMap, hall, true_and, mem_child_descendants]
    constructor
    · rintro ⟨a, w', rfl, hne, hw'⟩
      refine ⟨List.cons_ne_nil a w', ?_⟩
      rcases hw' with hw' | rfl
      · exact ((ih a).1 hw').2
      · simpa [sub] using hne
    · rintro ⟨hw, hsub⟩
      obtain ⟨a, w', rfl⟩ := List.exists_cons_of_ne_nil hw
      refine ⟨a, w', rfl, fun hnull => ?_, ?_⟩
      · rw [sub, hnull] at hsub
        cases w' <;> exact hsub rfl
      · by_cases hw' : w' = []
        · exact .inr hw'
        · exact .inl ((ih a).2 ⟨hw', hsub⟩)

/-- `descendants` lists no node twice. -/
theorem nodup_descendants {letters : List A} (hnodup : letters.Nodup) (t : Trie A V) :
    (descendants letters t).Nodup := by
  induction t with
  | null => exact List.nodup_nil
  | node value children ih =>
    rw [descendants, List.nodup_flatMap]
    constructor
    · intro a _
      split
      · exact List.nodup_nil
      · refine List.nodup_append.2 ⟨(ih a).map (List.cons_injective), by simp, ?_⟩
        intro w hw _ hw' heq
        obtain ⟨w', hmem, rfl⟩ := List.mem_map.1 hw
        obtain rfl := List.mem_singleton.1 hw'
        obtain ⟨-, rfl⟩ := List.cons.inj heq
        exact nil_notMem_descendants _ hmem
    · refine hnodup.imp fun hab => ?_
      intro w ha hb
      obtain ⟨w₁, rfl, -, -⟩ := mem_child_descendants.1 ha
      obtain ⟨w₂, heq, -, -⟩ := mem_child_descendants.1 hb
      exact hab (List.cons.inj heq).1

/-! ## Replacing a child -/

variable [DecidableEq A]

/-- Replacing a child by one with the same map. -/
theorem find_setChild_of_eq {value : Option V} {children : A → Trie A V} {a : A} {t : Trie A V}
    (h : t.find = (children a).find) :
    (node value (Function.update children a t)).find = (node value children).find := by
  funext w
  cases w with
  | nil => rfl
  | cons b w =>
    by_cases hb : b = a
    · subst hb; simp [find, h]
    · simp [find, hb]

/-- Replacing a child by one with an update of its map. -/
theorem find_setChild_update {value : Option V} {children : A → Trie A V} {a : A} {t : Trie A V}
    {w : List A} {v : Option V} (h : t.find = Function.update (children a).find w v) :
    (node value (Function.update children a t)).find =
      Function.update (node value children).find (a :: w) v := by
  funext w'
  cases w' with
  | nil => simp [find]
  | cons b w' =>
    by_cases hb : b = a
    · subst hb
      by_cases hw : w' = w
      · subst hw; simp [find, h]
      · simp [find, h, hw]
    · simp [find, hb]

/-- Replacing a child by one with more nodes. -/
theorem nodes_setChild {value : Option V} {children : A → Trie A V} {a : A} {t : Trie A V}
    {ws : Set (List A)} (h : t.nodes = (children a).nodes ∪ ws) :
    (node value (Function.update children a t)).nodes =
      (node value children).nodes ∪ (a :: ·) '' ws := by
  ext w
  cases w with
  | nil => simp [nil_mem_nodes]
  | cons b w =>
    by_cases hb : b = a
    · subst hb; simp [h]
    · simp [hb, Ne.symm hb]

/-- Replacing a child by one with the same nodes. -/
theorem nodes_setChild_of_eq {value : Option V} {children : A → Trie A V} {a : A} {t : Trie A V}
    (h : t.nodes = (children a).nodes) :
    (node value (Function.update children a t)).nodes = (node value children).nodes := by
  rw [nodes_setChild (h.trans (Set.union_empty _).symm), Set.image_empty, Set.union_empty]

/-- Setting the value of a node. -/
theorem find_setValue (value v : Option V) (children : A → Trie A V) :
    (node v children).find = Function.update (node value children).find [] v := by
  funext w
  cases w <;> simp [find]

end Trie

end Lib
