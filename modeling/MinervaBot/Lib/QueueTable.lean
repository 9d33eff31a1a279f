import MinervaBot.Lib.Run
import Mathlib.Logic.Function.Basic
import Mathlib.Data.List.Nodup

/-!
# Tables of queues

A table that gives each key a FIFO queue of values, its operations as a labelled step relation
(`QueueTable.Step`), and association lists with repeated keys as the finite representation of such
a table: `queueOf k l` is the queue that the list `l` gives the key `k`. Appending a pair enqueues,
and deleting the first pair of a key dequeues; neither touches another key.
-/

namespace Lib

/-! ## Association lists with repeated keys -/

section
variable {K V : Type} [DecidableEq K]

/-- The values of the pairs with key `k`, in order. -/
def queueOf (k : K) (l : List (K × V)) : List V :=
  (l.filter (·.1 = k)).map (·.2)

@[simp] theorem queueOf_nil (k : K) : queueOf k ([] : List (K × V)) = [] := rfl

@[simp] theorem queueOf_append (k : K) (l l' : List (K × V)) :
    queueOf k (l ++ l') = queueOf k l ++ queueOf k l' := by
  simp [queueOf]

@[simp] theorem queueOf_cons_self (k : K) (v : V) (l : List (K × V)) :
    queueOf k ((k, v) :: l) = v :: queueOf k l := by
  simp [queueOf]

theorem queueOf_cons_of_ne {k : K} {p : K × V} (h : p.1 ≠ k) (l : List (K × V)) :
    queueOf k (p :: l) = queueOf k l := by
  simp [queueOf, h]

/-- A key that no pair has gets the empty queue, and only such a key does. -/
theorem queueOf_eq_nil_iff {k : K} {l : List (K × V)} : queueOf k l = [] ↔ ∀ p ∈ l, p.1 ≠ k := by
  simp [queueOf, List.filter_eq_nil_iff]

/-- The length of a key's queue is the number of its pairs. -/
theorem length_queueOf (k : K) (l : List (K × V)) :
    (queueOf k l).length = l.countP (·.1 = k) := by
  simp [queueOf, List.countP_eq_length_filter]

/-- A list splits at the first pair of a key it has. -/
theorem exists_first_pair {k : K} :
    ∀ {l : List (K × V)}, queueOf k l ≠ [] →
      ∃ pre v post, l = pre ++ (k, v) :: post ∧ ∀ p ∈ pre, p.1 ≠ k
  | [], h => absurd rfl h
  | (k', v) :: l, h => by
    by_cases hk : k' = k
    · exact ⟨[], v, l, by simp [hk], by simp⟩
    · rw [queueOf_cons_of_ne hk] at h
      obtain ⟨pre, w, post, rfl, hpre⟩ := exists_first_pair h
      refine ⟨(k', v) :: pre, w, post, rfl, fun p hp => ?_⟩
      rcases List.mem_cons.1 hp with rfl | hp
      · exact hk
      · exact hpre p hp

/-- The queue of a key at its first pair. -/
theorem queueOf_first_pair {k : K} {v : V} {pre post : List (K × V)} (hpre : ∀ p ∈ pre, p.1 ≠ k) :
    queueOf k (pre ++ (k, v) :: post) = v :: queueOf k post := by
  rw [queueOf_append, queueOf_eq_nil_iff.2 hpre, queueOf_cons_self, List.nil_append]

/-- Delete the first pair of a key. -/
def deleteFirst (k : K) (l : List (K × V)) : List (K × V) :=
  l.eraseP (·.1 = k)

/-- Deleting the first pair of a key closes the gap it leaves. -/
theorem deleteFirst_first_pair {k : K} {v : V} {pre post : List (K × V)}
    (hpre : ∀ p ∈ pre, p.1 ≠ k) : deleteFirst k (pre ++ (k, v) :: post) = pre ++ post := by
  rw [deleteFirst, List.eraseP_append_right _ (by simpa using hpre)]
  simp

/-- A key without pairs has nothing to delete. -/
theorem deleteFirst_of_queueOf_nil {k : K} {l : List (K × V)} (h : queueOf k l = []) :
    deleteFirst k l = l := by
  rw [deleteFirst, List.eraseP_of_forall_not]
  simpa using queueOf_eq_nil_iff.1 h

/-- Deleting the first pair of a key dequeues. -/
theorem queueOf_deleteFirst_self (k : K) (l : List (K × V)) :
    queueOf k (deleteFirst k l) = (queueOf k l).tail := by
  by_cases h : queueOf k l = []
  · rw [deleteFirst_of_queueOf_nil h, h, List.tail_nil]
  · obtain ⟨pre, v, post, rfl, hpre⟩ := exists_first_pair h
    rw [deleteFirst_first_pair hpre, queueOf_first_pair hpre, queueOf_append,
      queueOf_eq_nil_iff.2 hpre, List.nil_append, List.tail_cons]

/-- Deleting a pair of a key leaves the queues of the other keys. -/
theorem queueOf_deleteFirst_of_ne {k k' : K} (hk : k ≠ k') (l : List (K × V)) :
    queueOf k' (deleteFirst k l) = queueOf k' l := by
  by_cases h : queueOf k l = []
  · rw [deleteFirst_of_queueOf_nil h]
  · obtain ⟨pre, v, post, rfl, hpre⟩ := exists_first_pair h
    rw [deleteFirst_first_pair hpre, queueOf_append, queueOf_append, queueOf_cons_of_ne hk]

/-- What is left after a deletion was there before. -/
theorem mem_of_mem_deleteFirst {k : K} {p : K × V} {l : List (K × V)}
    (h : p ∈ deleteFirst k l) : p ∈ l :=
  List.mem_of_mem_eraseP h

/-- The keys of a list are distinct as soon as no queue has two values. -/
theorem nodup_keys_of_queueOf_le_one {l : List (K × V)} (h : ∀ k, (queueOf k l).length ≤ 1) :
    (l.map (·.1)).Nodup := by
  rw [List.nodup_iff_count_le_one]
  intro k
  have hk := h k
  rwa [length_queueOf, show (fun p : K × V => decide (p.1 = k)) = (· == k) ∘ (·.1) from
    funext fun p => by simp [beq_eq_decide], ← List.countP_map] at hk

end

/-! ## The abstract table -/

/-- A table that gives each key a queue of values, the oldest first. -/
abbrev QueueTable (K V : Type) := K → List V

namespace QueueTable

/-- The operations of a table; `iterate` takes a callback over a context of type `σ` and calls it
until it returns a nonzero number. -/
inductive Op (K V σ : Type) where
  | put (key : K) (value : V)
  | remove (key : K)
  | get (key : K)
  | iterate (iter : σ → K → V → Int × σ) (context : σ)
  | empty

/-- What an operation returns. -/
inductive Result (V σ : Type) where
  | done
  | value (v : V)
  | iterated (ret : Int) (context : σ)
  deriving DecidableEq

variable {K V σ : Type}

/-- The calls of a callback over a list of pairs: it stops with `-1` at the first nonzero answer. -/
def visit (iter : σ → K → V → Int × σ) : σ → List (K × V) → Int × σ
  | c, [] => (0, c)
  | c, (k, v) :: ps =>
    if (iter c k v).1 ≠ 0 then (-1, (iter c k v).2) else visit iter (iter c k v).2 ps

/-- A visit returns `0` or `-1`. -/
theorem visit_ret (iter : σ → K → V → Int × σ) (c : σ) (l : List (K × V)) :
    (visit iter c l).1 = 0 ∨ (visit iter c l).1 = -1 := by
  induction l generalizing c with
  | nil => exact .inl rfl
  | cons p l ih =>
    simp only [visit]
    split
    · exact .inr rfl
    · exact ih _

/-- Visiting two lists in turn. -/
theorem visit_append (iter : σ → K → V → Int × σ) (c : σ) (l l' : List (K × V)) :
    visit iter c (l ++ l') =
      if (visit iter c l).1 ≠ 0 then visit iter c l else visit iter (visit iter c l).2 l' := by
  induction l generalizing c with
  | nil => rfl
  | cons p l ih =>
    obtain ⟨k, v⟩ := p
    simp only [List.cons_append, visit]
    split
    · simp
    · exact ih _

variable [DecidableEq K]

/-- The list `ps` has every stored pair of `t` exactly once, those of one key in the order of its
queue. -/
def Enumerates (ps : List (K × V)) (t : QueueTable K V) : Prop :=
  ∀ k, queueOf k ps = t k

variable [Zero V]

/-- One operation of the table. An `iterate` may visit the pairs in any order. -/
inductive Step : QueueTable K V → Op K V σ → Result V σ → QueueTable K V → Prop
  | put : Step t (.put k v) .done (Function.update t k (t k ++ [v]))
  | remove : Step t (.remove k) (.value ((t k).headD 0)) (Function.update t k (t k).tail)
  | get : Step t (.get k) (.value ((t k).headD 0)) t
  | iterate : Enumerates ps t →
      Step t (.iterate iter c) (.iterated (visit iter c ps).1 (visit iter c ps).2) t
  | empty : Step t .empty .done fun _ => []

end QueueTable

end Lib
