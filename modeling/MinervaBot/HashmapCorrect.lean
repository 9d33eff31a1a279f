import MinervaBot.Hashmap
import MinervaBot.Lib.QueueTable

/-!
# The hash map is a table of queues

A bucket that has not overflowed holds a list of pairs (`HashmapEntryList.Holds`): its first `vlen`
cells are those pairs and `vroom`, a power of two up to `2 ^ 15`, is the size of its block. A map is
represented by one such list per bucket, or by `none` for a bucket whose 32769th `hashmap_put`
doubled `vroom` to `0` modulo `2 ^ 16` and thereby freed the array (`Hashmap.Rep`). One lemma per
operation says what it does to the representation, and `hashmapRun_refines` reads a whole run as a
run of `QueueTable.Step`.
-/

namespace MinervaBot

open Lib

/-! ## The representation -/

/-- The cell of a pair. -/
def cellOf (p : CString × Int) : Option HashmapEntry :=
  some ⟨some p.1, p.2⟩

/-- The bucket holds the pairs `es`, in this order. -/
inductive HashmapEntryList.Holds (hel : HashmapEntryList) (es : List (CString × Int)) : Prop
  | empty (hel_eq : hel = {}) (es_eq : es = [])
  | block (k : Nat) (rest : List (Option HashmapEntry)) (two_le : 2 ≤ k) (le_15 : k ≤ 15)
      (room : es.length + rest.length = 2 ^ k)
      (hel_eq : hel = ⟨es.length, 2 ^ k, .block (es.map cellOf ++ rest)⟩)

/-- A bucket after its 32769th `hashmap_put`: the doubled `vroom` is `0`, and the `realloc` of size
`0` has freed the array. -/
def HashmapEntryList.overflowed : HashmapEntryList :=
  ⟨2 ^ 15 + 1, 0, .freed⟩

/-- The bucket holds the pairs given, or has overflowed. -/
def HashmapEntryList.Rep (hel : HashmapEntryList) : Option (List (CString × Int)) → Prop
  | some es => hel.Holds es
  | none => hel = .overflowed

/-- The contents of the buckets: `none` for one that has overflowed. -/
abbrev Contents := Fin 256 → Option (List (CString × Int))

/-- The map has the contents `q`, each pair in the bucket of its key. -/
structure Hashmap.Rep (m : Hashmap) (q : Contents) : Prop where
  bucketsize : m.bucketsize = 256
  bucket : ∀ i, (m.buckets i).Rep (q i)
  hashed : ∀ i es, q i = some es → ∀ p ∈ es, hashOf p.1 = i

/-- The map that `hashmap_new` returns is empty. -/
theorem hashmapNew_rep {m : Hashmap} (h : hashmapNew true = some m) :
    m.Rep fun _ => some [] := by
  cases h
  exact ⟨rfl, fun _ => .empty rfl rfl, by simp⟩

/-- Replacing a bucket replaces its contents. -/
theorem Hashmap.Rep.setBucket {m : Hashmap} {q : Contents} (h : m.Rep q) {i : Fin 256}
    {hel : HashmapEntryList} {c : Option (List (CString × Int))} (hc : hel.Rep c)
    (hhash : ∀ es, c = some es → ∀ p ∈ es, hashOf p.1 = i) :
    (m.setBucket i hel).Rep (Function.update q i c) := by
  refine ⟨h.bucketsize, fun j => ?_, fun j es hes => ?_⟩
  · by_cases hj : j = i
    · subst hj; simpa [Hashmap.setBucket] using hc
    · simpa [Hashmap.setBucket, hj] using h.bucket j
  · by_cases hj : j = i
    · subst hj; exact hhash es (by simpa using hes)
    · exact h.hashed j es (by simpa [hj] using hes)

section
variable {hel : HashmapEntryList} {es : List (CString × Int)} {key : CString} {m : Hashmap}
variable {q : Contents}

/-- A bucket with contents holds them. -/
theorem Hashmap.Rep.holds (h : m.Rep q) {i : Fin 256} (hq : q i = some es) :
    (m.buckets i).Holds es := by
  have hb := h.bucket i
  rwa [hq] at hb

/-- A bucket without contents has overflowed. -/
theorem Hashmap.Rep.eq_overflowed (h : m.Rep q) {i : Fin 256} (hq : q i = none) :
    m.buckets i = .overflowed := by
  have hb := h.bucket i
  rwa [hq] at hb

/-- `vlen` counts the pairs. -/
theorem HashmapEntryList.Holds.vlen_eq (h : hel.Holds es) : hel.vlen = es.length := by
  rcases h with ⟨rfl, rfl⟩ | ⟨k, rest, -, -, -, rfl⟩ <;> rfl

/-- A bucket holds at most `2 ^ 15` pairs. -/
theorem HashmapEntryList.Holds.length_le (h : hel.Holds es) : es.length ≤ 2 ^ 15 := by
  rcases h with ⟨-, rfl⟩ | ⟨k, rest, -, h15, hroom, -⟩
  · simp
  · have : 2 ^ k ≤ 2 ^ 15 := Nat.pow_le_pow_right (by omega) h15
    omega

/-- The entries below `vlen` are the pairs. -/
theorem HashmapEntryList.Holds.read (h : hel.Holds es) {i : Nat} (hi : i < es.length) :
    hel.values.read i = some ⟨some es[i].1, es[i].2⟩ := by
  rcases h with ⟨-, rfl⟩ | ⟨k, rest, -, -, -, rfl⟩
  · simp at hi
  · have hi' : i < (es.map cellOf).length := by simpa using hi
    simp [Values.read, List.getElem?_append_left hi', hi, cellOf]

/-! ## Search and `hashmap_get` -/

/-- The search loop finds the first pair of the key from its index on. -/
theorem hashmapFind_eq {values : Values}
    (hread : ∀ i (hi : i < es.length), values.read i = some ⟨some es[i].1, es[i].2⟩) :
    ∀ n i, i + n = es.length →
      hashmapFind values key n i = some (((es.drop i).findIdx? (·.1 = key)).map (· + i)) := by
  intro n
  induction n with
  | zero =>
    intro i hi
    simp [hashmapFind, List.drop_of_length_le (show es.length ≤ i by omega)]
  | succ n ih =>
    intro i hi
    have hlt : i < es.length := by omega
    simp only [hashmapFind, hread i hlt, List.drop_eq_getElem_cons hlt, List.findIdx?_cons]
    by_cases hk : key = es[i].1
    · simp [hk]
    · have hk' : ¬ es[i].1 = key := fun h => hk h.symm
      rw [if_neg hk, ih (i + 1) (by omega)]
      simp [hk', Function.comp_def, Nat.add_comm, Nat.add_left_comm]

/-- The search of a bucket that lacks the key. -/
theorem HashmapEntryList.Holds.find_none (h : hel.Holds es) (hkey : queueOf key es = []) :
    hashmapFind hel.values key hel.vlen 0 = some none := by
  rw [h.vlen_eq, hashmapFind_eq (fun i hi => h.read hi) es.length 0 (by omega)]
  simpa [List.findIdx?_eq_none_iff] using queueOf_eq_nil_iff.1 hkey

/-- The search of a bucket at the first pair of the key. -/
theorem HashmapEntryList.Holds.find_some {pre post : List (CString × Int)} {v : Int}
    (h : hel.Holds (pre ++ (key, v) :: post)) (hpre : ∀ p ∈ pre, p.1 ≠ key) :
    hashmapFind hel.values key hel.vlen 0 = some (some pre.length) := by
  rw [h.vlen_eq, hashmapFind_eq (fun i hi => h.read hi) _ 0 (by omega)]
  have hnone : pre.findIdx? (·.1 = key) = none := by
    simpa [List.findIdx?_eq_none_iff] using hpre
  simp [List.findIdx?_append, hnone, List.findIdx?_cons]

/-- `hashmap_get` returns the front of the key's queue, `0` if it is empty. -/
theorem Hashmap.Rep.get (h : m.Rep q) (hq : q (hashOf key) = some es) :
    hashmapGet m key = some ((queueOf key es).headD 0) := by
  have hb := h.holds hq
  by_cases hkey : queueOf key es = []
  · simp [hashmapGet, hb.find_none hkey, hkey]
  · obtain ⟨pre, v, post, rfl, hpre⟩ := exists_first_pair hkey
    have hread := hb.read (i := pre.length) (by simp)
    simp [hashmapGet, hb.find_some hpre, hread, queueOf_first_pair hpre]

/-- `hashmap_get` on an overflowed bucket reads freed memory. -/
theorem Hashmap.Rep.get_overflowed (h : m.Rep q) (hq : q (hashOf key) = none) :
    hashmapGet m key = none := by
  simp [hashmapGet, h.eq_overflowed hq, HashmapEntryList.overflowed, hashmapFind, Values.read]

/-! ## `hashmap_put` -/

/-- The contents of a bucket after a `hashmap_put` on it: the 32769th pair overflows. -/
def pushPair (es : List (CString × Int)) (p : CString × Int) : Option (List (CString × Int)) :=
  if es.length < 2 ^ 15 then some (es ++ [p]) else none

theorem pushPair_eq_some {es es' : List (CString × Int)} {p : CString × Int}
    (h : pushPair es p = some es') : es' = es ++ [p] := by
  unfold pushPair at h
  split at h <;> cases h
  rfl

/-- Setting the cell behind the pairs appends a pair. -/
theorem set_cells (p : CString × Int) (c : Option HashmapEntry)
    (rest : List (Option HashmapEntry)) :
    (es.map cellOf ++ c :: rest).set es.length (cellOf p) = (es ++ [p]).map cellOf ++ rest := by
  rw [List.set_append_right _ _ (by simp)]
  simp

/-- The end of `hashmap_put` on a block with room behind the pairs. -/
theorem hashmapFillLast_eq (m : Hashmap) (es : List (CString × Int)) (key : CString) (value : Int)
    (hash : Fin 256) {k : Nat} (c : Option HashmapEntry) (rest : List (Option HashmapEntry))
    (two_le : 2 ≤ k) (le_15 : k ≤ 15) (room : es.length + (rest.length + 1) = 2 ^ k) :
    ∃ hel : HashmapEntryList, hel.Holds (es ++ [(key, value)]) ∧ hashmapFillLast .ok m hash
        ⟨es.length + 1, 2 ^ k, .block (es.map cellOf ++ c :: rest)⟩ key value =
      some { m.setBucket hash hel with numEntry := (m.numEntry + 1) % 2 ^ 64 } := by
  have hin : 0 < es.length + 1 ∧ es.length + 1 ≤ (es.map cellOf ++ c :: rest).length := by
    simp
  refine ⟨⟨(es ++ [(key, value)]).length, 2 ^ k,
    .block ((es ++ [(key, value)]).map cellOf ++ rest)⟩,
    .block k rest two_le le_15 (by simp; omega) rfl, ?_⟩
  simp only [hashmapFillLast, if_pos hin, Alloc.ok, if_true, Nat.add_sub_cancel]
  rw [show (some ⟨some key, value⟩ : Option HashmapEntry) = cellOf (key, value) from rfl, set_cells]
  simp [Hashmap.setBucket]

/-- `hashmap_put` on an empty bucket allocates four cells. -/
theorem hashmapPut_empty (hel_eq : m.buckets (hashOf key) = {}) (value : Int) :
    hashmapPut .ok m key value = hashmapFillLast .ok m (hashOf key)
      ⟨1, 4, .block [none, none, none, none]⟩ key value := by
  simp [hashmapPut, hel_eq, reallocValues, Alloc.ok]

/-- `hashmap_put` on a block with a cell behind the pairs. -/
theorem hashmapPut_room {alloc : Alloc} {n vroom : Nat} {values : Values}
    (hel_eq : m.buckets (hashOf key) = ⟨n, vroom, values⟩) (hlt : n < vroom)
    (hroom : vroom ≤ 2 ^ 15) (value : Int) :
    hashmapPut alloc m key value =
      hashmapFillLast alloc m (hashOf key) ⟨n + 1, vroom, values⟩ key value := by
  have hlen : (n + 1) % 2 ^ 16 = n + 1 := Nat.mod_eq_of_lt (by omega)
  simp only [hashmapPut, hel_eq, hlen]
  rw [if_neg (by omega)]

/-- The arithmetic of `hashmap_put` on a full block of fewer than `2 ^ 15` cells. -/
theorem doubled_eq {k : Nat} (hk : k < 15) :
    (2 ^ k + 1) % 2 ^ 16 = 2 ^ k + 1 ∧
      (if 2 ^ k = 0 then 4 else 2 ^ k * 2) % 2 ^ 16 = 2 ^ (k + 1) ∧ 0 < 2 ^ k := by
  have hpow : 2 ^ (k + 1) ≤ 2 ^ 15 := Nat.pow_le_pow_right (by omega) hk
  have hdouble : 2 ^ (k + 1) = 2 ^ k * 2 := Nat.pow_succ 2 k
  have hpos : 0 < 2 ^ k := Nat.two_pow_pos k
  refine ⟨Nat.mod_eq_of_lt (by omega), ?_, hpos⟩
  rw [if_neg (by omega), ← hdouble, Nat.mod_eq_of_lt (by omega)]

/-- `hashmap_put` on a full block doubles it. -/
theorem hashmapPut_full {alloc : Alloc} {k : Nat} {cells : List (Option HashmapEntry)}
    (halloc : alloc.realloc = true) (hk : k < 15)
    (hel_eq : m.buckets (hashOf key) = ⟨2 ^ k, 2 ^ k, .block cells⟩) (value : Int) :
    hashmapPut alloc m key value = hashmapFillLast alloc m (hashOf key)
      ⟨2 ^ k + 1, 2 ^ (k + 1), .block (cells.take (2 ^ (k + 1)) ++
        List.replicate (2 ^ (k + 1) - cells.length) none)⟩ key value := by
  obtain ⟨hlen, hmod, hpos⟩ := doubled_eq hk
  have hdouble : 2 ^ (k + 1) = 2 ^ k * 2 := Nat.pow_succ 2 k
  simp only [hashmapPut, hel_eq, hlen, hmod]
  rw [if_pos (by omega)]
  simp only [reallocValues, halloc, if_true]
  rw [if_neg (by omega)]

/-- `hashmap_put` on a full block of `2 ^ 15` cells frees it. -/
theorem hashmapPut_overflow {alloc : Alloc} {cells : List (Option HashmapEntry)}
    (hel_eq : m.buckets (hashOf key) = ⟨2 ^ 15, 2 ^ 15, .block cells⟩) (value : Int) :
    hashmapPut alloc m key value = some (m.setBucket (hashOf key) .overflowed) := by
  simp only [hashmapPut, hel_eq]
  rfl

/-- The pairs of a bucket after a `hashmap_put` on it have its hash. -/
theorem Hashmap.Rep.hashed_pushPair (h : m.Rep q) (hq : q (hashOf key) = some es) {value : Int}
    {es' : List (CString × Int)} (hes' : pushPair es (key, value) = some es') :
    ∀ p ∈ es', hashOf p.1 = hashOf key := by
  intro p hp
  rw [pushPair_eq_some hes'] at hp
  rcases List.mem_append.1 hp with hp | hp
  · exact h.hashed _ es hq p hp
  · rw [List.mem_singleton.1 hp]

/-- Filling a cell behind the pairs of a bucket. -/
theorem Hashmap.Rep.fill (h : m.Rep q) (hq : q (hashOf key) = some es) {value : Int}
    (hlt : es.length < 2 ^ 15) (hholds : hel.Holds (es ++ [(key, value)])) (n : Nat) :
    { m.setBucket (hashOf key) hel with numEntry := n }.Rep
      (Function.update q (hashOf key) (pushPair es (key, value))) := by
  have hpush : hel.Rep (pushPair es (key, value)) := by
    rw [pushPair, if_pos hlt]
    exact hholds
  have hrep := h.setBucket hpush fun _ hes' => h.hashed_pushPair hq hes'
  exact ⟨hrep.bucketsize, hrep.bucket, hrep.hashed⟩

/-- `hashmap_put` with succeeding allocations appends the pair to its bucket; the 32769th pair of
a bucket overflows it. -/
theorem Hashmap.Rep.put (h : m.Rep q) (key : CString) (hq : q (hashOf key) = some es) (value : Int) :
    ∃ m', hashmapPut .ok m key value = some m' ∧
      m'.Rep (Function.update q (hashOf key) (pushPair es (key, value))) := by
  rcases h.holds hq with ⟨hel_eq, rfl⟩ | ⟨k, rest, h2, h15, hroom, hel_eq⟩
  · obtain ⟨hel', hholds, hput⟩ :=
      hashmapFillLast_eq m [] key value (hashOf key) (k := 2) none [none, none, none] (by omega)
        (by omega) rfl
    exact ⟨_, (hashmapPut_empty hel_eq value).trans hput, h.fill hq (by simp) hholds _⟩
  · have hpow : 2 ^ k ≤ 2 ^ 15 := Nat.pow_le_pow_right (by omega) h15
    cases rest with
    | cons c rest =>
      rw [List.length_cons] at hroom
      obtain ⟨hel', hholds, hput⟩ :=
        hashmapFillLast_eq m es key value (hashOf key) c rest h2 h15 hroom
      have hlt : es.length < 2 ^ k := by omega
      exact ⟨_, (hashmapPut_room hel_eq hlt hpow value).trans hput, h.fill hq (by omega) hholds _⟩
    | nil =>
      rw [List.length_nil, Nat.add_zero] at hroom
      rw [hroom, List.append_nil] at hel_eq
      have hpos : 0 < 2 ^ k := Nat.two_pow_pos k
      rcases Nat.lt_or_ge k 15 with hk | hk
      · have hpow' : 2 ^ (k + 1) ≤ 2 ^ 15 := Nat.pow_le_pow_right (by omega) hk
        have hdouble : 2 ^ (k + 1) = 2 * es.length := by rw [Nat.pow_succ]; omega
        have hcells : (es.map cellOf).take (2 ^ (k + 1)) ++
            List.replicate (2 ^ (k + 1) - (es.map cellOf).length) none =
            es.map cellOf ++ none :: List.replicate (es.length - 1) none := by
          rw [List.take_of_length_le (by simp; omega), ← List.replicate_succ]
          congr 2
          simp; omega
        obtain ⟨hel', hholds, hput⟩ :=
          hashmapFillLast_eq m es key value (hashOf key) (k := k + 1) none
            (List.replicate (es.length - 1) none) (by omega) (by omega) (by simp; omega)
        rw [← hcells, hroom] at hput
        exact ⟨_, (hashmapPut_full rfl hk hel_eq value).trans hput, h.fill hq (by omega) hholds _⟩
      · obtain rfl : k = 15 := by omega
        refine ⟨_, hashmapPut_overflow hel_eq value,
          h.setBucket ?_ fun _ hes' => h.hashed_pushPair hq hes'⟩
        rw [pushPair, if_neg (by omega)]
        rfl

/-- `hashmap_put` on an overflowed bucket hands a freed pointer to `realloc`. -/
theorem Hashmap.Rep.put_overflowed (h : m.Rep q) (hq : q (hashOf key) = none) (value : Int) :
    hashmapPut .ok m key value = none := by
  rw [hashmapPut, h.eq_overflowed hq]
  rfl

/-! ## `hashmap_remove` -/

/-- Moving cells down by one over a gap, as far as `A ++ x :: B` reaches, leaves one more cell
behind. -/
theorem mapIdx_moveDown {α : Type} (A B rest : List (Option α)) (x : Option α) :
    ((A ++ x :: B ++ rest).mapIdx fun j c =>
      if A.length ≤ j ∧ j < (A ++ x :: B).length then (A ++ x :: B ++ rest)[j + 1]?.join else c) =
    A ++ B ++ rest.head?.join :: rest := by
  apply List.ext_getElem?
  intro j
  simp only [List.getElem?_mapIdx]
  -- Below, at and above the cell that the last pair leaves.
  rcases Nat.lt_trichotomy j (A.length + B.length) with h | rfl | h
  · rcases Nat.lt_or_ge j A.length with hA | hA
    · grind
    · grind
  · cases rest <;> grind
  · have hneg : ¬ (A.length ≤ j ∧ j < (A ++ x :: B).length) := by simp; omega
    simp only [if_neg hneg, Option.map_id']
    grind

/-- The `memcpy` of `hashmap_remove` closes the gap that a pair leaves. -/
theorem moveDown_cells (pre post : List (CString × Int)) (p : CString × Int)
    (rest : List (Option HashmapEntry)) :
    (Values.block ((pre ++ p :: post).map cellOf ++ rest)).moveDown pre.length
        (pre ++ p :: post).length =
      some (.block ((pre ++ post).map cellOf ++ rest.head?.join :: rest)) := by
  have hmove := mapIdx_moveDown (pre.map cellOf) (post.map cellOf) rest (cellOf p)
  simp only [List.length_map, List.length_append, List.length_cons] at hmove
  simp only [Values.moveDown]
  rw [if_pos (by simp)]
  simp only [List.map_append, List.map_cons, List.length_append, List.length_cons]
  rw [hmove]

/-- `hashmap_remove` returns the front of the key's queue, `0` if it is empty, and deletes it. -/
theorem Hashmap.Rep.remove (h : m.Rep q) (key : CString) (hq : q (hashOf key) = some es) :
    ∃ m', hashmapRemove m key = some ((queueOf key es).headD 0, m') ∧
      m'.Rep (Function.update q (hashOf key) (some (deleteFirst key es))) := by
  have hb := h.holds hq
  by_cases hkey : queueOf key es = []
  · refine ⟨m, by simp [hashmapRemove, hb.find_none hkey, hkey], ?_⟩
    rwa [deleteFirst_of_queueOf_nil hkey, ← hq, Function.update_eq_self]
  · obtain ⟨pre, v, post, rfl, hpre⟩ := exists_first_pair hkey
    have hread := hb.read (i := pre.length) (by simp)
    have hfind := hb.find_some hpre
    rcases hb with ⟨-, hes⟩ | ⟨k, rest, h2, h15, hroom, hel_eq⟩
    · simp at hes
    · rw [hel_eq] at hread hfind
      refine ⟨m.setBucket (hashOf key) ⟨(pre ++ post).length, 2 ^ k,
        .block ((pre ++ post).map cellOf ++ rest.head?.join :: rest)⟩, ?_, h.setBucket ?_ ?_⟩
      · simp only [hashmapRemove, hel_eq, hfind, hread, moveDown_cells, queueOf_first_pair hpre]
        simp
      · rw [deleteFirst_first_pair hpre]
        exact .block k _ h2 h15 (by simp at hroom ⊢; omega) rfl
      · intro es' hes' p hp
        cases hes'
        exact h.hashed _ _ hq p (mem_of_mem_deleteFirst hp)

/-- `hashmap_remove` on an overflowed bucket reads freed memory. -/
theorem Hashmap.Rep.remove_overflowed (h : m.Rep q) (hq : q (hashOf key) = none) :
    hashmapRemove m key = none := by
  simp [hashmapRemove, h.eq_overflowed hq, HashmapEntryList.overflowed, hashmapFind, Values.read]

/-! ## `hashmap_iterate` -/

section
variable {σ : Type} (iter : σ → CString → Int → Int × σ)

/-- The inner loop calls the callback on the pairs from its index on. -/
theorem hashmapIterateBucket_eq {values : Values}
    (hread : ∀ i (hi : i < es.length), values.read i = some ⟨some es[i].1, es[i].2⟩) :
    ∀ n j c, j + n = es.length → hashmapIterateBucket iter values n j c =
      some (QueueTable.visit iter c (es.drop j)) := by
  intro n
  induction n with
  | zero =>
    intro j c hj
    simp [hashmapIterateBucket, List.drop_of_length_le (show es.length ≤ j by omega),
      QueueTable.visit]
  | succ n ih =>
    intro j c hj
    have hlt : j < es.length := by omega
    simp only [hashmapIterateBucket, hread j hlt, List.drop_eq_getElem_cons hlt, QueueTable.visit]
    split
    · rfl
    · exact ih (j + 1) _ (by omega)

/-- The outer loop calls the callback on the pairs of the buckets to go. -/
theorem Hashmap.Rep.iterateFrom {l : Fin 256 → List (CString × Int)}
    (h : m.Rep fun i => some (l i)) : ∀ (is : List (Fin 256)) (c : σ),
      hashmapIterateFrom m iter is c = some (QueueTable.visit iter c (is.flatMap l))
  | [], c => rfl
  | i :: is, c => by
    have hb := h.holds (i := i) rfl
    have hbucket : hashmapIterateBucket iter (m.buckets i).values (m.buckets i).vlen 0 c =
        some (QueueTable.visit iter c (l i)) := by
      rw [hb.vlen_eq, hashmapIterateBucket_eq iter (fun j hj => hb.read hj) _ 0 c (by omega),
        List.drop_zero]
    rw [hashmapIterateFrom, hbucket, List.flatMap_cons, QueueTable.visit_append]
    have hret := QueueTable.visit_ret iter c (l i)
    generalize QueueTable.visit iter c (l i) = r at hret
    obtain ⟨ret, c'⟩ := r
    rcases hret with rfl | rfl
    · exact iterateFrom h is c'
    · rfl

/-- The pairs of all buckets, bucket by bucket, enumerate the queues of the keys. -/
theorem Hashmap.Rep.enumerates {l : Fin 256 → List (CString × Int)}
    (h : m.Rep fun i => some (l i)) :
    QueueTable.Enumerates ((List.finRange 256).flatMap l) fun k => queueOf k (l (hashOf k)) := by
  intro k
  have hother : ∀ i, i ≠ hashOf k → queueOf k (l i) = [] := fun i hi =>
    queueOf_eq_nil_iff.2 fun p hp hpk => hi (by rw [← hpk, h.hashed i _ rfl p hp])
  have hsum : ∀ is : List (Fin 256), is.Nodup → queueOf k (is.flatMap l) =
      if hashOf k ∈ is then queueOf k (l (hashOf k)) else [] := by
    intro is
    induction is with
    | nil => intro _; rfl
    | cons i is ih =>
      intro hnd
      obtain ⟨hi, hnd⟩ := List.nodup_cons.1 hnd
      rw [List.flatMap_cons, queueOf_append, ih hnd]
      by_cases hik : i = hashOf k
      · subst hik; simp [hi]
      · simp [hother i hik, Ne.symm hik]
  simpa using hsum _ (List.nodup_finRange 256)

/-- `hashmap_iterate` calls the callback on the pairs of all buckets. -/
theorem Hashmap.Rep.iterate {l : Fin 256 → List (CString × Int)}
    (h : m.Rep fun i => some (l i)) (c : σ) : hashmapIterate m iter c =
      some (QueueTable.visit iter c ((List.finRange 256).flatMap l)) := by
  have hidx : m.indices = List.finRange 256 := by
    rw [Hashmap.indices, h.bucketsize, List.filter_eq_self]
    simp
  rw [hashmapIterate, hidx, h.iterateFrom iter]

end

/-! ## `hashmap_empty` -/

/-- `hashmap_empty` leaves every bucket empty. -/
theorem Hashmap.Rep.empty {l : Fin 256 → List (CString × Int)} (h : m.Rep fun i => some (l i)) :
    ∃ m', hashmapEmpty m = some m' ∧ m'.Rep fun _ => some [] := by
  have hfree : ∀ i ∈ m.indices, (m.buckets i).freeable = true := by
    intro i _
    have hb := h.holds (i := i) rfl
    have hne : (m.buckets i).values ≠ .freed := by
      rcases hb with ⟨heq, -⟩ | ⟨k, rest, -, -, -, heq⟩ <;> simp [heq]
    simp only [HashmapEntryList.freeable, Bool.and_eq_true, bne_iff_ne, List.all_eq_true,
      List.mem_range, hb.vlen_eq]
    exact ⟨hne, fun j hj => by rw [hb.read hj]; rfl⟩
  refine ⟨{ m with buckets := fun i => if i.val < m.bucketsize then {} else m.buckets i },
    if_pos (List.all_eq_true.2 hfree), h.bucketsize, fun i => ?_, fun i es hes => by cases hes; simp⟩
  have hi : i.val < m.bucketsize := by rw [h.bucketsize]; exact i.isLt
  simp only [if_pos hi]
  exact .empty rfl rfl

end

/-! ## Runs -/

section
variable {σ : Type}

/-- One call of an operation of the map, with succeeding allocations. -/
def hashmapStep (m : Hashmap) :
    QueueTable.Op CString Int σ → Option (Hashmap × QueueTable.Result Int σ)
  | .put key value => (hashmapPut .ok m key value).map fun m' => (m', .done)
  | .remove key => (hashmapRemove m key).map fun r => (r.2, .value r.1)
  | .get key => (hashmapGet m key).map fun v => (m, .value v)
  | .iterate iter context =>
    (hashmapIterate m iter context).map fun r => (m, .iterated r.1 r.2)
  | .empty => (hashmapEmpty m).map fun m' => (m', .done)

/-- No bucket holds more than 32768 entries. -/
def Hashmap.Bounded (m : Hashmap) : Prop :=
  ∀ i, (m.buckets i).vlen ≤ 32768

/-- Replacing a bucket by one with at most one more entry. -/
theorem Hashmap.vlen_setBucket_le {m : Hashmap} {j : Fin 256} {hel : HashmapEntryList}
    (hle : hel.vlen ≤ (m.buckets j).vlen + 1) (i : Fin 256) :
    ((m.setBucket j hel).buckets i).vlen ≤ (m.buckets i).vlen + 1 := by
  by_cases hi : i = j
  · subst hi; simpa [Hashmap.setBucket] using hle
  · simp [Hashmap.setBucket, hi]

/-- `hashmap_put` adds at most one entry to a bucket. -/
theorem hashmapPut_vlen {m m' : Hashmap} {key : CString} {value : Int}
    (h : hashmapPut .ok m key value = some m') (i : Fin 256) :
    (m'.buckets i).vlen ≤ (m.buckets i).vlen + 1 := by
  have hmod : ((m.buckets (hashOf key)).vlen + 1) % 2 ^ 16 ≤ (m.buckets (hashOf key)).vlen + 1 :=
    Nat.mod_le _ _
  have hfill : ∀ {hel : HashmapEntryList}, hel.vlen ≤ (m.buckets (hashOf key)).vlen + 1 →
      hashmapFillLast .ok m (hashOf key) hel key value = some m' →
      (m'.buckets i).vlen ≤ (m.buckets i).vlen + 1 := by
    intro hel hle hfill
    unfold hashmapFillLast at hfill
    split at hfill
    · split at hfill <;> cases hfill
      exact Hashmap.vlen_setBucket_le (by exact hle) i
    · cases hfill
    · cases hfill
  simp only [hashmapPut] at h
  split at h
  · split at h
    · cases h
    · cases h
      exact Hashmap.vlen_setBucket_le (by exact hmod) i
    · exact hfill hmod h
  · exact hfill hmod h

/-- `hashmap_remove` adds no entry. -/
theorem hashmapRemove_vlen {m m' : Hashmap} {key : CString} {value : Int}
    (h : hashmapRemove m key = some (value, m')) (i : Fin 256) :
    (m'.buckets i).vlen ≤ (m.buckets i).vlen + 1 := by
  simp only [hashmapRemove] at h
  split at h
  · cases h
  · cases h; omega
  · split at h <;> cases h
    exact Hashmap.vlen_setBucket_le (by simp; omega) i

/-- `hashmap_empty` adds no entry. -/
theorem hashmapEmpty_vlen {m m' : Hashmap} (h : hashmapEmpty m = some m') (i : Fin 256) :
    (m'.buckets i).vlen ≤ (m.buckets i).vlen := by
  unfold hashmapEmpty at h
  split at h <;> cases h
  simp only
  split
  · simp
  · omega

/-- A call lets a bucket grow by one entry at most. -/
theorem hashmapStep_vlen {m m' : Hashmap} {op : QueueTable.Op CString Int σ}
    {r : QueueTable.Result Int σ} (h : hashmapStep m op = some (m', r)) (i : Fin 256) :
    (m'.buckets i).vlen ≤ (m.buckets i).vlen + 1 := by
  cases op with
  | put key value =>
    obtain ⟨m'', hput, heq⟩ := Option.map_eq_some_iff.1 h
    cases heq
    exact hashmapPut_vlen hput i
  | remove key =>
    obtain ⟨⟨v, m''⟩, hremove, heq⟩ := Option.map_eq_some_iff.1 h
    cases heq
    exact hashmapRemove_vlen hremove i
  | get key =>
    obtain ⟨v, -, heq⟩ := Option.map_eq_some_iff.1 h
    cases heq
    exact Nat.le_succ _
  | iterate iter c =>
    obtain ⟨v, -, heq⟩ := Option.map_eq_some_iff.1 h
    cases heq
    exact Nat.le_succ _
  | empty =>
    obtain ⟨m'', hempty, heq⟩ := Option.map_eq_some_iff.1 h
    cases heq
    exact (hashmapEmpty_vlen hempty i).trans (Nat.le_succ _)

/-- A run of at most 32768 calls keeps every bucket within its bound. -/
theorem hashmapRun_bounded (ops : List (QueueTable.Op CString Int σ)) : ∀ {m m' : Hashmap} {rs},
    runSteps hashmapStep m ops = some (m', rs) → ∀ i,
      (m'.buckets i).vlen ≤ (m.buckets i).vlen + ops.length := by
  induction ops with
  | nil =>
    intro m m' rs h i
    cases h
    simp
  | cons op ops ih =>
    intro m m' rs h i
    obtain ⟨m₁, r, rs', hstep, hrun, rfl⟩ := runSteps_cons_inv h
    have h1 := hashmapStep_vlen hstep i
    have h2 := ih hrun i
    rw [List.length_cons]
    omega

/-- The map represents the table: its buckets have contents whose queues are those of the table. -/
def Hashmap.Represents (m : Hashmap) (t : QueueTable CString Int) : Prop :=
  ∃ l : Fin 256 → List (CString × Int), m.Rep (fun i => some (l i)) ∧
    t = fun k => queueOf k (l (hashOf k))

/-- A change of the contents of a key's bucket that changes only the queue of that key. -/
theorem Hashmap.Represents.of_update {m : Hashmap} {l : Fin 256 → List (CString × Int)}
    {key : CString} {es : List (CString × Int)}
    (h : m.Rep (Function.update (fun i => some (l i)) (hashOf key) (some es)))
    (hother : ∀ k, k ≠ key → hashOf k = hashOf key →
      queueOf k es = queueOf k (l (hashOf key))) :
    m.Represents (Function.update (fun k => queueOf k (l (hashOf k))) key (queueOf key es)) := by
  refine ⟨Function.update l (hashOf key) es, ?_, funext fun k => ?_⟩
  · convert h using 1
    funext i
    by_cases hi : i = hashOf key
    · subst hi; simp
    · simp [hi]
  · by_cases hk : k = key
    · subst hk; simp
    · by_cases hh : hashOf k = hashOf key
      · simp [hk, hh, hother k hk hh]
      · simp [hk, hh]

/-- One call is matched by a step of the table, as long as no bucket grows beyond its bound. -/
theorem hashmapStep_refines (m : Hashmap) (t : QueueTable CString Int)
    (op : QueueTable.Op CString Int σ) (h : m.Represents t) :
    ∃ m' r, hashmapStep m op = some (m', r) ∧
      (m'.Bounded → ∃ t', QueueTable.Step t op r t' ∧ m'.Represents t') := by
  obtain ⟨l, h, rfl⟩ := h
  cases op with
  | put key value =>
    obtain ⟨m', hput, hrep⟩ := h.put key rfl value
    refine ⟨m', .done, by simp [hashmapStep, hput], fun hbound => ⟨_, .put, ?_⟩⟩
    unfold pushPair at hrep
    split at hrep
    · have := Hashmap.Represents.of_update hrep fun k hk _ => by
        simp [queueOf_cons_of_ne (p := (key, value)) (Ne.symm hk)]
      simpa using this
    · have hover := hrep.eq_overflowed (i := hashOf key) (by simp)
      have := hbound (hashOf key)
      rw [hover] at this
      simp [HashmapEntryList.overflowed] at this
  | remove key =>
    obtain ⟨m', hremove, hrep⟩ := h.remove key rfl
    refine ⟨m', _, by simp [hashmapStep, hremove], fun _ => ⟨_, .remove, ?_⟩⟩
    rw [← queueOf_deleteFirst_self]
    exact .of_update hrep fun k hk _ => queueOf_deleteFirst_of_ne (Ne.symm hk) _
  | get key =>
    exact ⟨m, _, by simp [hashmapStep, h.get rfl], fun _ => ⟨_, .get, l, h, rfl⟩⟩
  | iterate iter c =>
    exact ⟨m, _, by simp [hashmapStep, h.iterate iter c], fun _ =>
      ⟨_, .iterate h.enumerates, l, h, rfl⟩⟩
  | empty =>
    obtain ⟨m', hempty, hrep⟩ := h.empty
    exact ⟨m', _, by simp [hashmapStep, hempty], fun _ => ⟨_, .empty, _, hrep, by simp⟩⟩

/-- A map from `hashmap_new` behaves as a table of FIFO queues over every sequence of operations
during which no bucket holds more than 32768 entries. -/
theorem hashmapRun_refines {m : Hashmap} (hnew : hashmapNew true = some m)
    (ops : List (QueueTable.Op CString Int σ))
    (hbound : ∀ pre m' rs, pre <+: ops → runSteps hashmapStep m pre = some (m', rs) →
      m'.Bounded) :
    ∃ m' rs t, runSteps hashmapStep m ops = some (m', rs) ∧
      Steps QueueTable.Step (fun _ => []) ops rs t ∧ m'.Represents t :=
  simulates_runSteps hashmapStep_refines ops ⟨_, hashmapNew_rep hnew, by simp⟩ hbound

/-- Two values queue up behind a key; a removal returns the older one and leaves the other. -/
theorem hashmapRun_refines_two :
    ∃ m m' rs t, hashmapNew true = some m ∧
      runSteps hashmapStep m [.put (CString.lit "ann") 1, .put (CString.lit "ann") 2,
        .remove (CString.lit "ann"), .get (CString.lit "ann")] = some (m', rs) ∧
      rs = [.done, .done, .value 1, (.value 2 : QueueTable.Result Int Unit)] ∧
      m'.Represents t := by
  obtain ⟨m, hm⟩ : ∃ m, hashmapNew true = some m := ⟨_, rfl⟩
  obtain ⟨m', rs, t, hrun, -, hrep⟩ := hashmapRun_refines hm
    [.put (CString.lit "ann") 1, .put (CString.lit "ann") 2, .remove (CString.lit "ann"),
      .get (CString.lit "ann")] (by
      intro pre m' rs hpre hrun i
      have hvlen := hashmapRun_bounded pre hrun i
      have hlen := hpre.length_le
      cases hm
      simp at hvlen hlen
      omega)
  refine ⟨m, m', rs, t, hm, hrun, ?_, hrep⟩
  have hval : (runSteps (σ := Hashmap) hashmapStep m [.put (CString.lit "ann") 1,
      .put (CString.lit "ann") 2, .remove (CString.lit "ann"), .get (CString.lit "ann")]).map (·.2) =
      some [.done, .done, .value 1, (.value 2 : QueueTable.Result Int Unit)] := by
    cases hm
    decide +kernel
  rw [hrun] at hval
  exact Option.some.inj hval

end

end MinervaBot
