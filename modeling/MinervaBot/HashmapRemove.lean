import Mathlib.Algebra.BigOperators.Fin
import Mathlib.Algebra.Order.BigOperators.Group.Finset
import MinervaBot.HashmapPut

/-!
# What a removal touches and what it counts

`hashmap_remove` closes the gap behind an entry with a `memcpy` of `vlen - i` elements from `i + 1`
on: one more than there are, so that it reads the element at `vlen`. In a full bucket that element
is behind the array, and this is the only access of a removal outside of it (`removeInBounds_iff`).
It also leaves `num_entry` as it is, as does `hashmap_empty`: the counter is the number of entries
for as long as no call takes an entry away (`counted_iff_keepsCount`).
-/

namespace MinervaBot

open Lib

/-! ## The accesses of `hashmap_remove` -/

/-- The elements that the search loop reads, at index `i` with `n` entries to go. -/
def hashmapFindReads (values : Values) (key : CString) : Nat → Nat → List Nat
  | 0, _ => []
  | n + 1, i =>
    match values.read i with
    | some ⟨some k, _⟩ => if key = k then [i] else i :: hashmapFindReads values key n (i + 1)
    | _ => [i]

/-- The elements that `memcpy(values + i, values + i + 1, sizeof(hashmap_entry) * (vlen - i))`
reads, and those that it writes. -/
def hashmapMemcpyAccesses (i vlen : Nat) : List Nat :=
  List.range' (i + 1) (vlen - i) ++ List.range' i (vlen - i)

/-- The elements of `values` that `hashmap_remove` reads or writes: those of the search, `he->value`
and `he->key` of the entry found, and those of the `memcpy`. -/
def hashmapRemoveAccesses (m : Hashmap) (key : CString) : List Nat :=
  let hel := m.buckets (hashOf key)
  hashmapFindReads hel.values key hel.vlen 0 ++
    match hashmapFind hel.values key hel.vlen 0 with
    | some (some i) => i :: hashmapMemcpyAccesses i hel.vlen
    | _ => []

/-- `hashmap_remove` stays within the array of its bucket. -/
def RemoveInBounds (m : Hashmap) (key : CString) : Prop :=
  ∀ j ∈ hashmapRemoveAccesses m key, j < (m.buckets (hashOf key)).vroom

/-- The key is in the map. -/
def Hashmap.HasKey (m : Hashmap) (key : CString) : Prop :=
  ∃ i < (m.buckets (hashOf key)).vlen, ∃ value,
    (m.buckets (hashOf key)).values.read i = some ⟨some key, value⟩

section
variable {m m' : Hashmap} {key : CString} {hel : HashmapEntryList} {es : List (CString × Int)}
  {σ : Type}

/-- A bucket that holds pairs holds their entries. -/
theorem HashmapEntryList.Holds.filled (h : hel.Holds es) :
    hel.Filled (es.map fun p => ⟨some p.1, p.2⟩) := by
  rcases h with ⟨rfl, rfl⟩ | ⟨k, rest, h2, h15, hroom, rfl⟩
  · exact .empty rfl rfl
  · refine .block k rest h2 h15 (by simpa using hroom) ?_
    simp [cellOf, Function.comp_def]

/-- The pairs are below `vroom`. -/
theorem HashmapEntryList.Holds.le_vroom (h : hel.Holds es) : hel.vlen ≤ hel.vroom := by
  have hle := h.filled.le_vroom
  rwa [List.length_map, ← h.vlen_eq] at hle

/-- The search reads elements of its range. -/
theorem lt_of_mem_hashmapFindReads {values : Values} {j : Nat} :
    ∀ {n i : Nat}, j ∈ hashmapFindReads values key n i → j < i + n
  | 0, i, h => by cases h
  | n + 1, i, h => by
    rw [hashmapFindReads] at h
    split at h
    · split at h
      · rw [List.mem_singleton.1 h]
        omega
      · rcases List.mem_cons.1 h with rfl | h
        · omega
        · have hrest := lt_of_mem_hashmapFindReads h
          omega
    · rw [List.mem_singleton.1 h]
      omega

/-- The `memcpy` goes up to the element at `vlen`. -/
theorem mem_hashmapMemcpyAccesses {i vlen j : Nat} (hi : i < vlen) :
    j ∈ hashmapMemcpyAccesses i vlen ↔ i ≤ j ∧ j ≤ vlen := by
  simp only [hashmapMemcpyAccesses, List.mem_append, List.mem_range'_1]
  omega

/-- A key of the map is the key of a pair. -/
theorem hasKey_iff (h : (m.buckets (hashOf key)).Holds es) : m.HasKey key ↔ queueOf key es ≠ [] := by
  rw [Ne, queueOf_eq_nil_iff]
  push Not
  constructor
  · rintro ⟨i, hi, value, hread⟩
    rw [h.vlen_eq] at hi
    rw [h.read hi] at hread
    cases hread
    exact ⟨es[i], List.getElem_mem hi, rfl⟩
  · rintro ⟨p, hp, rfl⟩
    obtain ⟨i, hi, rfl⟩ := List.getElem_of_mem hp
    exact ⟨i, by rwa [h.vlen_eq], es[i].2, h.read hi⟩

/-- The search finds nothing for a key that the map lacks, and an index below `vlen` for one that it
has. -/
theorem HashmapEntryList.Holds.find_cases (h : (m.buckets (hashOf key)).Holds es) :
    ¬ m.HasKey key ∧ hashmapFind (m.buckets (hashOf key)).values key
        (m.buckets (hashOf key)).vlen 0 = some none ∨
      m.HasKey key ∧ ∃ i < (m.buckets (hashOf key)).vlen,
        hashmapFind (m.buckets (hashOf key)).values key (m.buckets (hashOf key)).vlen 0 =
          some (some i) := by
  by_cases hkey : queueOf key es = []
  · exact .inl ⟨fun hhas => (hasKey_iff h).1 hhas hkey, h.find_none hkey⟩
  · refine .inr ⟨(hasKey_iff h).2 hkey, ?_⟩
    obtain ⟨pre, v, post, rfl, hpre⟩ := exists_first_pair hkey
    exact ⟨pre.length, by simp [h.vlen_eq], h.find_some hpre⟩

/-- A removal from a bucket that holds pairs leaves the array when the key is there and the bucket
is full. -/
theorem HashmapEntryList.Holds.removeInBounds_holds_iff (h : (m.buckets (hashOf key)).Holds es) :
    RemoveInBounds m key ↔
      ¬ m.HasKey key ∨ (m.buckets (hashOf key)).vlen < (m.buckets (hashOf key)).vroom := by
  have hle := h.le_vroom
  have hreads : ∀ j ∈ hashmapFindReads (m.buckets (hashOf key)).values key
      (m.buckets (hashOf key)).vlen 0, j < (m.buckets (hashOf key)).vlen := fun j hj => by
    simpa using lt_of_mem_hashmapFindReads hj
  rcases h.find_cases with ⟨hnot, hfind⟩ | ⟨hhas, i, hi, hfind⟩
  · refine ⟨fun _ => .inl hnot, fun _ j hj => ?_⟩
    simp only [hashmapRemoveAccesses, hfind, List.append_nil] at hj
    have hlt := hreads j hj
    omega
  · constructor
    · intro hin
      refine .inr (hin _ ?_)
      simp only [hashmapRemoveAccesses, hfind, List.mem_append, List.mem_cons]
      exact .inr (.inr ((mem_hashmapMemcpyAccesses hi).2 ⟨by omega, le_rfl⟩))
    · rintro (hnot | hlt) j hj
      · exact absurd hhas hnot
      · simp only [hashmapRemoveAccesses, hfind, List.mem_append, List.mem_cons] at hj
        rcases hj with hj | rfl | hj
        · have hj' := hreads j hj
          omega
        · omega
        · have hj' := (mem_hashmapMemcpyAccesses hi).1 hj
          omega

/-- A run of at most 32768 calls on a new map keeps every bucket within its bound. -/
theorem everyState_bounded (hnew : hashmapNew true = some m)
    (ops : List (QueueTable.Op CString Int σ)) (hlen : ops.length ≤ 32768) :
    EveryState hashmapStep m ops Hashmap.Bounded := by
  intro pre m' rs hpre hrun i
  have hvlen := hashmapRun_bounded pre hrun i
  have hlen' := hpre.length_le
  cases hnew
  simp only at hvlen
  omega

/-- A run on a new map without a bucket of more than 32768 entries is defined, and the map it ends
with represents a table. -/
theorem hashmapRun_represents (hnew : hashmapNew true = some m)
    {ops : List (QueueTable.Op CString Int σ)}
    (hbound : EveryState hashmapStep m ops Hashmap.Bounded) :
    ∃ m' rs t, runSteps hashmapStep m ops = some (m', rs) ∧ m'.Represents t := by
  have hrep₀ : m.Represents fun _ => [] := ⟨_, hashmapNew_rep hnew, by simp⟩
  obtain ⟨m', rs, t, hrun, -, hrep⟩ := simulates_runSteps hashmapStep_refines ops hrep₀ hbound
  exact ⟨m', rs, t, hrun, hrep⟩

/-- On every map that calls with succeeding allocations make of a new one, without a bucket of more
than 32768 entries: a removal stays within the array if and only if the key is not in the map or its
bucket is not full. -/
theorem removeInBounds_iff {ops : List (QueueTable.Op CString Int σ)}
    {rs : List (QueueTable.Result Int σ)} (hnew : hashmapNew true = some m)
    (hbound : EveryState hashmapStep m ops Hashmap.Bounded)
    (hrun : runSteps hashmapStep m ops = some (m', rs)) (key : CString) :
    RemoveInBounds m' key ↔
      ¬ m'.HasKey key ∨ (m'.buckets (hashOf key)).vlen < (m'.buckets (hashOf key)).vroom := by
  obtain ⟨m₁, rs₁, t, hrun₁, l, hrep, -⟩ := hashmapRun_represents hnew hbound
  cases hrun.symm.trans hrun₁
  exact (hrep.holds (i := hashOf key) rfl).removeInBounds_holds_iff

/-- One entry in an array of four. -/
theorem removeInBounds_one : ∃ m m' rs, hashmapNew true = some m ∧
    runSteps hashmapStep m [QueueTable.Op.put (σ := Unit) (CString.lit "ann") 1] = some (m', rs) ∧
    RemoveInBounds m' (CString.lit "ann") := by
  obtain ⟨m, hm⟩ : ∃ m, hashmapNew true = some m := ⟨_, rfl⟩
  have hbound := everyState_bounded (σ := Unit) hm [.put (CString.lit "ann") 1] (by decide)
  obtain ⟨m', rs, t, hrun, -⟩ := hashmapRun_represents hm hbound
  refine ⟨m, m', rs, hm, hrun, (removeInBounds_iff hm hbound hrun _).2 (.inr ?_)⟩
  have hval : (runSteps hashmapStep m [QueueTable.Op.put (σ := Unit) (CString.lit "ann") 1]).map
      (fun r => decide ((r.1.buckets (hashOf (CString.lit "ann"))).vlen <
        (r.1.buckets (hashOf (CString.lit "ann"))).vroom)) = some true := by
    cases hm
    decide +kernel
  rw [hrun] at hval
  exact of_decide_eq_true (Option.some.inj hval)

/-- Four entries of one key fill the array of their bucket; removing the first of them reads a fifth
one. -/
theorem not_removeInBounds : ¬ ∀ (m m' : Hashmap) (ops : List (QueueTable.Op CString Int Unit)) rs,
    hashmapNew true = some m → EveryState hashmapStep m ops Hashmap.Bounded →
    runSteps hashmapStep m ops = some (m', rs) → ∀ key, RemoveInBounds m' key := by
  intro h
  obtain ⟨m, hm⟩ : ∃ m, hashmapNew true = some m := ⟨_, rfl⟩
  have hbound := everyState_bounded (σ := Unit) hm
    (List.replicate 4 (.put (CString.lit "ann") 1)) (by decide)
  obtain ⟨m', rs, t, hrun, -⟩ := hashmapRun_represents hm hbound
  have hin := h m m' _ rs hm hbound hrun (CString.lit "ann")
  have hval : (runSteps hashmapStep m
      (List.replicate 4 (QueueTable.Op.put (σ := Unit) (CString.lit "ann") 1))).map
      (fun r => (hashmapRemoveAccesses r.1 (CString.lit "ann")).all fun j =>
        decide (j < (r.1.buckets (hashOf (CString.lit "ann"))).vroom)) = some false := by
    cases hm
    decide +kernel
  rw [hrun] at hval
  have hall := Option.some.inj hval
  rw [Bool.eq_false_iff] at hall
  exact hall (List.all_eq_true.2 fun j hj => decide_eq_true (hin j hj))

end

/-! ## The counter -/

/-- The sum of `vlen` over all buckets. -/
def Hashmap.sumVlen (m : Hashmap) : Nat :=
  ∑ i, (m.buckets i).vlen

/-- `num_entry` is the number of entries. -/
def Hashmap.Counted (m : Hashmap) : Prop :=
  m.numEntry = m.sumVlen

/-- The call takes no entry away: a removal misses, and `hashmap_empty` finds nothing to free. -/
def KeepsCount {σ : Type} (m : Hashmap) : QueueTable.Op CString Int σ → Prop
  | .remove key => ¬ m.HasKey key
  | .empty => ∀ i, (m.buckets i).vlen = 0
  | .put _ _ | .get _ | .iterate _ _ => True

section
variable {m m' : Hashmap} {key : CString} {value : Int} {l : Fin 256 → List (CString × Int)}
  {σ : Type}

/-- The sum after a bucket has been replaced. -/
theorem sumVlen_setBucket (m : Hashmap) (i : Fin 256) (hel : HashmapEntryList) :
    (m.setBucket i hel).sumVlen + (m.buckets i).vlen = m.sumVlen + hel.vlen := by
  have hupd : (fun j => ((m.setBucket i hel).buckets j).vlen) =
      Function.update (fun j => (m.buckets j).vlen) i hel.vlen := by
    funext j
    by_cases hj : j = i
    · subst hj
      simp [Hashmap.setBucket]
    · simp [Hashmap.setBucket, hj]
  have hsplit := Finset.sum_erase_add Finset.univ (fun j => (m.buckets j).vlen) (Finset.mem_univ i)
  rw [Hashmap.sumVlen, Hashmap.sumVlen, hupd, Finset.sum_update_of_mem (Finset.mem_univ i),
    ← Finset.erase_eq, ← hsplit]
  omega

/-- Buckets within their bound hold at most `2 ^ 23` entries together. -/
theorem Hashmap.Bounded.sumVlen_le (h : m.Bounded) : m.sumVlen ≤ 2 ^ 23 := by
  have hle : m.sumVlen ≤ ∑ _i : Fin 256, 32768 := Finset.sum_le_sum fun i _ => h i
  simpa using hle

/-- A `hashmap_put` that keeps its bucket within the bound counts its entry. -/
theorem Hashmap.Rep.counted_put (h : m.Rep fun i => some (l i)) (hc : m.Counted)
    (hput : hashmapPut .ok m key value = some m') (hbound : m'.Bounded) : m'.Counted := by
  have hb := h.holds (i := hashOf key) rfl
  have hlen := hb.vlen_eq
  rcases hb.filled.put .ok value with ⟨-, -, hel, hhel, hput'⟩ | ⟨-, hfull, hel, -, hvlen, hput'⟩
  · cases hput.symm.trans hput'
    have hvlen := hhel.vlen_eq
    rw [List.length_append, List.length_map, List.length_singleton] at hvlen
    have hsum := sumVlen_setBucket m (hashOf key) hel
    have hle : (m.setBucket (hashOf key) hel).sumVlen ≤ 2 ^ 23 :=
      Hashmap.Bounded.sumVlen_le hbound
    have hm : m.numEntry = m.sumVlen := hc
    show (m.numEntry + 1) % 2 ^ 64 = (m.setBucket (hashOf key) hel).sumVlen
    omega
  · cases hput.symm.trans hput'
    have hlt := hbound (hashOf key)
    simp only [Hashmap.setBucket, Function.update_self] at hlt
    have hfull' := hfull rfl
    omega

/-- A `hashmap_remove` that finds its key takes an entry away and counts as many. -/
theorem Hashmap.Rep.not_counted_remove (h : m.Rep fun i => some (l i)) (hc : m.Counted)
    (hkey : m.HasKey key) (hremove : hashmapRemove m key = some (value, m')) : ¬ m'.Counted := by
  have hb := h.holds (i := hashOf key) rfl
  rcases hb.find_cases with ⟨hnot, -⟩ | ⟨-, i, hi, hfind⟩
  · exact absurd hkey hnot
  · simp only [hashmapRemove, hfind] at hremove
    split at hremove
    · cases hremove
      intro hc'
      have hsum := sumVlen_setBucket m (hashOf key) ⟨(m.buckets (hashOf key)).vlen - 1,
        (m.buckets (hashOf key)).vroom, ‹Values›⟩
      have hm : m.numEntry = m.sumVlen := hc
      have hm' : m.numEntry = Hashmap.sumVlen _ := hc'
      simp only at hsum
      omega
    · cases hremove

/-- A `hashmap_remove` that finds nothing leaves the map. -/
theorem Hashmap.Rep.remove_of_not_hasKey (h : m.Rep fun i => some (l i)) (hkey : ¬ m.HasKey key)
    (hremove : hashmapRemove m key = some (value, m')) : m' = m := by
  have hb := h.holds (i := hashOf key) rfl
  rcases hb.find_cases with ⟨-, hfind⟩ | ⟨hhas, -⟩
  · simp only [hashmapRemove, hfind] at hremove
    cases hremove
    rfl
  · exact absurd hhas hkey

/-- `hashmap_empty` leaves no entry and `num_entry` as it is. -/
theorem Hashmap.Rep.counted_empty_iff (h : m.Rep fun i => some (l i)) (hc : m.Counted)
    (hempty : hashmapEmpty m = some m') : m'.Counted ↔ ∀ i, (m.buckets i).vlen = 0 := by
  have hm : m.numEntry = m.sumVlen := hc
  unfold hashmapEmpty at hempty
  split at hempty
  · cases hempty
    have hzero : Hashmap.sumVlen { m with
        buckets := fun i => if i.val < m.bucketsize then {} else m.buckets i } = 0 := by
      simp [Hashmap.sumVlen, h.bucketsize]
    rw [Hashmap.Counted, hzero]
    show m.numEntry = 0 ↔ _
    rw [hm, Hashmap.sumVlen, Finset.sum_eq_zero_iff]
    simp
  · cases hempty

/-- The maps that calls make of a new one, as long as `num_entry` is right. -/
def Hashmap.RepCounted (m : Hashmap) : Prop :=
  (∃ l : Fin 256 → List (CString × Int), m.Rep fun i => some (l i)) ∧ m.Counted

/-- A call that stays within the bound keeps `num_entry` right if and only if it takes no entry
away. -/
theorem Hashmap.RepCounted.step_iff (h : m.RepCounted) {op : QueueTable.Op CString Int σ}
    {r : QueueTable.Result Int σ} (hstep : hashmapStep m op = some (m', r)) (hbound : m'.Bounded) :
    m'.Counted ↔ KeepsCount m op := by
  obtain ⟨⟨l, hrep⟩, hc⟩ := h
  cases op with
  | put key value =>
    obtain ⟨m₁, hput, ⟨⟩⟩ := Option.map_eq_some_iff.1 hstep
    exact iff_of_true (hrep.counted_put hc hput hbound) trivial
  | remove key =>
    obtain ⟨⟨value, m₁⟩, hremove, ⟨⟩⟩ := Option.map_eq_some_iff.1 hstep
    refine ⟨fun hc' hkey => hrep.not_counted_remove hc hkey hremove hc', fun hkey => ?_⟩
    rw [hrep.remove_of_not_hasKey hkey hremove]
    exact hc
  | get key =>
    obtain ⟨value, -, ⟨⟩⟩ := Option.map_eq_some_iff.1 hstep
    exact iff_of_true hc trivial
  | iterate iter c =>
    obtain ⟨value, -, ⟨⟩⟩ := Option.map_eq_some_iff.1 hstep
    exact iff_of_true hc trivial
  | empty =>
    obtain ⟨m₁, hempty, ⟨⟩⟩ := Option.map_eq_some_iff.1 hstep
    exact hrep.counted_empty_iff hc hempty

/-- A call that takes no entry away keeps a represented map with the right `num_entry`. -/
theorem Hashmap.RepCounted.step (h : m.RepCounted) {op : QueueTable.Op CString Int σ}
    {r : QueueTable.Result Int σ} (hkeeps : KeepsCount m op)
    (hstep : hashmapStep m op = some (m', r)) (hbound : m'.Bounded) : m'.RepCounted := by
  refine ⟨?_, (h.step_iff hstep hbound).2 hkeeps⟩
  obtain ⟨l, hrep⟩ := h.1
  obtain ⟨m₁, r₁, hstep₁, hmatch⟩ := hashmapStep_refines m _ op ⟨l, hrep, rfl⟩
  cases hstep.symm.trans hstep₁
  obtain ⟨t', -, l', hrep', -⟩ := hmatch hbound
  exact ⟨l', hrep'⟩

/-- In a run of calls with succeeding allocations on a new map, without a bucket of more than 32768
entries: `num_entry` is the sum of `vlen` over the buckets after every call if and only if no call
takes an entry away. -/
theorem counted_iff_keepsCount (hnew : hashmapNew true = some m)
    (ops : List (QueueTable.Op CString Int σ))
    (hbound : EveryState hashmapStep m ops Hashmap.Bounded) :
    EveryState hashmapStep m ops Hashmap.Counted ↔ EachStep hashmapStep m ops KeepsCount := by
  refine everyState_iff_eachStep_of_good (I := Hashmap.RepCounted) (fun _ h => h.2)
    (fun _ _ _ _ h hkeeps hstep hgood => h.step hkeeps hstep hgood)
    (fun _ _ _ _ h hnot hstep hgood hc => hnot ((h.step_iff hstep hgood).1 hc)) ops ?_ hbound
  refine ⟨⟨_, hashmapNew_rep hnew⟩, ?_⟩
  cases hnew
  simp [Hashmap.Counted, Hashmap.sumVlen]

/-- Two values put behind one key are counted. -/
theorem counted_iff_keepsCount_two : ∃ m, hashmapNew true = some m ∧
    EveryState hashmapStep m (List.replicate 2 (QueueTable.Op.put (σ := Unit) (CString.lit "ann") 1))
      Hashmap.Counted := by
  obtain ⟨m, hm⟩ : ∃ m, hashmapNew true = some m := ⟨_, rfl⟩
  refine ⟨m, hm, (counted_iff_keepsCount hm _ (everyState_bounded hm _ (by decide))).2 ?_⟩
  intro pre op m₁ rs m₂ r hpre _ _
  obtain rfl : op = .put (CString.lit "ann") 1 :=
    List.eq_of_mem_replicate (hpre.subset (List.mem_append_right pre (List.mem_singleton_self op)))
  trivial

/-- A key put and removed again is still counted. -/
theorem not_counted : ∃ m ops, hashmapNew true = some m ∧
    EveryState (ω := QueueTable.Result Int Unit) hashmapStep m ops Hashmap.Bounded ∧
    ¬ EveryState hashmapStep m ops Hashmap.Counted := by
  obtain ⟨m, hm⟩ : ∃ m, hashmapNew true = some m := ⟨_, rfl⟩
  have hbound := everyState_bounded (σ := Unit) hm
    [.put (CString.lit "ann") 1, .remove (CString.lit "ann")] (by decide)
  obtain ⟨m', rs, t, hrun, -⟩ := hashmapRun_represents hm hbound
  have hval : (runSteps (σ := Hashmap) hashmapStep m [.put (CString.lit "ann") 1,
      QueueTable.Op.remove (σ := Unit) (CString.lit "ann")]).map
      (fun r => (r.1.numEntry, r.1.sumVlen)) = some (1, 0) := by
    cases hm
    decide +kernel
  rw [hrun] at hval
  have hpair : (m'.numEntry, m'.sumVlen) = (1, 0) := Option.some.inj hval
  obtain ⟨hnum, hsum⟩ := Prod.mk.inj hpair
  refine ⟨m, _, hm, hbound, fun h => ?_⟩
  have hcounted : m'.numEntry = m'.sumVlen := h _ m' rs (List.prefix_refl _) hrun
  omega

end

end MinervaBot
