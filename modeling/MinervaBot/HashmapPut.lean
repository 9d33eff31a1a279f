import Mathlib.Data.List.Induction
import MinervaBot.HashmapCorrect

/-!
# Insertions that overflow or fail

`hashmap_put` counts the new entry in `vlen` and doubles `vroom` before it asks for memory. `vroom`
is an `unsigned short`, so doubling `2 ^ 15` gives `0`, and the `realloc` of size `0` frees the
array. So the entries of a bucket are kept through `2 ^ 15` insertions and not one more
(`keepsEntries_iff`). When `realloc` returns `NULL`, `vlen` counts an entry that is not there; the
bucket is then `Broken`, and a bucket stays so, since every operation that gets to the missing entry
reads or writes outside the array (`failedPut_breaks`).
-/

namespace MinervaBot

open Lib

/-! ## Buckets -/

/-- The bucket holds the entries `es`, in this order. -/
inductive HashmapEntryList.Filled (hel : HashmapEntryList) (es : List HashmapEntry) : Prop
  | empty (hel_eq : hel = {}) (es_eq : es = [])
  | block (k : Nat) (rest : List (Option HashmapEntry)) (two_le : 2 ≤ k) (le_15 : k ≤ 15)
      (room : es.length + rest.length = 2 ^ k)
      (hel_eq : hel = ⟨es.length, 2 ^ k, .block (es.map some ++ rest)⟩)

/-- What a `hashmap_put` leaves of its bucket when `realloc` returns `NULL`: `vlen` counts an entry
that the array has no cell for. -/
inductive HashmapEntryList.Broken : HashmapEntryList → Prop
  | null : Broken ⟨1, 4, .null⟩
  | full (k : Nat) (cells : List (Option HashmapEntry)) (two_le : 2 ≤ k) (lt_15 : k < 15)
      (length_eq : cells.length = 2 ^ k) : Broken ⟨2 ^ k + 1, 2 ^ (k + 1), .block cells⟩
  | overflowed : Broken .overflowed

/-- The entry that a `hashmap_put` stores. -/
def newEntry (alloc : Alloc) (key : CString) (value : Int) : HashmapEntry :=
  ⟨if alloc.strdup then some key else none, value⟩

/-- The `vroom` that a `hashmap_put` asks for when the array is full. -/
def HashmapEntryList.doubled (hel : HashmapEntryList) : Nat :=
  (if hel.vroom = 0 then 4 else hel.vroom * 2) % 2 ^ 16

/-- `hashmap_put` calls `realloc` for the key, and it returns `NULL`. -/
def PutReallocNull (alloc : Alloc) (m : Hashmap) (key : CString) : Prop :=
  (m.buckets (hashOf key)).vroom < ((m.buckets (hashOf key)).vlen + 1) % 2 ^ 16 ∧
    ∃ values, reallocValues alloc.realloc (m.buckets (hashOf key)).values
      (m.buckets (hashOf key)).doubled = some (values, none)

section
variable {m m' : Hashmap} {key : CString} {value : Int} {alloc : Alloc} {hel : HashmapEntryList}
  {es : List HashmapEntry}

/-- `vlen` counts the entries. -/
theorem HashmapEntryList.Filled.vlen_eq (h : hel.Filled es) : hel.vlen = es.length := by
  rcases h with ⟨rfl, rfl⟩ | ⟨k, rest, -, -, -, rfl⟩ <;> rfl

/-- A bucket holds at most `2 ^ 15` entries. -/
theorem HashmapEntryList.Filled.length_le (h : hel.Filled es) : es.length ≤ 2 ^ 15 := by
  rcases h with ⟨-, rfl⟩ | ⟨k, rest, -, h15, hroom, -⟩
  · exact Nat.zero_le _
  · have : 2 ^ k ≤ 2 ^ 15 := Nat.pow_le_pow_right (by omega) h15
    omega

/-- The entries are below `vroom`. -/
theorem HashmapEntryList.Filled.le_vroom (h : hel.Filled es) : es.length ≤ hel.vroom := by
  rcases h with ⟨rfl, rfl⟩ | ⟨k, rest, -, -, hroom, rfl⟩
  · exact Nat.le_refl 0
  · simp only
    omega

/-- The entries below `vlen`. -/
theorem HashmapEntryList.Filled.read (h : hel.Filled es) {i : Nat} {he : HashmapEntry}
    (hi : es[i]? = some he) : hel.values.read i = some he := by
  obtain ⟨hlt, rfl⟩ := List.getElem?_eq_some_iff.1 hi
  rcases h with ⟨-, rfl⟩ | ⟨k, rest, -, -, -, rfl⟩
  · simp at hlt
  · have hlt' : i < (es.map some).length := by simpa using hlt
    simp [Values.read, List.getElem?_append_left hlt', hlt]

/-- A broken bucket counts an entry that cannot be read. -/
theorem HashmapEntryList.Broken.read (h : hel.Broken) :
    ∃ n, hel.vlen = n + 1 ∧ hel.values.read n = none := by
  cases h with
  | null => exact ⟨0, rfl, rfl⟩
  | full k cells two_le lt_15 length_eq =>
    refine ⟨2 ^ k, rfl, ?_⟩
    rw [Values.read, List.getElem?_eq_none (by omega)]
    rfl
  | overflowed => exact ⟨2 ^ 15, rfl, rfl⟩

/-! ## `hashmap_put` -/

/-- The end of `hashmap_put` on a block with a cell behind the entries. -/
theorem hashmapFillLast_filled (alloc : Alloc) (m : Hashmap) (es : List HashmapEntry) (key : CString)
    (value : Int) (hash : Fin 256) {k : Nat} (c : Option HashmapEntry)
    (rest : List (Option HashmapEntry)) (two_le : 2 ≤ k) (le_15 : k ≤ 15)
    (room : es.length + (rest.length + 1) = 2 ^ k) :
    ∃ hel : HashmapEntryList, hel.Filled (es ++ [newEntry alloc key value]) ∧
      hashmapFillLast alloc m hash
          ⟨es.length + 1, 2 ^ k, .block (es.map some ++ c :: rest)⟩ key value =
        some { m.setBucket hash hel with numEntry := (m.numEntry + 1) % 2 ^ 64 } := by
  have hin : 0 < es.length + 1 ∧ es.length + 1 ≤ (es.map some ++ c :: rest).length := by
    simp
  have hset : (es.map some ++ c :: rest).set es.length (some (newEntry alloc key value)) =
      (es ++ [newEntry alloc key value]).map some ++ rest := by
    rw [List.set_append_right _ _ (by simp)]
    simp
  refine ⟨⟨es.length + 1, 2 ^ k, .block ((es ++ [newEntry alloc key value]).map some ++ rest)⟩,
    .block k rest two_le le_15 (by simp; omega) (by simp), ?_⟩
  simp only [hashmapFillLast, if_pos hin, Nat.add_sub_cancel]
  rw [show (⟨if alloc.strdup = true then some key else none, value⟩ : HashmapEntry) =
    newEntry alloc key value from rfl, hset]
  rfl

/-- `hashmap_put` appends an entry to a bucket that holds the entries `es`. -/
structure PutAppends (alloc : Alloc) (m : Hashmap) (key : CString) (value : Int)
    (es : List HashmapEntry) : Prop where
  notNull : ¬ PutReallocNull alloc m key
  room : alloc.realloc = true → es.length < 2 ^ 15
  appended : ∃ hel : HashmapEntryList, hel.Filled (es ++ [newEntry alloc key value]) ∧
    hashmapPut alloc m key value =
      some { m.setBucket (hashOf key) hel with numEntry := (m.numEntry + 1) % 2 ^ 64 }

/-- `hashmap_put` breaks a bucket that holds the entries `es`. -/
structure PutBreaks (alloc : Alloc) (m : Hashmap) (key : CString) (value : Int)
    (es : List HashmapEntry) : Prop where
  null : PutReallocNull alloc m key
  full : alloc.realloc = true → es.length = 2 ^ 15
  broken : ∃ hel : HashmapEntryList, hel.Broken ∧ hel.vlen = es.length + 1 ∧
    hashmapPut alloc m key value = some (m.setBucket (hashOf key) hel)

/-- The first `hashmap_put` into a bucket asks for four cells. -/
theorem hashmapPut_first (hel_eq : m.buckets (hashOf key) = {}) (alloc : Alloc) (value : Int) :
    PutAppends alloc m key value [] ∨ PutBreaks alloc m key value [] := by
  cases hrealloc : alloc.realloc with
  | true =>
    obtain ⟨hel, hfilled, hput⟩ := hashmapFillLast_filled alloc m [] key value (hashOf key) (k := 2)
      none [none, none, none] (by omega) (by omega) rfl
    refine .inl ⟨?_, fun _ => by simp, hel, hfilled, ?_⟩
    · rintro ⟨-, values, hnull⟩
      simp [hel_eq, hrealloc, reallocValues] at hnull
    · rw [← hput]
      simp [hashmapPut, hel_eq, reallocValues, hrealloc]
  | false =>
    refine .inr ⟨⟨by simp [hel_eq], .null, by simp [hel_eq, hrealloc, reallocValues]⟩,
      fun htrue => absurd (hrealloc.symm.trans htrue) Bool.false_ne_true, ⟨1, 4, .null⟩, .null, rfl,
      ?_⟩
    simp [hashmapPut, hel_eq, reallocValues, hrealloc]

/-- A `hashmap_put` into a bucket with a cell left asks for nothing. -/
theorem hashmapPut_cell {k : Nat} {c : Option HashmapEntry} {rest : List (Option HashmapEntry)}
    (two_le : 2 ≤ k) (le_15 : k ≤ 15) (room : es.length + (rest.length + 1) = 2 ^ k)
    (hel_eq : m.buckets (hashOf key) = ⟨es.length, 2 ^ k, .block (es.map some ++ c :: rest)⟩)
    (alloc : Alloc) (value : Int) : PutAppends alloc m key value es := by
  have hpow : 2 ^ k ≤ 2 ^ 15 := Nat.pow_le_pow_right (by omega) le_15
  obtain ⟨hel, hfilled, hput⟩ :=
    hashmapFillLast_filled alloc m es key value (hashOf key) c rest two_le le_15 room
  refine ⟨?_, fun _ => by omega, hel, hfilled,
    (hashmapPut_room hel_eq (by omega) hpow value).trans hput⟩
  rintro ⟨hlt, -⟩
  simp only [hel_eq] at hlt
  omega

/-- A `hashmap_put` into a full bucket with fewer than `2 ^ 15` cells asks for twice as many. -/
theorem hashmapPut_double {k : Nat} (two_le : 2 ≤ k) (lt_15 : k < 15) (full : es.length = 2 ^ k)
    (hel_eq : m.buckets (hashOf key) = ⟨2 ^ k, 2 ^ k, .block (es.map some)⟩) (alloc : Alloc)
    (value : Int) : PutAppends alloc m key value es ∨ PutBreaks alloc m key value es := by
  obtain ⟨hlen, hmod, hpos⟩ := doubled_eq lt_15
  have hpow : 2 ^ (k + 1) ≤ 2 ^ 15 := Nat.pow_le_pow_right (by omega) lt_15
  have hdouble : 2 ^ (k + 1) = 2 ^ k * 2 := Nat.pow_succ 2 k
  cases hrealloc : alloc.realloc with
  | true =>
    have hcells : (es.map some).take (2 ^ (k + 1)) ++
        List.replicate (2 ^ (k + 1) - (es.map some).length) none =
        es.map some ++ none :: List.replicate (es.length - 1) none := by
      rw [List.take_of_length_le (by simp; omega), ← List.replicate_succ]
      congr 2
      simp; omega
    obtain ⟨hel, hfilled, hput⟩ := hashmapFillLast_filled alloc m es key value (hashOf key)
      (k := k + 1) none (List.replicate (es.length - 1) none) (by omega) (by omega)
      (by simp; omega)
    rw [← hcells, full] at hput
    refine .inl ⟨?_, fun _ => by omega, hel, hfilled,
      (hashmapPut_full hrealloc lt_15 hel_eq value).trans hput⟩
    rintro ⟨-, values, hnull⟩
    rw [HashmapEntryList.doubled, hel_eq, hmod, hrealloc, reallocValues, if_neg (by omega)] at hnull
    cases hnull
  | false =>
    have hnull : reallocValues false (.block (es.map some)) (2 ^ (k + 1)) =
        some (.block (es.map some), none) := by
      rw [reallocValues, if_neg (by omega), if_neg Bool.false_ne_true]
    refine .inr ⟨⟨?_, .block (es.map some), ?_⟩,
      fun htrue => absurd (hrealloc.symm.trans htrue) Bool.false_ne_true, _,
      .full k (es.map some) two_le lt_15 (by simpa using full), by rw [full], ?_⟩
    · simp only [hel_eq, hlen]
      omega
    · rw [HashmapEntryList.doubled, hel_eq, hmod, hrealloc, hnull]
    · simp only [hashmapPut, hel_eq, hlen, hmod, hrealloc, hnull]
      rw [if_pos (by omega)]

/-- What `hashmap_put` does to a bucket that holds entries: it appends one, or breaks the bucket if
`realloc` returns `NULL`; and `realloc` returns `NULL` whenever the bucket is full and either fails
or has `2 ^ 15` entries. -/
theorem HashmapEntryList.Filled.put (h : (m.buckets (hashOf key)).Filled es) (alloc : Alloc)
    (value : Int) : PutAppends alloc m key value es ∨ PutBreaks alloc m key value es := by
  rcases h with ⟨hel_eq, rfl⟩ | ⟨k, rest, h2, h15, hroom, hel_eq⟩
  · exact hashmapPut_first hel_eq alloc value
  · cases rest with
    | cons c rest => exact .inl (hashmapPut_cell h2 h15 hroom hel_eq alloc value)
    | nil =>
      rw [List.length_nil, Nat.add_zero] at hroom
      rw [hroom, List.append_nil] at hel_eq
      rcases Nat.lt_or_ge k 15 with hk | hk
      · exact hashmapPut_double h2 hk hroom hel_eq alloc value
      · obtain rfl : k = 15 := by omega
        refine .inr ⟨⟨by simp [hel_eq], .freed, ?_⟩, fun _ => hroom, _, .overflowed,
          by rw [hroom]; rfl, hashmapPut_overflow hel_eq value⟩
        simp [HashmapEntryList.doubled, hel_eq, reallocValues]

/-- `hashmap_put` on a broken bucket writes outside the array, or hands a freed pointer to
`realloc`. -/
theorem HashmapEntryList.Broken.put (h : (m.buckets (hashOf key)).Broken) (alloc : Alloc)
    (value : Int) : hashmapPut alloc m key value = none := by
  generalize hhel : m.buckets (hashOf key) = hel at h
  cases h with
  | null =>
    rw [hashmapPut_room hhel (by omega) (by omega)]
    rfl
  | full k cells two_le lt_15 length_eq =>
    obtain ⟨-, -, hpos⟩ := doubled_eq lt_15
    have hdouble : 2 ^ (k + 1) = 2 ^ k * 2 := Nat.pow_succ 2 k
    have hfour : 2 ^ 2 ≤ 2 ^ k := Nat.pow_le_pow_right (by omega) two_le
    rw [hashmapPut_room hhel (by omega) (Nat.pow_le_pow_right (by omega) lt_15), hashmapFillLast]
    exact if_neg (by simp only; omega)
  | overflowed =>
    rw [hashmapPut, hhel]
    rfl

end

/-! ## Many insertions -/

/-- A `hashmap_put` whose `realloc` succeeds unless its size is `0`. -/
structure PutCall where
  key : CString
  value : Int
  strdup : Bool
  deriving DecidableEq

/-- The outcomes of its allocations. -/
def PutCall.alloc (c : PutCall) : Alloc :=
  ⟨true, c.strdup⟩

/-- The entry it stores. -/
def PutCall.entry (c : PutCall) : HashmapEntry :=
  newEntry c.alloc c.key c.value

/-- One call. -/
def putStep (m : Hashmap) (c : PutCall) : Option (Hashmap × Unit) :=
  (hashmapPut c.alloc m c.key c.value).map fun m' => (m', ())

/-- The entries that calls put into a bucket, in order. -/
def entriesOf (calls : List PutCall) (i : Fin 256) : List HashmapEntry :=
  (calls.filter fun c => hashOf c.key = i).map PutCall.entry

/-- The bucket of a call after it: `vlen` is at most `vroom`, the new entry is the last one, and the
earlier ones are still there. -/
structure PutCall.Stored (earlier : List HashmapEntry) (c : PutCall) (hel : HashmapEntryList) :
    Prop where
  pos : 0 < hel.vlen
  le_vroom : hel.vlen ≤ hel.vroom
  last : hel.values.read (hel.vlen - 1) = some c.entry
  kept : ∀ (k : Nat) (he : HashmapEntry), earlier[k]? = some he →
    k < hel.vlen - 1 ∧ hel.values.read k = some he

/-- On a map from `hashmap_new`, every call stores its entry and keeps the earlier ones. -/
def KeepsEntries (calls : List PutCall) : Prop :=
  ∀ pre c m₀ m us, pre ++ [c] <+: calls → hashmapNew true = some m₀ →
    runSteps putStep m₀ pre = some (m, us) →
      ∃ m', hashmapPut c.alloc m c.key c.value = some m' ∧
        c.Stored (entriesOf pre (hashOf c.key)) (m'.buckets (hashOf c.key))

section
variable {m m₀ : Hashmap} {c : PutCall} {pre calls : List PutCall}

theorem entriesOf_concat (pre : List PutCall) (c : PutCall) (i : Fin 256) :
    entriesOf (pre ++ [c]) i =
      if hashOf c.key = i then entriesOf pre i ++ [c.entry] else entriesOf pre i := by
  by_cases hi : hashOf c.key = i <;> simp [entriesOf, hi]

/-- The first calls put no more into a bucket. -/
theorem length_entriesOf_le (h : pre <+: calls) (i : Fin 256) :
    (entriesOf pre i).length ≤ (entriesOf calls i).length :=
  ((h.filter _).map _).length_le

/-- A bucket with an entry behind the earlier ones. -/
theorem PutCall.stored_of_filled {earlier : List HashmapEntry} {hel : HashmapEntryList}
    (h : hel.Filled (earlier ++ [c.entry])) : c.Stored earlier hel := by
  have hlen := h.vlen_eq
  rw [List.length_append, List.length_singleton] at hlen
  refine ⟨by omega, hlen ▸ ?_, h.read ?_, fun k he hk => ⟨?_, h.read ?_⟩⟩
  · simpa using h.le_vroom
  · rw [hlen, Nat.add_sub_cancel, List.getElem?_concat_length]
  · have hlt := (List.getElem?_eq_some_iff.1 hk).1
    omega
  · rwa [List.getElem?_append_left (List.getElem?_eq_some_iff.1 hk).1]

/-- One call on a bucket with fewer than `2 ^ 15` entries. -/
theorem putStep_filled (hm : ∀ i, (m.buckets i).Filled (entriesOf pre i))
    (hlt : (entriesOf pre (hashOf c.key)).length < 2 ^ 15) :
    ∃ m', hashmapPut c.alloc m c.key c.value = some m' ∧
      c.Stored (entriesOf pre (hashOf c.key)) (m'.buckets (hashOf c.key)) ∧
      ∀ i, (m'.buckets i).Filled (entriesOf (pre ++ [c]) i) := by
  rcases (hm (hashOf c.key)).put c.alloc c.value with ⟨-, -, hel, hfilled, hput⟩ | ⟨-, hfull, -⟩
  · change hel.Filled (_ ++ [c.entry]) at hfilled
    refine ⟨_, hput, PutCall.stored_of_filled (by simpa [Hashmap.setBucket] using hfilled),
      fun i => ?_⟩
    rw [entriesOf_concat]
    by_cases hi : hashOf c.key = i
    · subst hi
      rw [if_pos rfl]
      simpa [Hashmap.setBucket] using hfilled
    · rw [if_neg hi]
      simpa [Hashmap.setBucket, Function.update_of_ne (Ne.symm hi)] using hm i
  · exact absurd (hfull rfl) (Nat.ne_of_lt hlt)

/-- A run that puts at most `2 ^ 15` entries into each bucket. Induction from the end. -/
theorem putRun_filled (hnew : hashmapNew true = some m₀) (calls : List PutCall) :
    (∀ i, (entriesOf calls i).length ≤ 2 ^ 15) →
      ∃ m us, runSteps putStep m₀ calls = some (m, us) ∧
        ∀ i, (m.buckets i).Filled (entriesOf calls i) := by
  induction calls using List.reverseRecOn with
  | nil =>
    intro _
    cases hnew
    exact ⟨_, [], rfl, fun i => .empty rfl rfl⟩
  | append_singleton pre c ih =>
    intro hle
    have hpre : ∀ i, (entriesOf pre i).length ≤ 2 ^ 15 := fun i =>
      (length_entriesOf_le (List.prefix_append pre [c]) i).trans (hle i)
    obtain ⟨m, us, hrun, hm⟩ := ih hpre
    have hlast := hle (hashOf c.key)
    rw [entriesOf_concat, if_pos rfl, List.length_append, List.length_singleton] at hlast
    obtain ⟨m', hput, -, hm'⟩ := putStep_filled hm hlast
    have hstep : putStep m c = some (m', ()) := by
      rw [putStep, hput]
      rfl
    exact ⟨m', _, runSteps_append (runSteps_cons hstep rfl) hrun, hm'⟩

/-- A bucket with `2 ^ 15` entries loses them by the next call. -/
theorem not_stored_of_full (hm : ∀ i, (m.buckets i).Filled (entriesOf pre i))
    (hfull : ¬ (entriesOf pre (hashOf c.key)).length < 2 ^ 15) {m' : Hashmap}
    (hput : hashmapPut c.alloc m c.key c.value = some m') :
    ¬ c.Stored (entriesOf pre (hashOf c.key)) (m'.buckets (hashOf c.key)) := by
  intro hstored
  rcases (hm (hashOf c.key)).put c.alloc c.value with ⟨-, hlt, -⟩ | ⟨-, -, hel, hbroken, -, hput'⟩
  · exact hfull (hlt rfl)
  · cases hput.symm.trans hput'
    obtain ⟨n, hn, hread⟩ := hbroken.read
    have hlast := hstored.last
    simp only [Hashmap.setBucket, Function.update_self] at hlast
    rw [hn, Nat.add_sub_cancel, hread] at hlast
    cases hlast

/-- Calls that keep all entries put at most `2 ^ 15` into each bucket. Induction from the end. -/
theorem KeepsEntries.length_le (calls : List PutCall) :
    KeepsEntries calls → ∀ i, (entriesOf calls i).length ≤ 2 ^ 15 := by
  induction calls using List.reverseRecOn with
  | nil => exact fun _ i => Nat.zero_le _
  | append_singleton pre c ih =>
    intro hkeeps
    have hpre := ih fun pre' c' m₀ m us hpre' =>
      hkeeps pre' c' m₀ m us (hpre'.trans (List.prefix_append pre [c]))
    obtain ⟨m, us, hrun, hm⟩ := putRun_filled rfl pre hpre
    obtain ⟨m', hput, hstored⟩ := hkeeps pre c _ m us (List.prefix_refl _) rfl hrun
    have hlt : (entriesOf pre (hashOf c.key)).length < 2 ^ 15 := by
      by_contra hfull
      exact not_stored_of_full hm hfull hput hstored
    intro i
    rw [entriesOf_concat]
    by_cases hi : hashOf c.key = i
    · subst hi
      rw [if_pos rfl, List.length_append, List.length_singleton]
      omega
    · rw [if_neg hi]
      exact hpre i

/-- Calls of `hashmap_put` on a new map keep all entries if and only if they put at most `2 ^ 15` of
them into each bucket. -/
theorem keepsEntries_iff (calls : List PutCall) :
    KeepsEntries calls ↔ ∀ i, (entriesOf calls i).length ≤ 2 ^ 15 := by
  constructor
  · exact KeepsEntries.length_le calls
  · intro hle pre c m₀ m us hpre hnew hrun
    have hle' : ∀ i, (entriesOf (pre ++ [c]) i).length ≤ 2 ^ 15 := fun i =>
      (length_entriesOf_le hpre i).trans (hle i)
    obtain ⟨m₁, us₁, hrun₁, hm⟩ := putRun_filled hnew pre fun i =>
      (length_entriesOf_le (List.prefix_append pre [c]) i).trans (hle' i)
    obtain ⟨rfl, -⟩ := Prod.mk.inj (Option.some.inj (hrun.symm.trans hrun₁))
    have hlast := hle' (hashOf c.key)
    rw [entriesOf_concat, if_pos rfl, List.length_append, List.length_singleton] at hlast
    obtain ⟨m', hput, hstored, -⟩ := putStep_filled hm hlast
    exact ⟨m', hput, hstored⟩

/-- The same key put 32769 times. -/
theorem not_keepsEntries :
    ¬ KeepsEntries (List.replicate 32769 ⟨CString.lit "ann", 1, true⟩) := by
  intro h
  have hle := KeepsEntries.length_le _ h (hashOf (CString.lit "ann"))
  rw [entriesOf, List.filter_replicate, if_pos (by simp), List.map_replicate,
    List.length_replicate] at hle
  omega

end

/-! ## Insertions that fail -/

/-- A call that changes the map, with the outcomes of its allocations; `hashmap_get` and
`hashmap_iterate` leave it. -/
inductive HashmapCall where
  | put (alloc : Alloc) (key : CString) (value : Int)
  | remove (key : CString)
  | empty

/-- One call. -/
def hashmapCall (m : Hashmap) : HashmapCall → Option (Hashmap × Unit)
  | .put alloc key value => (hashmapPut alloc m key value).map fun m' => (m', ())
  | .remove key => (hashmapRemove m key).map fun r => (r.2, ())
  | .empty => (hashmapEmpty m).map fun m' => (m', ())

/-- `hashmap_put` leaves `vlen`, `vroom` and `values` of every bucket, and `num_entry`. -/
def PutLeaves (alloc : Alloc) (m : Hashmap) (key : CString) (value : Int) : Prop :=
  ∃ m', hashmapPut alloc m key value = some m' ∧ m'.numEntry = m.numEntry ∧
    ∀ i, m'.buckets i = m.buckets i

/-- Every bucket holds entries, or is broken. -/
structure Hashmap.Reached (m : Hashmap) : Prop where
  bucketsize : m.bucketsize = 256
  bucket : ∀ i, (∃ es, (m.buckets i).Filled es) ∨ (m.buckets i).Broken

section
variable {m m' : Hashmap} {key : CString} {hel : HashmapEntryList} {es : List HashmapEntry}

/-- The search stays within its range. -/
theorem hashmapFind_lt {values : Values} : ∀ {n i j : Nat},
    hashmapFind values key n i = some (some j) → i ≤ j ∧ j < i + n
  | 0, i, j, h => by cases h
  | n + 1, i, j, h => by
    rw [hashmapFind] at h
    split at h
    · split at h
      · cases h
        omega
      · have hrest := hashmapFind_lt h
        omega
    · cases h

/-- A search that reads an entry which is not there has no result. -/
theorem hashmapFind_ne_none {values : Values} : ∀ {n i : Nat} {k : Nat},
    hashmapFind values key n i = some none → i ≤ k → k < i + n → values.read k ≠ none
  | 0, i, k, _, hle, hlt => by omega
  | n + 1, i, k, h, hle, hlt => by
    rw [hashmapFind] at h
    split at h
    · next hread =>
      split at h
      · cases h
      · rcases Nat.eq_or_lt_of_le hle with rfl | hlt'
        · rw [hread]
          exact Option.some_ne_none _
        · exact hashmapFind_ne_none h hlt' (by omega)
    · cases h

/-- `hashmap_remove` on a broken bucket moves an entry that is not there. -/
theorem HashmapEntryList.Broken.remove (h : (m.buckets (hashOf key)).Broken) :
    hashmapRemove m key = none := by
  have hmove : ∀ i, (m.buckets (hashOf key)).values.moveDown i (m.buckets (hashOf key)).vlen =
      none := by
    intro i
    generalize m.buckets (hashOf key) = hel at h
    cases h with
    | full k cells two_le lt_15 length_eq => exact if_neg (by simp only; omega)
    | _ => rfl
  obtain ⟨n, hn, hread⟩ := h.read
  simp only [hashmapRemove]
  split
  · rfl
  · next hfind => exact absurd hread (hashmapFind_ne_none hfind (Nat.zero_le n) (by omega))
  · rw [hmove]
    split
    · next hnone => cases hnone
    · rfl

/-- `hashmap_remove` closes the gap that an entry leaves. -/
theorem HashmapEntryList.Filled.remove {i : Nat} {values : Values}
    (h : hel.Filled es) (hi : i < es.length) (hmove : hel.values.moveDown i hel.vlen = some values) :
    (⟨hel.vlen - 1, hel.vroom, values⟩ : HashmapEntryList).Filled (es.eraseIdx i) := by
  rcases h with ⟨-, rfl⟩ | ⟨k, rest, h2, h15, hroom, rfl⟩
  · exact absurd hi (Nat.not_lt_zero i)
  · obtain ⟨pre, he, post, rfl, rfl⟩ : ∃ pre he post, es = pre ++ he :: post ∧ pre.length = i :=
      ⟨es.take i, es[i], es.drop (i + 1), by rw [← List.drop_eq_getElem_cons hi,
        List.take_append_drop], by rw [List.length_take]; omega⟩
    have hcells := mapIdx_moveDown (pre.map some) (post.map some) rest (some he)
    simp only [List.length_map, List.length_append, List.length_cons] at hcells
    simp only [Values.moveDown] at hmove
    rw [if_pos (by simp)] at hmove
    simp only [List.map_append, List.map_cons, List.length_append, List.length_cons] at hmove
    rw [hcells] at hmove
    cases hmove
    rw [List.eraseIdx_append_of_length_le (Nat.le_refl _), Nat.sub_self, List.eraseIdx_cons_zero]
    refine .block k (rest.head?.join :: rest) h2 h15 ?_ ?_
    · simp at hroom ⊢
      omega
    · simp

/-- The bucket of a key replaced. -/
theorem Hashmap.Reached.setBucket (h : m.Reached) (hash : Fin 256)
    (hhel : (∃ es, hel.Filled es) ∨ hel.Broken) (n : Nat) :
    { m.setBucket hash hel with numEntry := n }.Reached := by
  refine ⟨h.bucketsize, fun i => ?_⟩
  by_cases hi : i = hash
  · subst hi
    simpa [Hashmap.setBucket] using hhel
  · simpa [Hashmap.setBucket, Function.update_of_ne hi] using h.bucket i

/-- A call keeps the buckets filled or broken. -/
theorem Hashmap.Reached.call (h : m.Reached) {c : HashmapCall} {u : Unit}
    (hstep : hashmapCall m c = some (m', u)) : m'.Reached := by
  cases c with
  | put alloc key value =>
    obtain ⟨m₁, hput, ⟨⟩⟩ := Option.map_eq_some_iff.1 hstep
    rcases h.bucket (hashOf key) with ⟨es, hfilled⟩ | hbroken
    · rcases hfilled.put alloc value with ⟨-, -, hel, hhel, hput'⟩ | ⟨-, -, hel, hhel, -, hput'⟩
      · cases hput.symm.trans hput'
        exact h.setBucket _ (.inl ⟨_, hhel⟩) _
      · cases hput.symm.trans hput'
        exact h.setBucket _ (.inr hhel) _
    · rw [hbroken.put alloc value] at hput
      cases hput
  | remove key =>
    obtain ⟨⟨value, m₁⟩, hremove, ⟨⟩⟩ := Option.map_eq_some_iff.1 hstep
    rcases h.bucket (hashOf key) with ⟨es, hfilled⟩ | hbroken
    · simp only [hashmapRemove] at hremove
      split at hremove
      · cases hremove
      · cases hremove
        exact h
      · next i hfind =>
        split at hremove
        · next he values hread hmove =>
          cases hremove
          have hlt := (hashmapFind_lt hfind).2
          rw [hfilled.vlen_eq, Nat.zero_add] at hlt
          exact h.setBucket _ (.inl ⟨_, hfilled.remove hlt hmove⟩) _
        · cases hremove
    · rw [hbroken.remove] at hremove
      cases hremove
  | empty =>
    obtain ⟨m₁, hempty, ⟨⟩⟩ := Option.map_eq_some_iff.1 hstep
    unfold hashmapEmpty at hempty
    split at hempty
    · cases hempty
      refine ⟨h.bucketsize, fun i => ?_⟩
      simp only
      split
      · exact .inl ⟨[], .empty rfl rfl⟩
      · exact h.bucket i
    · cases hempty

/-- Every map that calls make of a new map. -/
theorem reached_of_run {calls : List HashmapCall} {m₀ : Hashmap} {us : List Unit}
    (hnew : hashmapNew true = some m₀) (hrun : runSteps hashmapCall m₀ calls = some (m, us)) :
    m.Reached := by
  cases hnew
  exact runSteps_preserves (fun _ _ _ _ h hstep => h.call hstep)
    ⟨rfl, fun i => .inl ⟨[], .empty rfl rfl⟩⟩ hrun

/-- `hashmap_empty` frees the key of an entry that is not there. -/
theorem Hashmap.Reached.empty_of_broken (h : m.Reached) {i : Fin 256} (hi : (m.buckets i).Broken) :
    hashmapEmpty m = none := by
  obtain ⟨n, hn, hread⟩ := hi.read
  refine if_neg fun hall => ?_
  have hmem : i ∈ m.indices := by
    simp [Hashmap.indices, h.bucketsize]
  have hfree := List.all_eq_true.1 hall i hmem
  rw [HashmapEntryList.freeable, Bool.and_eq_true, List.all_eq_true] at hfree
  have hsome := hfree.2 n (List.mem_range.2 (by omega))
  rw [hread] at hsome
  cases hsome

/-- A broken bucket stays as it is. -/
theorem Hashmap.Reached.call_broken (h : m.Reached) {i : Fin 256} (hi : (m.buckets i).Broken)
    {c : HashmapCall} {u : Unit} (hstep : hashmapCall m c = some (m', u)) :
    m'.buckets i = m.buckets i := by
  cases c with
  | put alloc key value =>
    obtain ⟨m₁, hput, ⟨⟩⟩ := Option.map_eq_some_iff.1 hstep
    by_cases hkey : hashOf key = i
    · subst hkey
      rw [hi.put alloc value] at hput
      cases hput
    · rcases h.bucket (hashOf key) with ⟨es, hfilled⟩ | hbroken
      · rcases hfilled.put alloc value with ⟨-, -, hel, -, hput'⟩ | ⟨-, -, hel, -, -, hput'⟩ <;>
        · cases hput.symm.trans hput'
          exact Function.update_of_ne (Ne.symm hkey) hel m.buckets
      · rw [hbroken.put alloc value] at hput
        cases hput
  | remove key =>
    obtain ⟨⟨value, m₁⟩, hremove, ⟨⟩⟩ := Option.map_eq_some_iff.1 hstep
    by_cases hkey : hashOf key = i
    · subst hkey
      rw [hi.remove] at hremove
      cases hremove
    · simp only [hashmapRemove] at hremove
      split at hremove
      · cases hremove
      · cases hremove
        rfl
      · split at hremove
        · cases hremove
          exact Function.update_of_ne (Ne.symm hkey) _ m.buckets
        · cases hremove
  | empty =>
    obtain ⟨m₁, hempty, ⟨⟩⟩ := Option.map_eq_some_iff.1 hstep
    rw [h.empty_of_broken hi] at hempty
    cases hempty

/-- Later calls do not mend a broken bucket. -/
theorem Hashmap.Reached.run_broken (h : m.Reached) {i : Fin 256} (hi : (m.buckets i).Broken)
    {calls : List HashmapCall} {us : List Unit}
    (hrun : runSteps hashmapCall m calls = some (m', us)) :
    m'.Reached ∧ (m'.buckets i).Broken := by
  refine runSteps_preserves (P := fun m => m.Reached ∧ (m.buckets i).Broken) ?_ ⟨h, hi⟩ hrun
  rintro m₁ c m₂ u ⟨hreached, hbroken⟩ hstep
  exact ⟨hreached.call hstep, (hreached.call_broken hbroken hstep).symm ▸ hbroken⟩

/-- After a `hashmap_put` whose `realloc` returned `NULL`. -/
theorem HashmapEntryList.Filled.put_null (h : (m.buckets (hashOf key)).Filled es) {alloc : Alloc}
    (value : Int) (hnull : PutReallocNull alloc m key) :
    ∃ hel : HashmapEntryList, hel.Broken ∧ hel.vlen = (m.buckets (hashOf key)).vlen + 1 ∧
      hashmapPut alloc m key value = some (m.setBucket (hashOf key) hel) := by
  rcases h.put alloc value with ⟨hnot, -⟩ | ⟨-, -, hel, hhel, hlen, hput⟩
  · exact absurd hnull hnot
  · exact ⟨hel, hhel, by rw [hlen, h.vlen_eq], hput⟩

/-- On a broken bucket no `realloc` returns `NULL`. -/
theorem HashmapEntryList.Broken.not_null (h : (m.buckets (hashOf key)).Broken) (alloc : Alloc) :
    ¬ PutReallocNull alloc m key := by
  rintro ⟨hlt, values, hrealloc⟩
  generalize m.buckets (hashOf key) = hel at h hlt hrealloc
  cases h with
  | null => simp at hlt
  | full k cells two_le lt_15 length_eq =>
    have hdouble : 2 ^ (k + 1) = 2 ^ k * 2 := Nat.pow_succ 2 k
    have hfour : 2 ^ 2 ≤ 2 ^ k := Nat.pow_le_pow_right (by omega) two_le
    have hmod := Nat.mod_le (2 ^ k + 1 + 1) (2 ^ 16)
    simp only at hlt
    omega
  | overflowed => cases hrealloc

/-- Whatever calls have made of a new map: when the `realloc` of a `hashmap_put` returns `NULL`, the
map is not left as it was, and after any further calls `hashmap_empty` is undefined, and so are
`hashmap_put` and `hashmap_remove` for the keys of that bucket. -/
theorem failedPut_breaks {calls : List HashmapCall} {m₀ m : Hashmap} {us : List Unit}
    (hnew : hashmapNew true = some m₀) (hrun : runSteps hashmapCall m₀ calls = some (m, us))
    (alloc : Alloc) (key : CString) (value : Int) (hnull : PutReallocNull alloc m key) :
    ¬ PutLeaves alloc m key value ∧
      ∃ m', hashmapPut alloc m key value = some m' ∧
        ∀ later m'' us', runSteps hashmapCall m' later = some (m'', us') →
          hashmapEmpty m'' = none ∧ ∀ key', hashOf key' = hashOf key →
            hashmapRemove m'' key' = none ∧
            ∀ alloc' value', hashmapPut alloc' m'' key' value' = none := by
  have hreached := reached_of_run hnew hrun
  rcases hreached.bucket (hashOf key) with ⟨es, hfilled⟩ | hbroken
  · obtain ⟨hel, hhel, hlen, hput⟩ := hfilled.put_null value hnull
    have hbucket : (m.setBucket (hashOf key) hel).buckets (hashOf key) = hel := by
      simp [Hashmap.setBucket]
    have hreached' := hreached.setBucket (hashOf key) (.inr hhel) m.numEntry
    refine ⟨?_, _, hput, fun later m'' us' hlater => ?_⟩
    · rintro ⟨m', hput', -, hsame⟩
      cases hput.symm.trans hput'
      have hsame' := congrArg HashmapEntryList.vlen (hsame (hashOf key))
      rw [hbucket] at hsame'
      omega
    · obtain ⟨hreached'', hbroken⟩ := hreached'.run_broken (hbucket.symm ▸ hhel) hlater
      refine ⟨hreached''.empty_of_broken hbroken, fun key' hkey' => ?_⟩
      rw [← hkey'] at hbroken
      exact ⟨hbroken.remove, fun alloc' value' => hbroken.put alloc' value'⟩
  · exact absurd hnull (hbroken.not_null alloc)

/-- The first insertion into a new map fails. -/
theorem failedPut_breaks_first :
    ¬ PutLeaves ⟨false, true⟩ { numEntry := 0, bucketsize := 256, buckets := fun _ => {} }
      (CString.lit "ann") 1 :=
  (@failedPut_breaks [] _ _ _ rfl rfl ⟨false, true⟩ (CString.lit "ann") 1
    ⟨by simp, .null, by simp [reallocValues]⟩).1

/-- A failing insertion of `ann` into a new map: `vlen` and `vroom` of its bucket change, and
removing `ann` is fine before it and not after it. -/
theorem not_putLeaves :
    ∃ m₀ m, hashmapNew true = some m₀ ∧ PutReallocNull ⟨false, true⟩ m₀ (CString.lit "ann") ∧
      ¬ PutLeaves ⟨false, true⟩ m₀ (CString.lit "ann") 1 ∧
      hashmapPut ⟨false, true⟩ m₀ (CString.lit "ann") 1 = some m ∧
      (hashmapRemove m₀ (CString.lit "ann")).isSome ∧
      hashmapRemove m (CString.lit "ann") = none := by
  have hput : hashmapPut ⟨false, true⟩ { numEntry := 0, bucketsize := 256, buckets := fun _ => {} }
      (CString.lit "ann") 1 =
        some (Hashmap.setBucket { numEntry := 0, bucketsize := 256, buckets := fun _ => {} }
          (hashOf (CString.lit "ann")) ⟨1, 4, .null⟩) := by
    simp [hashmapPut, reallocValues]
  refine ⟨_, _, rfl, ⟨by simp, .null, by simp [reallocValues]⟩, ?_, hput, ?_, ?_⟩
  · rintro ⟨m', hput', -, hsame⟩
    cases hput.symm.trans hput'
    have hsame' := congrArg HashmapEntryList.vlen (hsame (hashOf (CString.lit "ann")))
    simp [Hashmap.setBucket] at hsame'
  · simp [hashmapRemove, hashmapFind]
  · exact HashmapEntryList.Broken.remove (by simpa [Hashmap.setBucket] using .null)

end

end MinervaBot
