import MinervaBot.Lib.CString

/-!
# Strings in memory

`Mem.HasStr m p s`: at address `p` of `m` stand the bytes of the C string `s` and a terminator.
The rules say what `memcpy` and a single write do to such a string: a copy puts a string at its
target, what lies outside a region that is written keeps its strings, and a terminator written into
a string makes two strings of it (`HasStr.cut`). `Mem.pack` copies strings one behind the other;
`pack_hasPack` is the rule for it. `Region` is a range of addresses.
-/

namespace Lib

/-! ## Regions -/

/-- `size` bytes from `start` on. -/
structure Region where
  start : Int
  size : Nat
  deriving DecidableEq

namespace Region

instance : Membership Int Region :=
  ⟨fun r i => r.start ≤ i ∧ i < r.start + r.size⟩

/-- No byte of one region is a byte of the other, the one lying behind the other. -/
def Disjoint (r q : Region) : Prop :=
  r.start + r.size ≤ q.start ∨ q.start + q.size ≤ r.start

/-- `r` lies inside `q`. -/
def Inside (r q : Region) : Prop :=
  q.start ≤ r.start ∧ r.start + r.size ≤ q.start + q.size

instance (r q : Region) : Decidable (r.Disjoint q) :=
  inferInstanceAs (Decidable (_ ∨ _))

instance (r q : Region) : Decidable (r.Inside q) :=
  inferInstanceAs (Decidable (_ ∧ _))

theorem Disjoint.symm {r q : Region} (h : r.Disjoint q) : q.Disjoint r :=
  Or.symm h

theorem mem_iff {r : Region} {i : Int} : i ∈ r ↔ r.start ≤ i ∧ i < r.start + r.size := Iff.rfl

theorem Inside.mem {r q : Region} (h : r.Inside q) {i : Int} (hi : i ∈ r) : i ∈ q := by
  obtain ⟨hlo, hhi⟩ := h
  rw [mem_iff] at hi ⊢
  omega

/-- A part of a region is disjoint from what the region is disjoint from. -/
theorem Inside.disjoint {r q t : Region} (h : r.Inside q) (hd : q.Disjoint t) : r.Disjoint t := by
  obtain ⟨hlo, hhi⟩ := h
  unfold Disjoint at hd ⊢
  omega

end Region

namespace Mem

/-- The memories have the same bytes in the region. -/
def SameOn (r : Region) (m m' : Mem) : Prop :=
  ∀ i ∈ r, m' i = m i

/-- The string `s` and its terminator stand at `p`. -/
def HasStr (m : Mem) (p : Int) (s : CString) : Prop :=
  m.HasBytes p (s.bytes ++ [0])

instance (m : Mem) (p : Int) (s : CString) : Decidable (m.HasStr p s) :=
  inferInstanceAs (Decidable (∀ (i : Nat) (hi : i < (s.bytes ++ [0]).length),
    m (p + i) = (s.bytes ++ [0])[i]))

/-- The bytes a string takes at `p`, its terminator included. -/
def strRegion (p : Int) (s : CString) : Region :=
  ⟨p, s.length + 1⟩

/-- `memcpy(dst, src, n)`, for ranges that do not overlap. -/
def memcpy (m : Mem) (dst src : Int) (n : Nat) : Mem := fun i =>
  if dst ≤ i ∧ i < dst + n then m (src + (i - dst)) else m i

/-- `memset(m + p, c, n)`. -/
def memset (m : Mem) (p : Int) (c : UInt8) (n : Nat) : Mem := fun i =>
  if p ≤ i ∧ i < p + n then c else m i

/-- A block of `size` bytes after a `realloc` to a larger size, `fresh` being what stands behind
them. -/
def realloc (m : Mem) (size : Nat) (fresh : Mem) : Mem := fun i =>
  if 0 ≤ i ∧ i < size then m i else fresh i

/-- `strlen(p)`, the terminator being looked for in `n` bytes. -/
def strlen (m : Mem) (n : Nat) (p : Int) : Nat :=
  (m.cstr p n).length

/-- `strchr(p, c)`, the terminator being looked for in `n` bytes. -/
def strchr (m : Mem) (n : Nat) (p : Int) (c : UInt8) : Option Int :=
  ((m.cstr p n).strchr c).map fun i => p + (i : Nat)

variable {m m' : Mem} {p : Int} {s : CString}

/-- A memory that has a string reads as it. -/
theorem HasStr.cstr (h : m.HasStr p s) {n : Nat} (hn : s.length < n) : m.cstr p n = s :=
  Mem.cstr_eq h hn

/-- The length of a string in memory. -/
theorem HasStr.strlen (h : m.HasStr p s) {n : Nat} (hn : s.length < n) :
    m.strlen n p = s.length := by
  rw [Mem.strlen, h.cstr hn]

/-- A character of a string in memory. -/
theorem HasStr.strchr (h : m.HasStr p s) {n : Nat} (hn : s.length < n) (c : UInt8) :
    m.strchr n p c = (s.strchr c).map fun i => p + (i : Nat) := by
  rw [Mem.strchr, h.cstr hn]

/-- Memories that agree where a string stands both have it. -/
theorem HasStr.sameOn (h : m.HasStr p s) {r : Region} (hr : (strRegion p s).Inside r)
    (heq : SameOn r m m') : m'.HasStr p s := by
  intro i hi
  rw [heq _ (hr.mem ?_)]
  · exact h i hi
  · rw [List.length_append, List.length_singleton] at hi
    rw [Region.mem_iff]
    simp only [strRegion, CString.length]
    omega

/-! ## Blocks -/

theorem memset_of_mem (m : Mem) (c : UInt8) {i : Int} {n : Nat} (hi : p ≤ i ∧ i < p + n) :
    m.memset p c n i = c :=
  if_pos hi

theorem memset_of_not_mem (m : Mem) (c : UInt8) {i : Int} {n : Nat}
    (hi : ¬ (p ≤ i ∧ i < p + n)) : m.memset p c n i = m i :=
  if_neg hi

theorem realloc_of_lt (m fresh : Mem) {i : Int} {size : Nat} (hi : 0 ≤ i ∧ i < size) :
    m.realloc size fresh i = m i :=
  if_pos hi

/-! ## Copies -/

/-- A copy changes its target only. -/
theorem memcpy_of_not_mem {dst src i : Int} {n : Nat} (hi : i ∉ (⟨dst, n⟩ : Region)) :
    m.memcpy dst src n i = m i :=
  if_neg hi

/-- A copy of a string with its terminator puts the string at the target. -/
theorem HasStr.memcpy (h : m.HasStr p s) (dst : Int) :
    (m.memcpy dst p (s.length + 1)).HasStr dst s := by
  intro i hi
  have hlen : i < s.length + 1 := by simpa [CString.length] using hi
  have hin : dst ≤ dst + (i : Int) ∧ dst + (i : Int) < dst + ((s.length + 1 : Nat) : Int) := by
    omega
  rw [Mem.memcpy, if_pos hin, show p + (dst + (i : Int) - dst) = p + i by omega]
  exact h i hi

/-- A copy leaves the strings that its target does not meet. -/
theorem HasStr.memcpy_other (h : m.HasStr p s) {dst src : Int} {n : Nat}
    (hd : (strRegion p s).Disjoint ⟨dst, n⟩) : (m.memcpy dst src n).HasStr p s := by
  refine h.sameOn ⟨le_rfl, le_rfl⟩ fun i hi => memcpy_of_not_mem fun hmem => ?_
  rw [Region.mem_iff] at hi hmem
  unfold Region.Disjoint at hd
  omega

/-! ## Writes into a string -/

/-- A write outside a string leaves it. -/
theorem HasStr.write_other (h : m.HasStr p s) {i : Int} (c : UInt8) (hi : i ∉ strRegion p s) :
    (m.write i c).HasStr p s := by
  refine h.sameOn ⟨le_rfl, le_rfl⟩ fun k hk => write_of_ne m c ?_
  rintro rfl
  exact hi hk

/-- A terminator written at index `i` of a string makes two strings: the first `i` bytes, and what
stands behind index `i`. -/
theorem HasStr.cut (h : m.HasStr p s) {i : Nat} (hi : i < s.length) :
    (m.write (p + i) 0).HasStr p (s.take i) ∧
      (m.write (p + i) 0).HasStr (p + i + 1) (s.drop (i + 1)) := by
  unfold CString.length at hi
  have hsplit : s.bytes ++ [0] =
      (s.bytes.take i ++ [s.bytes[i]]) ++ (s.bytes.drop (i + 1) ++ [0]) := by
    rw [List.take_append_getElem, ← List.append_assoc, List.take_append_drop]
  have hlen : (s.bytes.take i).length = i := by rw [List.length_take]; omega
  rw [HasStr, hsplit, hasBytes_append, hasBytes_append, List.length_append, hlen,
    List.length_singleton] at h
  obtain ⟨⟨hfront, -⟩, hback⟩ := h
  constructor
  · have hsnoc := hfront.snoc 0
    rwa [hlen] at hsnoc
  · rw [Int.natCast_add, Int.natCast_one, ← Int.add_assoc] at hback
    exact hback.write 0 (.inl (by omega))

/-! ## Strings one behind the other -/

/-- The bytes that strings with their terminators take. -/
def packSize (ss : List CString) : Nat :=
  (ss.map (·.length + 1)).sum

/-- The regions of strings that stand one behind the other from `p` on. -/
def packRegions (p : Int) : List CString → List Region
  | [] => []
  | s :: ss => strRegion p s :: packRegions (p + (s.length + 1 : Nat)) ss

/-- The strings stand one behind the other from `p` on. -/
def HasPack (m : Mem) (p : Int) : List CString → Prop
  | [] => True
  | s :: ss => m.HasStr p s ∧ m.HasPack (p + (s.length + 1 : Nat)) ss

/-- One `memcpy` behind the other from `dst` on, each with its source and its length. -/
def pack (m : Mem) (dst : Int) : List (Int × Nat) → Mem
  | [] => m
  | (src, n) :: copies => (m.memcpy dst src n).pack (dst + n) copies

@[simp] theorem packSize_cons (s : CString) (ss : List CString) :
    packSize (s :: ss) = s.length + 1 + packSize ss := by
  simp [packSize]

/-- Each string lies inside the whole. -/
theorem inside_of_mem_packRegions {ss : List CString} : ∀ {p : Int}, ∀ r ∈ packRegions p ss,
    r.Inside ⟨p, packSize ss⟩ := by
  induction ss with
  | nil => intro p r hr; cases hr
  | cons s ss ih =>
    intro p r hr
    simp only [Region.Inside, packSize_cons]
    rcases List.mem_cons.1 hr with rfl | hr
    · simp only [strRegion]
      omega
    · obtain ⟨hlo, hhi⟩ := ih r hr
      simp only at hlo hhi
      omega

/-- Strings one behind the other do not meet. -/
theorem pairwise_packRegions (ss : List CString) : ∀ p : Int,
    (packRegions p ss).Pairwise Region.Disjoint := by
  induction ss with
  | nil => exact fun p => .nil
  | cons s ss ih =>
    refine fun p => List.pairwise_cons.2 ⟨fun r hr => .inl ?_, ih _⟩
    exact (inside_of_mem_packRegions r hr).1

/-- Copies one behind the other change nothing outside the whole of their targets. -/
theorem pack_of_not_mem {i : Int} (copies : List (Int × Nat)) : ∀ {m : Mem} {dst : Int},
    i ∉ (⟨dst, (copies.map (·.2)).sum⟩ : Region) → m.pack dst copies i = m i := by
  induction copies with
  | nil => intro m dst _; rfl
  | cons copy copies ih =>
    intro m dst hi
    rw [Region.mem_iff] at hi
    simp only [List.map_cons, List.sum_cons] at hi
    rw [pack, ih (by rw [Region.mem_iff]; simp only; omega)]
    exact memcpy_of_not_mem (by rw [Region.mem_iff]; simp only; omega)

/-- Copying strings from sources that do not meet the target puts them one behind the other.
Induction on the copies; the sources to come are not touched by the copies made. -/
theorem pack_hasPack (l : List (Int × CString)) : ∀ {m : Mem} {dst : Int},
    (∀ x ∈ l, m.HasStr x.1 x.2 ∧
      (strRegion x.1 x.2).Disjoint ⟨dst, packSize (l.map (·.2))⟩) →
    (m.pack dst (l.map fun x => (x.1, x.2.length + 1))).HasPack dst (l.map (·.2)) := by
  induction l with
  | nil => exact fun _ => trivial
  | cons x l ih =>
    intro m dst h
    obtain ⟨src, s⟩ := x
    simp only [List.map_cons, packSize_cons] at h ⊢
    have hsizes : ((l.map fun x => (x.1, x.2.length + 1)).map (·.2)).sum =
        packSize (l.map (·.2)) := by
      simp [packSize, List.map_map, Function.comp_def]
    constructor
    · refine ((h _ (.head _)).1.memcpy dst).sameOn ⟨le_rfl, le_rfl⟩ fun i hi => ?_
      rw [Region.mem_iff] at hi
      simp only [strRegion] at hi
      rw [pack, pack_of_not_mem _ (by rw [Region.mem_iff, hsizes]; simp only; omega)]
    · refine ih fun x hx => ?_
      obtain ⟨hstr, hd⟩ := h x (.tail _ hx)
      unfold Region.Disjoint at hd ⊢
      simp only at hd ⊢
      exact ⟨hstr.memcpy_other (by unfold Region.Disjoint; simp only; omega), by omega⟩

/-- Memories that agree where strings stand one behind the other both have them. -/
theorem HasPack.sameOn {r : Region} {ss : List CString} (heq : SameOn r m m') : ∀ {p : Int},
    m.HasPack p ss → (⟨p, packSize ss⟩ : Region).Inside r → m'.HasPack p ss := by
  induction ss with
  | nil => exact fun _ _ => trivial
  | cons s ss ih =>
    intro p h hr
    simp only [Region.Inside, packSize_cons] at hr
    refine ⟨h.1.sameOn ?_ heq, ih h.2 ?_⟩ <;> simp only [Region.Inside, strRegion] <;> omega

end Mem

end Lib
