import Mathlib.Data.List.Nodup

/-!
# Resources in slots

A table keeps resources in slots and may be moved when it grows. A resource is released later,
through a position that was taken while it was in the table: the slot of a block. Such a release
clears the slot if the block is still the current one, and records the resource as released.

`SlotTable.Live` says that no slot holds a released resource and that none was released twice.
`SlotTable.Sound` is the invariant behind it. Every operation keeps it, but for two that keep it
exactly if they find what they release: a release through a position (`Sound.release`,
`not_live_release`) must find its resource there, and a release that leaves the slot never does
(`not_live_drop`). `occupied` counts the slots in use.
-/

namespace Lib

/-- A slot of one of the blocks the table was in. -/
structure SlotPos where
  block : Nat
  index : Nat

/-- The resources are numbered in the order of their creation. `pending` lists the releases that
were asked for, `none` for one that is done. -/
structure SlotTable where
  count : Nat
  released : List Nat
  block : Nat
  slots : List (Option Nat)
  pending : List (Option (Nat × SlotPos))

namespace SlotTable

/-! ## Operations -/

/-- `n` more free slots, possibly in a new block. -/
def grow (moved : Bool) (n : Nat) (t : SlotTable) : SlotTable :=
  { t with
    block := if moved then t.block + 1 else t.block
    slots := t.slots ++ .replicate n none }

/-- A new resource in a slot. -/
def acquire (i : Nat) (t : SlotTable) : SlotTable :=
  { t with count := t.count + 1, slots := t.slots.set i (some t.count) }

/-- A release is asked for. -/
def request (r : Nat) (pos : SlotPos) (t : SlotTable) : SlotTable :=
  { t with pending := t.pending ++ [some (r, pos)] }

/-- A release that was asked for is done with. -/
def finish (j : Nat) (t : SlotTable) : SlotTable :=
  { t with pending := t.pending.set j none }

/-- The slot at a position is cleared; nothing happens if the table has moved. -/
def clear (pos : SlotPos) (t : SlotTable) : SlotTable :=
  if pos.block = t.block then { t with slots := t.slots.set pos.index none } else t

/-- A resource is released and the slot at a position cleared. -/
def release (r : Nat) (pos : SlotPos) (t : SlotTable) : SlotTable :=
  { t.clear pos with released := t.released ++ [r] }

/-- A resource is released and its slot left. -/
def drop (r : Nat) (t : SlotTable) : SlotTable :=
  { t with released := t.released ++ [r] }

/-- What the slot at a position of the current block holds. -/
def held (pos : SlotPos) (t : SlotTable) : Option Nat :=
  if pos.block = t.block then t.slots[pos.index]?.join else none

/-- The number of slots in use. -/
def occupied (t : SlotTable) : Nat :=
  t.slots.countP (·.isSome)

/-! ## Liveness -/

/-- No slot holds a released resource, and no resource was released twice. -/
structure Live (t : SlotTable) : Prop where
  held : ∀ (i r : Nat), t.slots[i]? = some (some r) → r ∉ t.released
  once : t.released.Nodup

/-- The invariant: every resource is in one slot at most, and the slot of a pending release holds
its resource until this is released. -/
structure Sound (t : SlotTable) : Prop extends t.Live where
  bound : ∀ (i r : Nat), t.slots[i]? = some (some r) → r < t.count
  releasedBound : ∀ r ∈ t.released, r < t.count
  unique : ∀ (i k r : Nat), t.slots[i]? = some (some r) → t.slots[k]? = some (some r) → i = k
  pendingBound : ∀ (r : Nat) (pos : SlotPos), some (r, pos) ∈ t.pending → r < t.count
  pendingHeld : ∀ (r : Nat) (pos : SlotPos), some (r, pos) ∈ t.pending → r ∉ t.released →
    t.slots[pos.index]? = some (some r)

section
variable {t : SlotTable} {i n r : Nat} {pos : SlotPos} {moved : Bool}

/-- A position holds a resource of the current block. -/
theorem held_eq_some_iff :
    t.held pos = some r ↔ pos.block = t.block ∧ t.slots[pos.index]? = some (some r) := by
  rw [held]
  split
  · next hblock => simp [hblock, Option.join_eq_some_iff]
  · next hblock => simp [hblock]

/-- Growing leaves what the slots hold. -/
theorem slots_grow_eq_some : (t.grow moved n).slots[i]? = some (some r) ↔
    t.slots[i]? = some (some r) := by
  rw [grow]
  rcases Nat.lt_or_ge i t.slots.length with hi | hi
  · rw [List.getElem?_append_left hi]
  · rw [List.getElem?_append_right hi, List.getElem?_replicate, List.getElem?_eq_none hi]
    split <;> simp

/-- A slot after another was set. -/
theorem getElem?_set_eq_some {k : Nat} {v : Option Nat} :
    (t.slots.set k v)[i]? = some (some r) ↔
      (k = i ∧ k < t.slots.length ∧ v = some r) ∨ k ≠ i ∧ t.slots[i]? = some (some r) := by
  rw [List.getElem?_set]
  by_cases hk : k = i
  · subst hk
    by_cases hlt : k < t.slots.length <;> simp [hlt]
  · simp [hk]

theorem Sound.grow (h : t.Sound) : (t.grow moved n).Sound where
  held i r hi := h.held i r (slots_grow_eq_some.1 hi)
  once := h.once
  bound i r hi := h.bound i r (slots_grow_eq_some.1 hi)
  releasedBound := h.releasedBound
  unique i k r hi hk := h.unique i k r (slots_grow_eq_some.1 hi) (slots_grow_eq_some.1 hk)
  pendingBound := h.pendingBound
  pendingHeld r pos hmem hr := slots_grow_eq_some.2 (h.pendingHeld r pos hmem hr)

/-- A new resource was never released, and it is in no slot. -/
theorem Sound.acquire (h : t.Sound) (hi : t.slots[i]? = some none) : (t.acquire i).Sound where
  held k r hk := by
    rcases getElem?_set_eq_some.1 hk with ⟨-, -, hr⟩ | ⟨-, hk⟩
    · cases hr
      exact fun hmem => Nat.lt_irrefl _ (h.releasedBound _ hmem)
    · exact h.held k r hk
  once := h.once
  bound k r hk := by
    rcases getElem?_set_eq_some.1 hk with ⟨-, -, hr⟩ | ⟨-, hk⟩
    · cases hr
      exact Nat.lt_succ_self _
    · exact Nat.lt_succ_of_lt (h.bound k r hk)
  releasedBound r hr := Nat.lt_succ_of_lt (h.releasedBound r hr)
  unique k l r hk hl := by
    rcases getElem?_set_eq_some.1 hk with ⟨rfl, -, hr⟩ | ⟨-, hk⟩
    · rcases getElem?_set_eq_some.1 hl with ⟨rfl, -, -⟩ | ⟨-, hl⟩
      · rfl
      · cases hr
        exact absurd (h.bound l _ hl) (Nat.lt_irrefl _)
    · rcases getElem?_set_eq_some.1 hl with ⟨rfl, -, hr⟩ | ⟨-, hl⟩
      · cases hr
        exact absurd (h.bound k _ hk) (Nat.lt_irrefl _)
      · exact h.unique k l r hk hl
  pendingBound r pos hmem := Nat.lt_succ_of_lt (h.pendingBound r pos hmem)
  pendingHeld r pos hmem hr := by
    have hheld := h.pendingHeld r pos hmem hr
    refine getElem?_set_eq_some.2 (.inr ⟨?_, hheld⟩)
    rintro rfl
    cases hi.symm.trans hheld

/-- A release may be asked for through the slot that holds the resource. -/
theorem Sound.request (h : t.Sound) (hpos : t.slots[pos.index]? = some (some r)) :
    (t.request r pos).Sound where
  toLive := ⟨h.held, h.once⟩
  bound := h.bound
  releasedBound := h.releasedBound
  unique := h.unique
  pendingBound r' pos' hmem := by
    rcases List.mem_append.1 hmem with hmem | hmem
    · exact h.pendingBound r' pos' hmem
    · cases List.mem_singleton.1 hmem
      exact h.bound _ r hpos
  pendingHeld r' pos' hmem hr := by
    rcases List.mem_append.1 hmem with hmem | hmem
    · exact h.pendingHeld r' pos' hmem hr
    · cases List.mem_singleton.1 hmem
      exact hpos

/-- The releases that are left were there before. -/
theorem mem_pending_finish {j : Nat} {p : Nat × SlotPos}
    (h : some p ∈ (t.finish j).pending) : some p ∈ t.pending := by
  rcases List.mem_or_eq_of_mem_set h with h | h
  · exact h
  · cases h

theorem Sound.finish {j : Nat} (h : t.Sound) : (t.finish j).Sound where
  toLive := ⟨h.held, h.once⟩
  bound := h.bound
  releasedBound := h.releasedBound
  unique := h.unique
  pendingBound r pos hmem := h.pendingBound r pos (mem_pending_finish hmem)
  pendingHeld r pos hmem hr := h.pendingHeld r pos (mem_pending_finish hmem) hr

/-- A release through a position that holds the resource: this was the only slot it was in. -/
theorem Sound.release (h : t.Sound) (hheld : t.held pos = some r) : (t.release r pos).Sound := by
  obtain ⟨hblock, hpos⟩ := held_eq_some_iff.1 hheld
  have hr := h.held _ r hpos
  have hslots : (t.release r pos).slots = t.slots.set pos.index none := by
    rw [SlotTable.release, clear, if_pos hblock]
  have hpending : (t.release r pos).pending = t.pending := by
    rw [SlotTable.release, clear, if_pos hblock]
  have hcount : (t.release r pos).count = t.count := by
    rw [SlotTable.release, clear, if_pos hblock]
  have hget : ∀ {k x : Nat}, (t.release r pos).slots[k]? = some (some x) ↔
      pos.index ≠ k ∧ t.slots[k]? = some (some x) := by
    intro k x
    rw [hslots, getElem?_set_eq_some]
    simp
  refine ⟨⟨fun k x hk hmem => ?_, ?_⟩, fun k x hk => ?_, fun x hx => ?_, fun k l x hk hl => ?_,
    fun x q hmem => ?_, fun x q hmem hx => ?_⟩
  · obtain ⟨hne, hk⟩ := hget.1 hk
    rcases List.mem_append.1 hmem with hmem | hmem
    · exact h.held k x hk hmem
    · rw [List.mem_singleton.1 hmem] at hk
      exact hne (h.unique _ k r hpos hk)
  · exact List.nodup_append_comm.1 (List.nodup_cons.2 ⟨hr, h.once⟩)
  · rw [hcount]
    exact h.bound k x (hget.1 hk).2
  · rw [hcount]
    rcases List.mem_append.1 hx with hx | hx
    · exact h.releasedBound x hx
    · rw [List.mem_singleton.1 hx]
      exact h.bound _ r hpos
  · exact h.unique k l x (hget.1 hk).2 (hget.1 hl).2
  · rw [hpending] at hmem
    rw [hcount]
    exact h.pendingBound x q hmem
  · rw [hpending] at hmem
    have hx' : x ∉ t.released ∧ x ≠ r := by
      refine ⟨fun hmem => hx (List.mem_append_left _ hmem), ?_⟩
      rintro rfl
      exact hx (List.mem_append_right _ (.head _))
    have hheld' := h.pendingHeld x q hmem hx'.1
    refine hget.2 ⟨fun heq => ?_, hheld'⟩
    rw [← heq, hpos] at hheld'
    exact hx'.2 (Option.some.inj (Option.some.inj hheld')).symm

/-- A release through a position that does not hold the resource: either it was released before, or
the table has moved and its slot is not cleared. -/
theorem Sound.not_live_release (h : t.Sound) (hmem : some (r, pos) ∈ t.pending)
    (hheld : t.held pos ≠ some r) : ¬ (t.release r pos).Live := by
  intro hlive
  by_cases hr : r ∈ t.released
  · have honce := List.nodup_append_comm.1 hlive.once
    exact (List.nodup_cons.1 honce).1 hr
  · have hpos := h.pendingHeld r pos hmem hr
    have hblock : pos.block ≠ t.block := fun hblock => hheld (held_eq_some_iff.2 ⟨hblock, hpos⟩)
    refine hlive.held pos.index r ?_ (List.mem_append_right _ (.head _))
    rw [SlotTable.release, clear, if_neg hblock]
    exact hpos

/-- A release that leaves the slot. -/
theorem not_live_drop (hi : t.slots[i]? = some (some r)) : ¬ (t.drop r).Live :=
  fun h => h.held i r hi (List.mem_append_right _ (.head _))

/-! ## Slots in use -/

theorem occupied_grow : (t.grow moved n).occupied = t.occupied := by
  simp [occupied, grow, List.countP_replicate]

theorem occupied_acquire (hi : t.slots[i]? = some none) :
    (t.acquire i).occupied = t.occupied + 1 := by
  obtain ⟨hlt, hget⟩ := List.getElem?_eq_some_iff.1 hi
  simp [occupied, acquire, List.countP_set, hlt, hget]

/-- Clearing frees a slot if it was in use. -/
theorem occupied_clear :
    (t.clear pos).occupied + (if (t.held pos).isSome then 1 else 0) = t.occupied := by
  rw [clear, held]
  split
  · rcases Nat.lt_or_ge pos.index t.slots.length with hlt | hge
    · have hpos : (t.slots[pos.index]?.join).isSome = true → 0 < t.occupied := by
        intro hsome
        refine List.countP_pos_iff.2 ⟨t.slots[pos.index], List.getElem_mem hlt, ?_⟩
        rwa [List.getElem?_eq_getElem hlt, Option.join_some] at hsome
      rw [List.getElem?_eq_getElem hlt, Option.join_some] at hpos ⊢
      rw [occupied, List.countP_set hlt]
      simp only [Option.isSome_none, Bool.false_eq_true, if_false, Nat.add_zero]
      split
      · next hsome => exact Nat.sub_add_cancel (hpos hsome)
      · rfl
    · rw [List.set_eq_of_length_le hge, List.getElem?_eq_none hge]
      rfl
  · rfl

/-- There is a free slot if and only if fewer slots are in use than there are. -/
theorem exists_free_iff : (∃ i : Nat, t.slots[i]? = some none) ↔ t.occupied < t.slots.length := by
  rw [← List.mem_iff_getElem?, occupied, Nat.lt_iff_le_and_ne]
  constructor
  · intro hmem
    refine ⟨List.countP_le_length, fun hall => ?_⟩
    have := List.countP_eq_length.1 hall none hmem
    cases this
  · rintro ⟨-, hne⟩
    by_contra hnone
    refine hne (List.countP_eq_length.2 fun v hv => ?_)
    cases v with
    | none => exact absurd hv hnone
    | some r => rfl

end

end SlotTable

end Lib
