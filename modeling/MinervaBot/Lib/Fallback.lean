import Mathlib.Logic.Function.Basic
import Mathlib.Data.List.Basic

/-!
# Fall-through lookup

A lookup that tries a list of keys and takes the first value other than `0`: `firstNonzero` over a
partial valuation, which fails with the first lookup it needs that fails, and `pick` over a total
one. What a change of one key's value does to the picked value depends on whether that key is the
one that decides (`decider`): `pick_update_nonzero` for a nonzero value, `pick_update_zero` for `0`,
after which the lookup falls through to the keys that are left.
-/

namespace Lib

variable {K V : Type} [DecidableEq V] [Zero V]

/-- The first value other than `0` along the keys, `0` if there is none. -/
def firstNonzero (f : K → Option V) : List K → Option V
  | [] => some 0
  | k :: ks =>
    match f k with
    | none => none
    | some v => if v ≠ 0 then some v else firstNonzero f ks

/-- The first value other than `0` along the keys, for a total valuation. -/
def pick (f : K → V) : List K → V
  | [] => 0
  | k :: ks => if f k ≠ 0 then f k else pick f ks

/-- The key that decides what `pick` picks. -/
def decider (f : K → V) (ks : List K) : Option K :=
  ks.find? (f · ≠ 0)

/-- Where every lookup has a value, `firstNonzero` picks. -/
theorem firstNonzero_eq_pick {f : K → Option V} {g : K → V} {ks : List K}
    (h : ∀ k ∈ ks, f k = some (g k)) : firstNonzero f ks = some (pick g ks) := by
  induction ks with
  | nil => rfl
  | cons k ks ih =>
    rw [firstNonzero, h k (.head _), pick]
    simp only
    split
    · rfl
    · exact ih fun j hj => h j (.tail _ hj)

/-- The first value other than `0` is the value of one of the keys. -/
theorem firstNonzero_eq_some {f : K → Option V} {v : V} :
    ∀ {ks : List K}, firstNonzero f ks = some v → v = 0 ∨ ∃ k ∈ ks, f k = some v
  | [], h => .inl (Option.some.inj h).symm
  | k :: ks, h => by
    unfold firstNonzero at h
    split at h
    · cases h
    · next w hw =>
      split at h
      · cases h
        exact .inr ⟨k, .head _, hw⟩
      · exact (firstNonzero_eq_some h).imp_right fun ⟨j, hj, hv⟩ => ⟨j, .tail _ hj, hv⟩

/-- Without a decider everything is `0`. -/
theorem pick_of_decider_none {f : K → V} {ks : List K} (h : decider f ks = none) :
    pick f ks = 0 := by
  induction ks with
  | nil => rfl
  | cons k ks ih =>
    simp only [decider, List.find?_cons] at h
    split at h
    · cases h
    · next hk =>
      rw [pick, if_neg (by simpa using hk)]
      exact ih h

/-- The picked value is that of the decider. -/
theorem pick_of_decider {f : K → V} {ks : List K} {k : K} (h : decider f ks = some k) :
    pick f ks = f k := by
  induction ks with
  | nil => cases h
  | cons j ks ih =>
    simp only [decider, List.find?_cons] at h
    split at h
    · next hj => cases h; rw [pick, if_pos (by simpa using hj)]
    · next hj =>
      rw [pick, if_neg (by simpa using hj)]
      exact ih h

/-- The first key decides if its value is not `0`. -/
theorem pick_cons_of_ne {f : K → V} {k : K} (ks : List K) (h : f k ≠ 0) :
    pick f (k :: ks) = f k := by
  rw [pick, if_pos h]

/-- What is picked is `0` or a value of one of the keys. -/
theorem pick_eq_zero_or (f : K → V) (ks : List K) : pick f ks = 0 ∨ ∃ k ∈ ks, pick f ks = f k := by
  rcases h : decider f ks with _ | k
  · exact .inl (pick_of_decider_none h)
  · exact .inr ⟨k, List.mem_of_find?_eq_some h, pick_of_decider h⟩

/-- What is picked is within every bound of `0` and of the values of the keys. -/
theorem pick_le [LE V] {f : K → V} {ks : List K} {bound : V}
    (h0 : 0 ≤ bound) (h : ∀ k ∈ ks, f k ≤ bound) : pick f ks ≤ bound := by
  rcases pick_eq_zero_or f ks with hzero | ⟨k, hk, hpick⟩
  · rwa [hzero]
  · rw [hpick]
    exact h k hk

variable [DecidableEq K]

/-- A key set to a nonzero value decides, or what was picked is picked again. -/
theorem pick_update_nonzero (f : K → V) (t : K) {v : V} (hv : v ≠ 0) (ks : List K) :
    pick (Function.update f t v) ks = v ∨ pick (Function.update f t v) ks = pick f ks := by
  induction ks with
  | nil => exact .inr rfl
  | cons k ks ih =>
    by_cases hk : k = t
    · subst hk; simp [pick, hv]
    · simp only [pick, Function.update_of_ne hk]
      split
      · exact .inr rfl
      · exact ih

/-- A key set to `0` is passed over. -/
theorem pick_update_zero (f : K → V) (t : K) (ks : List K) :
    pick (Function.update f t 0) ks = pick f (ks.filter (· ≠ t)) := by
  induction ks with
  | nil => rfl
  | cons k ks ih =>
    by_cases hk : k = t
    · subst hk; simp [pick, ih]
    · simp [pick, hk, ih]

/-- A key that does not decide can be passed over. -/
theorem pick_filter_of_decider_ne {f : K → V} {t : K} {ks : List K} (h : decider f ks ≠ some t) :
    pick f (ks.filter (· ≠ t)) = pick f ks := by
  induction ks with
  | nil => rfl
  | cons k ks ih =>
    by_cases h0 : f k = 0
    · have h' : decider f ks ≠ some t := by simpa [decider, h0] using h
      by_cases hk : k = t
      · subst hk; simpa [pick, h0] using ih h'
      · simpa [pick, h0, hk] using ih h'
    · have hk : k ≠ t := by simpa [decider, h0] using h
      simp [pick, h0, hk]

end Lib
