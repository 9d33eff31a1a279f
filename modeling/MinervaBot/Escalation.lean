import MinervaBot.Setp

/-!
# Escalation by `setp`

A permitted `setp` gives a level below the sender's, so it raises nobody above that level, with one
exception: a level `0` makes the lookup of the hosts that the entry decided fall through to the
next pattern, whose level may be any (`pick_update_zero`). `setp_noGain_iff` states exactly which
commands respect the bound, over every run.
-/

namespace MinervaBot

open Lib

/-- The command raises no host above its level before and the sender's level less one. -/
def NoGain (c : SetpCommand) (b : Bot) : Prop :=
  ∃ L, levelOf b.perms c.host = some L ∧ ∀ g : CString, g.length ≤ 126 →
    ∃ v v', levelOf b.perms g = some v ∧ levelOf (c.run b).2.perms g = some v' ∧
      v' ≤ max v (L - 1)

/-- The sender's host is one that `permissions_get` accepts, no bucket overflows, and if the command
is permitted to set a level `0`, the hosts that its target decides do not fall through to a level
above theirs and the sender's less one. -/
structure Harmless (c : SetpCommand) (b : Bot) : Prop where
  host_le : c.host.length ≤ 128
  bounded : b.perms.permMap.Bounded
  room : ∀ L t level, levelOf b.perms c.host = some L → c.grants L = some (t, level) →
    HasRoom b.perms.permMap t
  covered : ∀ L t, levelOf b.perms c.host = some L → c.grants L = some (t, 0) →
    ∀ g : CString, g.length ≤ 126 →
      decider (storedLevel b.perms.permMap) (candidates g) = some t →
        pick (storedLevel b.perms.permMap) ((candidates g).filter (· ≠ t)) ≤
          max (storedLevel b.perms.permMap t) (L - 1)

section
variable {c : SetpCommand} {b : Bot}

/-- The level of a host in a good state within its bounds. -/
theorem Good.levelOf_eq (h : Good b) (hb : b.perms.permMap.Bounded) {g : CString}
    (hg : g.length ≤ 126) :
    levelOf b.perms g = some (pick (storedLevel b.perms.permMap) (candidates g)) := by
  obtain ⟨hfree, q, hsound⟩ := h
  exact MinervaBot.levelOf_eq hsound hb hfree (by omega)

/-- A harmless command respects the bound. -/
theorem Harmless.noGain (h : Harmless c b) (hgood : Good b) :
    NoGain c b ∧ Good (c.run b).2 := by
  obtain ⟨L, b', hL, hrun, hgood', houtcome⟩ := c.outcome hgood h.bounded h.host_le
  rw [hrun]
  refine ⟨⟨L, hL, fun g hg => ?_⟩, hgood'⟩
  have hv := hgood.levelOf_eq h.bounded hg
  rw [hrun]
  cases houtcome with
  | denied _ hmap =>
    have hv' := hgood'.levelOf_eq (by rw [hmap]; exact h.bounded) hg
    rw [hmap] at hv'
    exact ⟨_, _, hv, hv', Int.le_max_left _ _⟩
  | overflowed t level hgrants hroom =>
    exact absurd (h.room L t level hL hgrants) hroom
  | set t level hgrants _ hb' hstored =>
    have hv' := hgood'.levelOf_eq hb' hg
    refine ⟨_, _, hv, hv', ?_⟩
    obtain ⟨-, hlt⟩ := c.grants_lt hgrants
    rcases hstored with hstored | ⟨-, hstored⟩ <;> rw [hstored]
    · by_cases h0 : level = 0
      · subst h0
        rw [pick_update_zero]
        -- Only the hosts that the target decides fall through.
        by_cases hdec : decider (storedLevel b.perms.permMap) (candidates g) = some t
        · rw [pick_of_decider hdec]
          exact h.covered L t hL hgrants g hg hdec
        · rw [pick_filter_of_decider_ne hdec]
          exact Int.le_max_left _ _
      · rcases pick_update_nonzero (storedLevel b.perms.permMap) t h0 (candidates g) with h | h
        · rw [h]; omega
        · rw [h]; exact Int.le_max_left _ _
    · exact Int.le_max_left _ _

/-- A good state in which every host has a level has no overflowed bucket. -/
theorem Good.bounded_of_levels (h : Good b)
    (hlevels : ∀ g : CString, g.length ≤ 126 → ∃ v, levelOf b.perms g = some v) :
    b.perms.permMap.Bounded := by
  obtain ⟨hfree, q, hsound⟩ := h
  refine hsound.bounded_of_levelOf hfree fun g hg hnone => ?_
  obtain ⟨v, hv⟩ := hlevels g hg
  rw [hnone] at hv
  cases hv

/-- A command from a host of more than 128 bytes does not respect the bound: no level can be read
afterwards. -/
theorem NoGain.host_le (h : NoGain c b) (hgood : Good b) : c.host.length ≤ 128 := by
  obtain ⟨L, -, hgain⟩ := h
  refine Nat.not_lt.1 fun hlong => ?_
  have hget := permissionsGet_long hgood.1 hlong
  have hgrants : c.grants 0 = none := by
    cases hgrants : c.grants 0 with
    | none => rfl
    | some r => exact absurd (c.grants_lt hgrants).1 (by decide)
  obtain ⟨calls, hrun⟩ := c.run_denied hget hgrants
  obtain ⟨v, v', -, hv', -⟩ := hgain ⟨[], by simp⟩ (by simp [CString.length])
  rw [hrun, levelOf_taken rfl] at hv'
  cases hv'

/-- A command that respects the bound is harmless. -/
theorem NoGain.harmless (h : NoGain c b) (hgood : Good b) : Harmless c b := by
  have hlen := h.host_le hgood
  obtain ⟨L, hL, hgain⟩ := h
  have hb : b.perms.permMap.Bounded := hgood.bounded_of_levels fun g hg => by
    obtain ⟨v, v', hv, -⟩ := hgain g hg
    exact ⟨v, hv⟩
  obtain ⟨L', b', hL', hrun, hgood', houtcome⟩ := c.outcome hgood hb hlen
  obtain rfl : L' = L := Option.some.inj (hL'.symm.trans hL)
  have hb' : b'.perms.permMap.Bounded := hgood'.bounded_of_levels fun g hg => by
    obtain ⟨v, v', -, hv', -⟩ := hgain g hg
    exact ⟨v', by rw [hrun] at hv'; exact hv'⟩
  -- A permitted command has set its level, since the state after it is bounded.
  have hset : ∀ {t level}, c.grants L' = some (t, level) → HasRoom b.perms.permMap t ∧
      (storedLevel b'.perms.permMap = Function.update (storedLevel b.perms.permMap) t level ∨
        storedLevel b.perms.permMap t = 0) := by
    intro t level hgrants
    cases houtcome with
    | denied hnone =>
      rw [hgrants] at hnone
      cases hnone
    | overflowed _ _ _ _ hunbounded => exact absurd hb' hunbounded
    | set t' level' hgrants' hroom _ hstored =>
      rw [hgrants] at hgrants'
      cases hgrants'
      exact ⟨hroom, hstored.imp_right And.left⟩
  refine ⟨hlen, hb, fun L t level hL hgrants => ?_, fun L t hL hgrants g hg hdec => ?_⟩
  · obtain rfl : L' = L := Option.some.inj (hL'.symm.trans hL)
    exact (hset hgrants).1
  · obtain rfl : L' = L := Option.some.inj (hL'.symm.trans hL)
    obtain ⟨v, v', hv, hv', hle⟩ := hgain g hg
    rw [hgood.levelOf_eq hb hg, pick_of_decider hdec] at hv
    rw [hrun, hgood'.levelOf_eq hb' hg] at hv'
    have ht : storedLevel b.perms.permMap t ≠ 0 := by
      simpa using List.find?_some hdec
    rcases (hset hgrants).2 with hstored | hzero
    · rw [hstored, pick_update_zero] at hv'
      cases hv
      cases hv'
      exact hle
    · exact absurd hzero ht

/-- Every command of a run respects the bound exactly if every command is harmless. -/
theorem always_noGain_iff {cs : List SetpCommand} : ∀ {b : Bot}, Good b →
    (Always NoGain cs b ↔ Always Harmless cs b) := by
  induction cs with
  | nil => exact fun _ => Iff.rfl
  | cons c cs ih =>
    intro b hgood
    constructor
    · rintro ⟨hgain, hrest⟩
      have hharmless := hgain.harmless hgood
      exact ⟨hharmless, (ih (hharmless.noGain hgood).2).1 hrest⟩
    · rintro ⟨hharmless, hrest⟩
      obtain ⟨hgain, hgood'⟩ := hharmless.noGain hgood
      exact ⟨hgain, (ih hgood').2 hrest⟩

/-- The sender has at most the level `M`. -/
def SenderAtMost (M : Int) (c : SetpCommand) (b : Bot) : Prop :=
  ∀ L, levelOf b.perms c.host = some L → L ≤ M

/-- Senders of at most level `M` raise nobody above `M` as long as every command respects the
bound. -/
theorem levelOf_setpRun {M : Int} {cs : List SetpCommand} : ∀ {b : Bot}, Good b →
    Always Harmless cs b → Always (SenderAtMost M) cs b → ∀ {g : CString}, g.length ≤ 126 →
      ∀ {v}, levelOf b.perms g = some v →
        ∃ v', levelOf (setpRun cs b).2.perms g = some v' ∧ v' ≤ max v M := by
  induction cs with
  | nil => exact fun _ _ _ g _ v hv => ⟨v, hv, Int.le_max_left _ _⟩
  | cons c cs ih =>
    rintro b hgood ⟨hharmless, hrest⟩ ⟨hsender, hsenders⟩ g hg v hv
    obtain ⟨⟨L, hL, hgain⟩, hgood'⟩ := hharmless.noGain hgood
    obtain ⟨w, v₁, hw, hv₁, hle⟩ := hgain g hg
    obtain rfl : w = v := Option.some.inj (hw.symm.trans hv)
    obtain ⟨v', hv', hle'⟩ := ih hgood' hrest hsenders hg hv₁
    obtain ⟨-, b', -, hrun, -⟩ := c.outcome hgood hharmless.bounded hharmless.host_le
    refine ⟨v', ?_, ?_⟩
    · rw [setpRun, Exec.bind_returned hrun]
      rwa [hrun] at hv'
    · have hLM := hsender L hL
      omega

end

/-- From every map that `permissions_set` builds: each command of a run of `setp` commands respects
the bound exactly if each of them is harmless, and then no host gets above `M` that was not there
before, if no sender is above `M` at its command. -/
theorem setp_noGain_iff {b : Bot} (hreach : Reachable b.perms) (cs : List SetpCommand) :
    (Always NoGain cs b ↔ Always Harmless cs b) ∧
    (Always Harmless cs b → ∀ M, Always (SenderAtMost M) cs b → ∀ g : CString, g.length ≤ 126 →
      ∀ v, levelOf b.perms g = some v →
        ∃ v', levelOf (setpRun cs b).2.perms g = some v' ∧ v' ≤ max v M) := by
  have hgood : Good b := hreach.sound
  exact ⟨always_noGain_iff hgood, fun hharmless M hsenders g hg v hv =>
    levelOf_setpRun hgood hharmless hsenders hg hv⟩

/-- The owner may give `ann` level `5`. -/
theorem setp_noGain_iff_owner :
    ∃ s, permissionsInit true .ok (some (CString.lit "own")) = some s ∧
      ∃ v, levelOf (setpRun [⟨CString.lit "a!b@own", CString.lit "own", by decide,
        CString.lit "#chan", CString.lit "5 ann"⟩] ⟨s, []⟩).2.perms (CString.lit "ann") = some v ∧
          v ≤ max 0 100000 := by
  obtain ⟨s, hs⟩ : ∃ s, permissionsInit true .ok (some (CString.lit "own")) = some s := ⟨_, rfl⟩
  have hreach : Reachable s := ⟨some (CString.lit "own"), [], s, hs, rfl⟩
  let c : SetpCommand :=
    ⟨CString.lit "a!b@own", CString.lit "own", by decide, CString.lit "#chan",
      CString.lit "5 ann"⟩
  have hlevel : levelOf s (CString.lit "own") = some 100000 := by
    cases hs
    decide +kernel
  have hgrants : c.grants 100000 = some (CString.lit "ann", 5) := by decide +kernel
  have hharmless : Harmless c ⟨s, []⟩ := by
    refine ⟨by decide, ?_, fun L t level hL ht => ?_, fun L t hL ht => ?_⟩
    · cases hs
      intro i
      revert i
      decide +kernel
    · obtain rfl : 100000 = L := Option.some.inj (hlevel.symm.trans hL)
      rw [hgrants] at ht
      cases ht
      left
      cases hs
      decide +kernel
    · obtain rfl : 100000 = L := Option.some.inj (hlevel.symm.trans hL)
      rw [hgrants] at ht
      cases ht
  have hann : levelOf s (CString.lit "ann") = some 0 := by
    cases hs
    decide +kernel
  refine ⟨s, hs, (setp_noGain_iff (b := ⟨s, []⟩) hreach [c]).2 ⟨hharmless, trivial⟩ 100000
    ⟨fun L hL => ?_, trivial⟩ (CString.lit "ann") (by decide) 0 hann⟩
  obtain rfl : 100000 = L := Option.some.inj (hlevel.symm.trans hL)
  exact Int.le_refl _

/-- With `*` at `60000`, `ann` at `5` and `op` at `45000`, the command `setp 0 ann` of `op` raises
`ann` from `5` to `60000`. -/
theorem setp_zero_uncovers :
    ∃ s, Reachable s ∧
      let c : SetpCommand := ⟨CString.lit "o!p@op", CString.lit "op", by decide,
        CString.lit "#chan", CString.lit "0 ann"⟩
      levelOf s (CString.lit "op") = some 45000 ∧ levelOf s (CString.lit "ann") = some 5 ∧
      levelOf (c.run ⟨s, []⟩).2.perms (CString.lit "ann") = some 60000 ∧ ¬ NoGain c ⟨s, []⟩ := by
  obtain ⟨s₀, hs₀⟩ : ∃ s, permissionsInit true .ok none = some s := ⟨_, rfl⟩
  let calls := [(CString.lit "*", (60000 : Int)), (CString.lit "ann", 5), (CString.lit "op", 45000)]
  have hsets : (permissionsSets calls s₀).1 = .returned () := by
    cases hs₀
    decide +kernel
  let s := (permissionsSets calls s₀).2
  let c : SetpCommand := ⟨CString.lit "o!p@op", CString.lit "op", by decide,
    CString.lit "#chan", CString.lit "0 ann"⟩
  obtain ⟨hop, hann, hann'⟩ : levelOf s (CString.lit "op") = some 45000 ∧
      levelOf s (CString.lit "ann") = some 5 ∧
      levelOf (c.run ⟨s, []⟩).2.perms (CString.lit "ann") = some 60000 := by
    cases hs₀
    decide +kernel
  refine ⟨s, ⟨none, calls, s₀, hs₀, Prod.ext hsets rfl⟩, hop, hann, hann', ?_⟩
  rintro ⟨L, hL, hgain⟩
  obtain ⟨v, v', hv, hv', hle⟩ := hgain (CString.lit "ann") (by decide)
  obtain rfl : 45000 = L := Option.some.inj (hop.symm.trans hL)
  obtain rfl : 5 = v := Option.some.inj (hann.symm.trans hv)
  obtain rfl : 60000 = v' := Option.some.inj (hann'.symm.trans hv')
  exact absurd hle (by decide)

end MinervaBot
