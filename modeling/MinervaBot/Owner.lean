import MinervaBot.Setp

/-!
# The owner's level

`permissions_init` stores the level `100000` for `BOT_OWNER_HOST`, and no `setp` gives a level that
high. The check of `setp` looks at the sender and the new level only, so a permitted command that
names the owner's host replaces the owner's entry; `ownerLevel_iff` says that nothing else changes
the owner's level, and that nobody but the owner is permitted anything before the owner has
appointed somebody.
-/

namespace MinervaBot

open Lib

/-- The command comes from a host that `permissions_get` accepts, and no bucket holds more than
32768 entries before and after it. -/
structure Accepted (c : SetpCommand) (b : Bot) : Prop where
  host_le : c.host.length ≤ 128
  bounded : b.perms.permMap.Bounded
  bounded_after : (c.run b).2.perms.permMap.Bounded

/-- The command is permitted and its target is the host itself, not a pattern for it. -/
def Hits (host : CString) (c : SetpCommand) (b : Bot) : Prop :=
  ∃ L level, levelOf b.perms c.host = some L ∧ c.grants L = some (host, level)

/-- The sender's level is below `PERMS_OWNER`. -/
def BelowOwner (c : SetpCommand) (b : Bot) : Prop :=
  ∀ L, levelOf b.perms c.host = some L → L < permsOwner

section
variable {owner : CString} {c : SetpCommand} {b : Bot}

/-- The owner's entry is intact, and every other stored level is lower. -/
structure OwnerIntact (owner : CString) (m : Hashmap) : Prop where
  owner_eq : storedLevel m owner = 100000
  lt_of_ne : ∀ k, k ≠ owner → storedLevel m k < 100000

/-- Every stored level is below the owner's. -/
def OwnerLost (m : Hashmap) : Prop :=
  ∀ k, storedLevel m k < 100000

/-- No stored level is above the owner's. -/
theorem OwnerIntact.le {m : Hashmap} (h : OwnerIntact owner m) (k : CString) :
    storedLevel m k ≤ 100000 := by
  by_cases hk : k = owner
  · exact hk ▸ Int.le_of_eq h.owner_eq
  · exact Int.le_of_lt (h.lt_of_ne k hk)

/-- An accepted command is denied, or it sets a level below the sender's. -/
theorem Accepted.cases (owner : CString) (h : Accepted c b) (hgood : Good b) :
    ∃ b', c.run b = (.returned (), b') ∧ Good b' ∧ b'.perms.permMap.Bounded ∧
      ((¬ Hits owner c b ∧ b'.perms.permMap = b.perms.permMap) ∨
        ∃ t level, (Hits owner c b ↔ t = owner) ∧
          level < pick (storedLevel b.perms.permMap) (candidates c.host) ∧
          (storedLevel b'.perms.permMap = Function.update (storedLevel b.perms.permMap) t level ∨
            storedLevel b.perms.permMap t = 0 ∧
              storedLevel b'.perms.permMap = storedLevel b.perms.permMap)) := by
  obtain ⟨L, b', hL, hrun, hgood', houtcome⟩ := c.outcome hgood h.bounded h.host_le
  have hb' : b'.perms.permMap.Bounded := by
    have hafter := h.bounded_after
    rwa [hrun] at hafter
  have hits_iff : Hits owner c b ↔ ∃ level, c.grants L = some (owner, level) := by
    constructor
    · rintro ⟨L', level, hL', hgrants⟩
      obtain rfl : L = L' := Option.some.inj (hL.symm.trans hL')
      exact ⟨level, hgrants⟩
    · exact fun ⟨level, hgrants⟩ => ⟨L, level, hL, hgrants⟩
  have hlevel : L = pick (storedLevel b.perms.permMap) (candidates c.host) := by
    obtain ⟨hfree, q, hsound⟩ := hgood
    exact Option.some.inj (hL.symm.trans (levelOf_eq hsound h.bounded hfree h.host_le))
  refine ⟨b', hrun, hgood', hb', ?_⟩
  cases houtcome with
  | denied hgrants hmap => exact .inl ⟨by simp [hits_iff, hgrants], hmap⟩
  | overflowed _ _ _ _ hunbounded => exact absurd hb' hunbounded
  | set t level hgrants _ _ hstored =>
    refine .inr ⟨t, level, ?_, ?_, hstored⟩
    · simp [hits_iff, hgrants]
    · rw [← hlevel]
      exact (c.grants_lt hgrants).2

/-- The owner's entry is lost in the command that hits it, and stays intact otherwise. -/
theorem OwnerIntact.step (h : OwnerIntact owner b.perms.permMap) (hc : Accepted c b)
    (hgood : Good b) :
    ∃ b', c.run b = (.returned (), b') ∧ Good b' ∧ b'.perms.permMap.Bounded ∧
      (Hits owner c b → OwnerLost b'.perms.permMap) ∧
      (¬ Hits owner c b → OwnerIntact owner b'.perms.permMap) := by
  obtain ⟨b', hrun, hgood', hb', ⟨hno, hmap⟩ | ⟨t, level, hits_iff, hlt, hstored⟩⟩ :=
    hc.cases owner hgood
  · exact ⟨b', hrun, hgood', hb', fun hits => absurd hits hno, fun _ => by rwa [hmap]⟩
  · have hlevel : level < 100000 :=
      Int.lt_of_lt_of_le hlt (pick_le (by decide) fun k _ => h.le k)
    refine ⟨b', hrun, hgood', hb', fun hits => ?_, fun hno => ?_⟩
    · obtain rfl := hits_iff.1 hits
      rcases hstored with hstored | ⟨hzero, -⟩
      · intro k
        by_cases hk : k = t
        · subst hk; rw [hstored, Function.update_self]; exact hlevel
        · rw [hstored, Function.update_of_ne hk]; exact h.lt_of_ne k hk
      · rw [h.owner_eq] at hzero
        cases hzero
    · have ht : t ≠ owner := fun ht => hno (hits_iff.2 ht)
      rcases hstored with hstored | ⟨-, hstored⟩
      · refine ⟨by rw [hstored, Function.update_of_ne (Ne.symm ht), h.owner_eq], fun k hk => ?_⟩
        by_cases hkt : k = t
        · subst hkt; rw [hstored, Function.update_self]; exact hlevel
        · rw [hstored, Function.update_of_ne hkt]; exact h.lt_of_ne k hk
      · exact ⟨by rw [hstored, h.owner_eq], fun k hk => by rw [hstored]; exact h.lt_of_ne k hk⟩

/-- A lost entry is never regained. -/
theorem OwnerLost.step (h : OwnerLost b.perms.permMap) (hc : Accepted c b) (hgood : Good b) :
    ∃ b', c.run b = (.returned (), b') ∧ Good b' ∧ b'.perms.permMap.Bounded ∧
      OwnerLost b'.perms.permMap := by
  obtain ⟨b', hrun, hgood', hb', ⟨-, hmap⟩ | ⟨t, level, -, hlt, hstored⟩⟩ :=
    hc.cases c.host hgood
  · exact ⟨b', hrun, hgood', hb', by rwa [hmap]⟩
  · have hlevel : level < 100000 :=
      Int.lt_of_lt_of_le hlt (pick_le (by decide) fun k _ => Int.le_of_lt (h k))
    refine ⟨b', hrun, hgood', hb', fun k => ?_⟩
    rcases hstored with hstored | ⟨-, hstored⟩
    · by_cases hk : k = t
      · subst hk; rw [hstored, Function.update_self]; exact hlevel
      · rw [hstored, Function.update_of_ne hk]; exact h k
    · rw [hstored]; exact h k

end

/-! ## Runs -/

section
variable {owner : CString}

/-- With the entry intact, the owner has the owner's level. -/
theorem OwnerIntact.levelOf_eq {b : Bot} (h : OwnerIntact owner b.perms.permMap) (hgood : Good b)
    (hb : b.perms.permMap.Bounded) (hlen : owner.length ≤ 126) :
    levelOf b.perms owner = some 100000 := by
  obtain ⟨hfree, q, hsound⟩ := hgood
  rw [MinervaBot.levelOf_eq hsound hb hfree (by omega), candidates,
    pick_cons_of_ne _ (by rw [h.owner_eq]; decide), h.owner_eq]

/-- With the entry lost, the owner has a lower level. -/
theorem OwnerLost.levelOf_ne {b : Bot} (h : OwnerLost b.perms.permMap) (hgood : Good b)
    (hb : b.perms.permMap.Bounded) (hlen : owner.length ≤ 126) :
    levelOf b.perms owner ≠ some 100000 := by
  obtain ⟨hfree, q, hsound⟩ := hgood
  rw [MinervaBot.levelOf_eq hsound hb hfree (by omega)]
  intro hlevel
  have hle : pick (storedLevel b.perms.permMap) (candidates owner) ≤ 99999 :=
    pick_le (by decide) fun k _ => Int.le_of_lt_add_one (h k)
  rw [Option.some.inj hlevel] at hle
  exact absurd hle (by decide)

/-- In a run after the entry is lost, the owner's level is never what it was. -/
theorem OwnerLost.run {cs : List SetpCommand} (hlen : owner.length ≤ 126) : ∀ {b : Bot},
    OwnerLost b.perms.permMap → Good b → b.perms.permMap.Bounded → Always Accepted cs b →
      levelOf (setpRun cs b).2.perms owner ≠ some 100000 := by
  induction cs with
  | nil => exact fun h hgood hb _ => h.levelOf_ne hgood hb hlen
  | cons c cs ih =>
    rintro b h hgood - ⟨hc, hrest⟩
    obtain ⟨b', hrun, hgood', hb', h'⟩ := h.step hc hgood
    rw [hrun] at hrest
    rw [setpRun, Exec.bind_returned hrun]
    exact ih h' hgood' hb' hrest

/-- In a run from an intact entry, the owner's level is what it was until a command hits it. -/
theorem OwnerIntact.run_iff {cs : List SetpCommand} (hlen : owner.length ≤ 126) : ∀ {b : Bot},
    OwnerIntact owner b.perms.permMap → Good b → b.perms.permMap.Bounded →
      Always Accepted cs b →
      (levelOf (setpRun cs b).2.perms owner = some 100000 ↔
        Always (fun c b => ¬ Hits owner c b) cs b) := by
  induction cs with
  | nil => exact fun h hgood hb _ => iff_of_true (h.levelOf_eq hgood hb hlen) trivial
  | cons c cs ih =>
    rintro b h hgood - ⟨hc, hrest⟩
    obtain ⟨b', hrun, hgood', hb', hlost, hintact⟩ := h.step hc hgood
    rw [hrun] at hrest
    rw [setpRun, Exec.bind_returned hrun, Always, hrun]
    by_cases hits : Hits owner c b
    · exact iff_of_false ((hlost hits).run hlen hgood' hb' hrest) fun hno => hno.1 hits
    · rw [ih (hintact hits) hgood' hb' hrest]
      exact ⟨fun hrest' => ⟨hits, hrest'⟩, fun hrest' => hrest'.2⟩

/-- While the owner has the only entry, senders below `PERMS_OWNER` have no level at all, so none of
their commands is permitted. -/
theorem always_not_hits {cs : List SetpCommand} : ∀ {b : Bot}, Good b →
    storedLevel b.perms.permMap = Function.update (fun _ => 0) owner 100000 →
    Always Accepted cs b → Always BelowOwner cs b → Always (fun c b => ¬ Hits owner c b) cs b := by
  induction cs with
  | nil => exact fun _ _ _ _ => trivial
  | cons c cs ih =>
    rintro b hgood hstored ⟨hc, hrest⟩ ⟨hbelow, hbelows⟩
    obtain ⟨L, b', hL, hrun, hgood', houtcome⟩ := c.outcome hgood hc.bounded hc.host_le
    have hlevel : L = 0 := by
      obtain ⟨hfree, q, hsound⟩ := hgood
      have hpick := hL.symm.trans (MinervaBot.levelOf_eq hsound hc.bounded hfree hc.host_le)
      have hlt := hbelow L hL
      rw [Option.some.inj hpick, hstored] at hlt ⊢
      rcases pick_eq_zero_or (Function.update (fun _ => (0 : Int)) owner 100000)
        (candidates c.host) with hzero | ⟨k, -, hk⟩
      · exact hzero
      · by_cases hko : k = owner
        · subst hko
          rw [hk, Function.update_self] at hlt
          exact absurd hlt (by decide)
        · rw [hk, Function.update_of_ne hko]
    have hgrants : ∀ r, c.grants L ≠ some r := by
      rintro ⟨t, level⟩ h
      rw [hlevel] at h
      exact absurd (c.grants_lt h).1 (by decide)
    refine ⟨?_, ?_⟩
    · rintro ⟨L', level, hL', h⟩
      obtain rfl : L = L' := Option.some.inj (hL.symm.trans hL')
      exact hgrants _ h
    · rw [hrun] at hrest hbelows ⊢
      refine ih hgood' ?_ hrest hbelows
      cases houtcome with
      | denied _ hmap => rw [hmap, hstored]
      | set _ _ h => exact absurd h (hgrants _)
      | overflowed _ _ h => exact absurd h (hgrants _)

/-- The state that `permissions_init` leaves: the owner has the only entry. -/
theorem permissionsInit_owner {s : PermState} (h : permissionsInit true .ok (some owner) = some s) :
    Good ⟨s, []⟩ ∧ s.permMap.Bounded ∧
      storedLevel s.permMap = Function.update (fun _ => 0) owner 100000 := by
  obtain ⟨s', h', hfree, hrep⟩ := permissionsInit_rep (some owner)
  obtain rfl : s' = s := Option.some.inj (h'.symm.trans h)
  have hsome : ∀ i, ∃ es, contentsAfter (initialCalls (some owner)) i = some es :=
    contentsAfter_isSome (List.pairwise_singleton _ _) fun i => by
      refine (List.length_filter_le _ _).trans ?_
      simp [initialCalls]
  have hsound : Sound s'.permMap (contentsAfter (initialCalls (some owner))) := by
    refine ⟨hrep, fun k es hes => ?_⟩
    rw [queueOf_contentsAfter hes]
    exact levelQueue_single _
  refine ⟨⟨hfree, _, hsound⟩, hsound.bounded hsome, funext fun k => ?_⟩
  obtain ⟨es, hes⟩ := hsome (hashOf k)
  rw [hsound.storedLevel_eq hes, queueOf_contentsAfter hes]
  by_cases hk : k = owner
  · subst hk
    simp [initialCalls, levelQueue, pushLevel]
  · rw [Function.update_of_ne hk]
    have hnil : queueOf k (initialCalls (some owner)) = [] := by
      simpa [initialCalls] using queueOf_cons_of_ne (l := []) (p := (owner, (100000 : Int)))
        (Ne.symm hk)
    rw [hnil]
    rfl

end

/-- From `permissions_init` with an owner, through every run of `setp` commands: the owner's level
is `100000` exactly as long as no permitted command has the owner's host as its target. It stays
`100000` if every sender is below `PERMS_OWNER`. -/
theorem ownerLevel_iff {owner : CString} (hlen : owner.length ≤ 126) {s : PermState}
    (hinit : permissionsInit true .ok (some owner) = some s) {cs : List SetpCommand}
    (hcs : Always Accepted cs ⟨s, []⟩) :
    (levelOf (setpRun cs ⟨s, []⟩).2.perms owner = some 100000 ↔
      Always (fun c b => ¬ Hits owner c b) cs ⟨s, []⟩) ∧
    (Always BelowOwner cs ⟨s, []⟩ →
      levelOf (setpRun cs ⟨s, []⟩).2.perms owner = some 100000) := by
  obtain ⟨hgood, hb, hstored⟩ := permissionsInit_owner hinit
  have hintact : OwnerIntact owner s.permMap := by
    refine ⟨by rw [hstored, Function.update_self], fun k hk => ?_⟩
    rw [hstored, Function.update_of_ne hk]
    decide
  have hiff := hintact.run_iff (b := ⟨s, []⟩) hlen hgood hb hcs
  exact ⟨hiff, fun hbelow => hiff.2 (always_not_hits hgood hstored hcs hbelow)⟩

/-- The command by which the owner `own` appoints `op`. -/
def appointOp : SetpCommand :=
  ⟨CString.lit "a!b@own", CString.lit "own", by decide, CString.lit "#chan",
    CString.lit "40000 op"⟩

/-- Appointing `op` leaves the owner's level. -/
theorem ownerLevel_iff_appoint :
    ∃ s, permissionsInit true .ok (some (CString.lit "own")) = some s ∧
      levelOf (setpRun [appointOp] ⟨s, []⟩).2.perms (CString.lit "own") = some 100000 := by
  obtain ⟨s, hs⟩ : ∃ s, permissionsInit true .ok (some (CString.lit "own")) = some s := ⟨_, rfl⟩
  have hlevel : levelOf s (CString.lit "own") = some 100000 := by
    cases hs
    decide +kernel
  have haccepted : Accepted appointOp ⟨s, []⟩ := by
    refine ⟨by decide, ?_, ?_⟩ <;> cases hs <;> intro i <;> revert i <;> decide +kernel
  have hrun : Always Accepted [appointOp] ⟨s, []⟩ := ⟨haccepted, trivial⟩
  refine ⟨s, hs, (ownerLevel_iff (by decide) hs hrun).1.2 ⟨?_, trivial⟩⟩
  rintro ⟨L, level, hL, hgrants⟩
  obtain rfl : 100000 = L := Option.some.inj (hlevel.symm.trans hL)
  have hop : appointOp.grants 100000 = some (CString.lit "op", 40000) := by decide +kernel
  rw [hop] at hgrants
  have hne : CString.lit "op" ≠ CString.lit "own" := by decide
  exact hne (congrArg Prod.fst (Option.some.inj hgrants))

/-- A command from a host of 129 bytes. -/
def longHostSetp : SetpCommand :=
  let host : CString := ⟨List.replicate 129 97, by decide +kernel⟩
  ⟨CString.lit "a!b@" ++ host, host, by decide +kernel, CString.lit "#chan",
    CString.lit "5 own"⟩

/-- After `op` is appointed, its command `setp 5 own` takes the owner's level. And right after
`permissions_init`, a command from a host of 129 bytes, which has level `0`, leaves the owner
without a level, since it leaves the mutex taken. -/
theorem owner_dethroned :
    ∃ s, permissionsInit true .ok (some (CString.lit "own")) = some s ∧
      (let b := (appointOp.run ⟨s, []⟩).2
       let c : SetpCommand := ⟨CString.lit "o!p@op", CString.lit "op", by decide,
         CString.lit "#chan", CString.lit "5 own"⟩
       levelOf b.perms (CString.lit "own") = some 100000 ∧
       levelOf b.perms (CString.lit "op") = some 40000 ∧
       levelOf (c.run b).2.perms (CString.lit "own") = some 5) ∧
      levelOf s longHostSetp.host = some 0 ∧
      levelOf (longHostSetp.run ⟨s, []⟩).2.perms (CString.lit "own") = none := by
  refine ⟨_, rfl, ?_, ?_⟩
  · decide +kernel
  · decide +kernel

end MinervaBot
