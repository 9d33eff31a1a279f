import MinervaBot.Handlers
import MinervaBot.PermissionsSet

/-!
# `setp` commands and levels

What one `setp` command does to the levels of the hosts. The map is read as a table of stored
levels (`storedLevel`); the level of a host is the first nonzero one along its candidates
(`levelOf_eq`). In the maps that `permissions_set` builds, a host with a nonzero level has no second
entry (`Sound`), so a call sets the stored level of its host, unless that host has an entry with
level `0` (`Sound.set`). `SetpCommand.run_denied` and `SetpCommand.run_granted` reduce a command to
such a call.
-/

namespace MinervaBot

open Lib

/-! ## Levels -/

/-- The level stored for a host, `0` if there is none. -/
def storedLevel (m : Hashmap) (host : CString) : Int :=
  (hashmapGet m host).getD 0

/-- The level that `permissions_get` returns for a host, if it returns. -/
def levelOf (s : PermState) (host : CString) : Option Int :=
  match (permissionsGet (some host) s).1 with
  | .returned level => some level
  | _ => none

/-- The map has the contents `q`, in which a host with a nonzero level has no second entry. -/
structure Sound (m : Hashmap) (q : Contents) : Prop where
  rep : m.Rep q
  single : ∀ k es, q (hashOf k) = some es → (queueOf k es).headD 0 ≠ 0 →
    (queueOf k es).length = 1

section
variable {s : PermState} {m : Hashmap} {q : Contents} {host : CString}

/-- With the mutex taken nobody has a level. -/
theorem levelOf_taken (h : s.locked = true) (host : CString) : levelOf s host = none := by
  rw [levelOf, permissionsGet_taken h]

/-- A host in an overflowed bucket has no level. -/
theorem levelOf_overflowed (h : Sound s.permMap q) (hfree : s.locked = false)
    (hlen : host.length ≤ 128) (hq : q (hashOf host) = none) : levelOf s host = none := by
  obtain ⟨pbuf, pbufWrites, hget⟩ := permissionsGet_eq hfree hlen
  have hnone : firstNonzero (hashmapGet s.permMap) (candidates host) = none := by
    rw [candidates, firstNonzero, h.rep.get_overflowed hq]
  rw [levelOf, hget, hnone]
  rfl

/-- A map within its bounds has overflowed nowhere. -/
theorem Sound.of_bounded (h : Sound m q) (hb : m.Bounded) : ∀ i, ∃ es, q i = some es := by
  intro i
  refine Option.ne_none_iff_exists'.1 fun hnone => ?_
  have hvlen := hb i
  rw [h.rep.eq_overflowed hnone] at hvlen
  simp [HashmapEntryList.overflowed] at hvlen

/-- A map that has overflowed nowhere is within its bounds. -/
theorem Sound.bounded (h : Sound m q) (hq : ∀ i, ∃ es, q i = some es) : m.Bounded := by
  intro i
  obtain ⟨es, hes⟩ := hq i
  have hb := h.rep.holds hes
  rw [hb.vlen_eq]
  exact hb.length_le

/-- In a map within its bounds every lookup is defined. -/
theorem Sound.hashmapGet_eq (h : Sound m q) (hb : m.Bounded) (k : CString) :
    hashmapGet m k = some (storedLevel m k) := by
  obtain ⟨es, hes⟩ := h.of_bounded hb (hashOf k)
  rw [storedLevel, h.rep.get hes]
  rfl

/-- `permissions_get` returns the first nonzero stored level along the candidates. -/
theorem Sound.permissionsGet_returned (h : Sound s.permMap q) (hb : s.permMap.Bounded)
    (hfree : s.locked = false) (hlen : host.length ≤ 128) :
    ∃ pbuf pbufWrites, permissionsGet (some host) s =
      (.returned (pick (storedLevel s.permMap) (candidates host)),
        { s with pbuf, pbufWrites }) := by
  obtain ⟨pbuf, pbufWrites, hget⟩ := permissionsGet_eq hfree hlen
  have hval : firstNonzero (hashmapGet s.permMap) (candidates host) =
      some (pick (storedLevel s.permMap) (candidates host)) :=
    firstNonzero_eq_pick fun k _ => h.hashmapGet_eq hb k
  refine ⟨pbuf, pbufWrites, ?_⟩
  rw [hget, hval, hfree]
  rfl

theorem levelOf_eq (h : Sound s.permMap q) (hb : s.permMap.Bounded) (hfree : s.locked = false)
    (hlen : host.length ≤ 128) :
    levelOf s host = some (pick (storedLevel s.permMap) (candidates host)) := by
  obtain ⟨pbuf, pbufWrites, hget⟩ := h.permissionsGet_returned hb hfree hlen
  rw [levelOf, hget]

/-- If every short host has a level, the map is within its bounds. -/
theorem Sound.bounded_of_levelOf (h : Sound s.permMap q) (hfree : s.locked = false)
    (hlevel : ∀ g : CString, g.length ≤ 126 → levelOf s g ≠ none) : s.permMap.Bounded := by
  refine h.bounded fun i => Option.ne_none_iff_exists'.1 fun hnone => ?_
  obtain ⟨k, hlen, hk⟩ := exists_crc8Block_eq i.isLt
  obtain rfl : hashOf k = i := Fin.ext hk
  exact hlevel k (by omega) (levelOf_overflowed h hfree (by omega) hnone)

/-! ## `permissions_set` -/

/-- A queue with a nonzero front and no second level stays so. -/
theorem pushLevel_single {levels : List Int} {level : Int}
    (h : levels.headD 0 ≠ 0 → levels.length = 1) (h0 : (pushLevel levels level).headD 0 ≠ 0) :
    (pushLevel levels level).length = 1 := by
  unfold pushLevel at h0 ⊢
  by_cases hhead : levels.headD 0 = 0
  · cases levels with
    | nil => simp
    | cons a levels => simp_all
  · have hlen := h hhead
    simp only [ne_eq, hhead, not_false_iff, if_true, List.length_append, List.length_tail, hlen]
    rfl

/-- The front of a queue after a call. -/
theorem headD_pushLevel {levels : List Int} (level : Int)
    (h : levels.headD 0 ≠ 0 → levels.length = 1) :
    (pushLevel levels level).headD 0 = level ∨
      levels.headD 0 = 0 ∧ (pushLevel levels level).headD 0 = 0 := by
  unfold pushLevel
  by_cases hhead : levels.headD 0 = 0
  · cases levels with
    | nil => simp
    | cons a levels => simp_all
  · obtain ⟨a, rfl⟩ := List.length_eq_one_iff.1 (h hhead)
    left
    simp only [ne_eq, hhead, not_false_iff, if_true]
    rfl

/-- A call keeps a map sound. -/
theorem Sound.contents_set (h : Sound m q) (host : CString) (level : Int) {m' : Hashmap}
    (hrep : m'.Rep (q.set host level)) : Sound m' (q.set host level) := by
  refine ⟨hrep, fun k es hes hne => ?_⟩
  by_cases hk : hashOf k = hashOf host
  · simp only [Contents.set, hk, Function.update_self, Option.bind_eq_some_iff] at hes
    obtain ⟨es₀, hes₀, hset⟩ := hes
    have hsingle := h.single k es₀ (by rw [hk, hes₀])
    rw [pushPair_eq_some hset, queueOf_clearFront_concat] at hne ⊢
    split
    · next hkh =>
      rw [if_pos hkh] at hne
      exact pushLevel_single hsingle hne
    · next hkh =>
      rw [if_neg hkh] at hne
      exact hsingle hne
  · simp only [Contents.set, Function.update_of_ne hk] at hes
    exact h.single k es hes hne

/-- There is room for an entry of the host, or an entry to replace. -/
def HasRoom (m : Hashmap) (host : CString) : Prop :=
  (m.buckets (hashOf host)).vlen < 32768 ∨ storedLevel m host ≠ 0

/-- The stored level is the front of the host's queue. -/
theorem Sound.storedLevel_eq (h : Sound m q) {es : List (CString × Int)}
    (hes : q (hashOf host) = some es) : storedLevel m host = (queueOf host es).headD 0 := by
  rw [storedLevel, h.rep.get hes]
  rfl

/-- The bucket of the host overflows in a call exactly if there is no room. -/
theorem Sound.setPair_isSome (h : Sound m q) {es : List (CString × Int)}
    (hes : q (hashOf host) = some es) (level : Int) :
    (∃ es', setPair es host level = some es') ↔ HasRoom m host := by
  have hb := h.rep.holds hes
  have hle := hb.length_le
  have hpush : (∃ es', setPair es host level = some es') ↔
      (clearFront es host).length < 2 ^ 15 := by
    rw [setPair, pushPair]
    split
    · next hlt => exact ⟨fun _ => hlt, fun _ => ⟨_, rfl⟩⟩
    · next hge =>
      constructor
      · rintro ⟨es', hsome⟩
        cases hsome
      · exact fun hlt => absurd hlt hge
  rw [hpush, HasRoom, hb.vlen_eq, h.storedLevel_eq hes, clearFront]
  by_cases h0 : (queueOf host es).headD 0 = 0
  · rw [if_neg (not_not_intro h0)]
    exact ⟨fun hlt => .inl (by omega), fun hroom => hroom.elim (by omega) fun hne => absurd h0 hne⟩
  · have hne : queueOf host es ≠ [] := fun hnil => h0 (by rw [hnil]; rfl)
    obtain ⟨pre, v, post, rfl, hpre⟩ := exists_first_pair hne
    simp only [h0, ne_eq, not_false_iff, if_true, or_true, iff_true, deleteFirst_first_pair hpre]
    simp only [List.length_append, List.length_cons] at hle ⊢
    omega

/-- `permissions_set` with room sets the stored level of its host, or leaves the `0` stored for
it. -/
theorem Sound.set (h : Sound s.permMap q) (hb : s.permMap.Bounded) (hfree : s.locked = false)
    (hroom : HasRoom s.permMap host) (level : Int) :
    ∃ m', permissionsSet .ok host level s = (.returned (), { s with permMap := m' }) ∧
      Sound m' (q.set host level) ∧ m'.Bounded ∧
      (storedLevel m' = Function.update (storedLevel s.permMap) host level ∨
        storedLevel s.permMap host = 0 ∧ storedLevel m' = storedLevel s.permMap) := by
  obtain ⟨es, hes⟩ := h.of_bounded hb (hashOf host)
  obtain ⟨es', hes'⟩ := (h.setPair_isSome hes level).2 hroom
  obtain ⟨m', hset, hrep⟩ := permissionsSet_eq h.rep hfree hes level
  have hsound := h.contents_set host level hrep
  have hafter : q.set host level (hashOf host) = some es' := by
    simp [Contents.set, hes, hes']
  have hall : ∀ i, ∃ es, q.set host level i = some es := by
    intro i
    by_cases hi : i = hashOf host
    · exact ⟨es', by rw [hi, hafter]⟩
    · obtain ⟨esi, hesi⟩ := h.of_bounded hb i
      exact ⟨esi, by simp [Contents.set, hi, hesi]⟩
  have hother : ∀ k, k ≠ host → storedLevel m' k = storedLevel s.permMap k := by
    intro k hk
    by_cases hh : hashOf k = hashOf host
    · rw [hsound.storedLevel_eq (by rw [hh, hafter]), h.storedLevel_eq (by rw [hh, hes]),
        pushPair_eq_some hes', queueOf_clearFront_concat, if_neg hk]
    · obtain ⟨esk, hesk⟩ := h.of_bounded hb (hashOf k)
      have hesk' : q.set host level (hashOf k) = some esk := by simp [Contents.set, hh, hesk]
      rw [h.storedLevel_eq hesk, hsound.storedLevel_eq hesk']
  have hself : storedLevel m' host = (pushLevel (queueOf host es) level).headD 0 := by
    rw [hsound.storedLevel_eq hafter, pushPair_eq_some hes', queueOf_clearFront_concat,
      if_pos rfl]
  refine ⟨m', hset, hsound, hsound.bounded hall, ?_⟩
  rcases headD_pushLevel level (h.single host es hes) with hlevel | ⟨hzero, hlevel⟩
  · left
    funext k
    by_cases hk : k = host
    · subst hk; rw [hself, hlevel, Function.update_self]
    · rw [hother k hk, Function.update_of_ne hk]
  · right
    rw [← h.storedLevel_eq hes] at hzero
    refine ⟨hzero, funext fun k => ?_⟩
    by_cases hk : k = host
    · subst hk; rw [hself, hlevel, hzero]
    · exact hother k hk

/-- `permissions_set` without room overflows the bucket of its host. -/
theorem Sound.set_overflow (h : Sound s.permMap q) (hb : s.permMap.Bounded)
    (hfree : s.locked = false) (hroom : ¬ HasRoom s.permMap host) (level : Int) :
    ∃ m', permissionsSet .ok host level s = (.returned (), { s with permMap := m' }) ∧
      Sound m' (q.set host level) ∧ ¬ m'.Bounded := by
  obtain ⟨es, hes⟩ := h.of_bounded hb (hashOf host)
  obtain ⟨m', hset, hrep⟩ := permissionsSet_eq h.rep hfree hes level
  have hsound := h.contents_set host level hrep
  refine ⟨m', hset, hsound, fun hb' => hroom ?_⟩
  obtain ⟨es', hes'⟩ := hsound.of_bounded hb' (hashOf host)
  simp only [Contents.set, Function.update_self, hes, Option.bind_some] at hes'
  exact (h.setPair_isSome hes level).1 ⟨es', hes'⟩

end

/-! ## Maps built by `permissions_set` -/

/-- A state that `permissions_init` and a sequence of `permissions_set` calls leave. -/
def Reachable (s : PermState) : Prop :=
  ∃ ownerHost calls s₀, permissionsInit true .ok ownerHost = some s₀ ∧
    permissionsSets calls s₀ = (.returned (), s)

/-- The queues of a sequence of calls have no second level behind a nonzero one. -/
theorem levelQueue_single (levels : List Int) :
    (levelQueue levels).headD 0 ≠ 0 → (levelQueue levels).length = 1 := by
  induction levels using List.reverseRecOn with
  | nil => exact fun h => absurd rfl h
  | append_singleton levels level ih =>
    rw [levelQueue_concat]
    exact pushLevel_single ih

/-- A reachable state has a sound map and the mutex free. -/
theorem Reachable.sound {s : PermState} (h : Reachable s) :
    s.locked = false ∧ ∃ q, Sound s.permMap q := by
  obtain ⟨ownerHost, calls, s₀, hinit, hsets⟩ := h
  obtain ⟨s₁, hinit', hfree, hrep⟩ := permissionsInit_rep ownerHost
  obtain rfl : s₁ = s₀ := Option.some.inj (hinit'.symm.trans hinit)
  rcases permissionsSets_eq calls hrep hfree with ⟨m, hm, hrep'⟩ | ⟨hundef, -⟩
  · obtain rfl : { s₁ with permMap := m } = s := by
      rw [hm] at hsets
      exact congrArg Prod.snd hsets
    refine ⟨hfree, _, hrep', fun k es hes => ?_⟩
    have hafter : Contents.sets (Contents.sets (fun _ => some []) (initialCalls ownerHost)) calls =
        contentsAfter (initialCalls ownerHost ++ calls) := by
      simp [contentsAfter, Contents.sets]
    rw [hafter] at hes
    rw [queueOf_contentsAfter hes]
    exact levelQueue_single _
  · rw [hsets] at hundef
    cases hundef

/-! ## One command -/

/-- A `setp` command from a sender with a host. -/
structure SetpCommand where
  sender : CString
  host : CString
  host_eq : (ircParsesender sender).host = some host
  target : CString
  args : CString

/-- Run the command in its thread. -/
def SetpCommand.run (c : SetpCommand) : Exec Bot Unit :=
  threadpoolWrapperCmd (permsHandleCmd .ok) (CString.lit "setp") c.sender c.target c.args

/-- The host and the level that the command sets for a sender with level `L`, if it is
permitted. -/
def SetpCommand.grants (c : SetpCommand) (L : Int) : Option (CString × Int) :=
  match c.args.strchr 32 with
  | none => none
  | some i =>
    if L ≥ permsOp ∧ CString.atoi (c.args.take i) < L then
      some (c.args.drop (i + 1), CString.atoi (c.args.take i))
    else none

section
variable {c : SetpCommand} {b : Bot} {L : Int} {s₁ s₂ : PermState}

/-- A command whose handler returns. -/
theorem SetpCommand.run_of_handleSetp
    (hget : permissionsGet (some c.host) b.perms = (.returned L, s₁)) {b' : Bot}
    (hsetp : handleSetp .ok { ircParsesender c.sender with permissionLevel := L } c.target c.args
      { b with perms := s₁ } = (.returned (), b')) : c.run b = (.returned (), b') := by
  have hcheck : onPerms (permissionsGet (ircParsesender c.sender).host) b =
      (.returned L, { b with perms := s₁ }) := by
    rw [c.host_eq, onPerms, Exec.zoom, hget]
  have hhandler : permsHandleCmd .ok (CString.lit "setp")
      { ircParsesender c.sender with permissionLevel := L } c.target c.args
      { b with perms := s₁ } = (.returned 0, b') := by
    show (handleSetp .ok { ircParsesender c.sender with permissionLevel := L } c.target c.args >>=
      fun _ => pure 0) { b with perms := s₁ } = _
    rw [Exec.bind_returned hsetp]
    rfl
  have hrun : runCommand (permsHandleCmd .ok) (CString.lit "setp") c.sender c.target c.args b =
      (.returned (), b') := by
    rw [runCommand, Exec.bind_returned hcheck, Exec.bind_returned hhandler]
    rfl
  rw [SetpCommand.run, threadpoolWrapperCmd, Exec.catchSegv, hrun]

/-- A command that is not permitted leaves the permissions to `permissions_get`. -/
theorem SetpCommand.run_denied (hget : permissionsGet (some c.host) b.perms = (.returned L, s₁))
    (hgrants : c.grants L = none) : ∃ calls, c.run b = (.returned (), ⟨s₁, calls⟩) := by
  obtain ⟨calls, hsetp⟩ : ∃ calls,
      handleSetp .ok { ircParsesender c.sender with permissionLevel := L } c.target c.args
        { b with perms := s₁ } = (.returned (), ⟨s₁, calls⟩) := by
    unfold SetpCommand.grants at hgrants
    unfold handleSetp
    cases hargs : c.args.strchr 32 with
    | none => exact ⟨_, rfl⟩
    | some i =>
      simp only [hargs] at hgrants ⊢
      split at hgrants
      · cases hgrants
      · next hdenied =>
        rw [if_neg hdenied]
        exact ⟨_, rfl⟩
  exact ⟨calls, c.run_of_handleSetp hget hsetp⟩

/-- A permitted command is a call of `permissions_set`. -/
theorem SetpCommand.run_granted (hget : permissionsGet (some c.host) b.perms = (.returned L, s₁))
    {t : CString} {level : Int} (hgrants : c.grants L = some (t, level))
    (hset : permissionsSet .ok t level s₁ = (.returned (), s₂)) :
    ∃ calls, c.run b = (.returned (), ⟨s₂, calls⟩) := by
  obtain ⟨calls, hsetp⟩ : ∃ calls,
      handleSetp .ok { ircParsesender c.sender with permissionLevel := L } c.target c.args
        { b with perms := s₁ } = (.returned (), ⟨s₂, calls⟩) := by
    unfold SetpCommand.grants at hgrants
    unfold handleSetp
    cases hargs : c.args.strchr 32 with
    | none => simp [hargs] at hgrants
    | some i =>
      simp only [hargs] at hgrants ⊢
      split at hgrants
      · next hpermitted =>
        cases hgrants
        have hctx : ctxSetperms .ok (c.args.drop (i + 1)) (CString.atoi (c.args.take i))
            { b with perms := s₁ } =
            (.returned (), ⟨s₂, b.calls ++
              [.setperms (c.args.drop (i + 1)) (CString.atoi (c.args.take i))]⟩) := by
          rw [ctxSetperms, Exec.bind_returned (coreCall_apply _ _), onPerms, Exec.zoom, hset]
        rw [if_pos hpermitted, Exec.bind_returned hctx]
        exact ⟨_, rfl⟩
      · cases hgrants
  exact ⟨calls, c.run_of_handleSetp hget hsetp⟩

/-- Only a level below the sender's is granted. -/
theorem SetpCommand.grants_lt {t : CString} {level : Int} (h : c.grants L = some (t, level)) :
    permsOp ≤ L ∧ level < L := by
  unfold SetpCommand.grants at h
  split at h
  · cases h
  · split at h
    · next hpermitted => cases h; exact hpermitted
    · cases h

end

/-- The mutex is free and the map is sound. -/
def Good (b : Bot) : Prop :=
  b.perms.locked = false ∧ ∃ q, Sound b.perms.permMap q

/-- What a command does for a sender with level `L`. -/
inductive SetpCommand.Outcome (c : SetpCommand) (b : Bot) (L : Int) (b' : Bot) : Prop
  | denied (grants_eq : c.grants L = none) (map_eq : b'.perms.permMap = b.perms.permMap)
  | set (t : CString) (level : Int) (grants_eq : c.grants L = some (t, level))
      (room : HasRoom b.perms.permMap t) (bounded : b'.perms.permMap.Bounded)
      (stored : storedLevel b'.perms.permMap =
          Function.update (storedLevel b.perms.permMap) t level ∨
        storedLevel b.perms.permMap t = 0 ∧
          storedLevel b'.perms.permMap = storedLevel b.perms.permMap)
  | overflowed (t : CString) (level : Int) (grants_eq : c.grants L = some (t, level))
      (noRoom : ¬ HasRoom b.perms.permMap t) (unbounded : ¬ b'.perms.permMap.Bounded)

/-- A command from a sender with a host of at most 128 bytes, on a map within its bounds. -/
theorem SetpCommand.outcome {c : SetpCommand} {b : Bot} (h : Good b)
    (hb : b.perms.permMap.Bounded) (hlen : c.host.length ≤ 128) :
    ∃ L b', levelOf b.perms c.host = some L ∧ c.run b = (.returned (), b') ∧ Good b' ∧
      c.Outcome b L b' := by
  obtain ⟨hfree, q, hsound⟩ := h
  obtain ⟨pbuf, pbufWrites, hget⟩ := hsound.permissionsGet_returned hb hfree hlen
  have hlevel := levelOf_eq hsound hb hfree hlen
  let L := pick (storedLevel b.perms.permMap) (candidates c.host)
  let s₁ : PermState := { b.perms with pbuf, pbufWrites }
  have hsound₁ : Sound s₁.permMap q := hsound
  cases hgrants : c.grants L with
  | none =>
    obtain ⟨calls, hrun⟩ := c.run_denied hget hgrants
    exact ⟨L, _, hlevel, hrun, ⟨hfree, q, hsound⟩, .denied hgrants rfl⟩
  | some r =>
    obtain ⟨t, level⟩ := r
    by_cases hroom : HasRoom b.perms.permMap t
    · obtain ⟨m', hset, hsound', hb', hstored⟩ := hsound₁.set hb hfree hroom level
      obtain ⟨calls, hrun⟩ := c.run_granted hget hgrants hset
      exact ⟨L, _, hlevel, hrun, ⟨hfree, _, hsound'⟩, .set t level hgrants hroom hb' hstored⟩
    · obtain ⟨m', hset, hsound', hb'⟩ := hsound₁.set_overflow hb hfree hroom level
      obtain ⟨calls, hrun⟩ := c.run_granted hget hgrants hset
      exact ⟨L, _, hlevel, hrun, ⟨hfree, _, hsound'⟩, .overflowed t level hgrants hroom hb'⟩

/-- Run commands one after the other. -/
def setpRun : List SetpCommand → Exec Bot Unit
  | [] => pure ()
  | c :: cs => do
    c.run
    setpRun cs

/-- Every command of a run satisfies `P` in the state it is run in. -/
def Always (P : SetpCommand → Bot → Prop) : List SetpCommand → Bot → Prop
  | [], _ => True
  | c :: cs, b => P c b ∧ Always P cs (c.run b).2

end MinervaBot
