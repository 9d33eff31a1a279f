import MinervaBot.HashmapCorrect
import MinervaBot.PermissionsGet
import Mathlib.Data.List.Dedup
import Mathlib.Data.List.Induction
import Mathlib.Data.List.Perm.Subperm

/-!
# Sequences of `permissions_set`

`permissions_set` replaces the front of its host's queue if that front is not `0`, and otherwise
appends behind it (`setPair`). So a host whose stored level is `0` keeps it: a later call appends a
second entry that no lookup reaches. `setsTakeEffect_iff` states for which sequences every call
takes effect: those in which a call with level `0` is the last one on its host, and whose hosts fit
into the buckets.
-/

namespace MinervaBot

open Lib

/-! ## One call -/

/-- The contents of the bucket of `host` once `permissions_set(host, _)` has removed what it
replaces. -/
def clearFront (es : List (CString × Int)) (host : CString) : List (CString × Int) :=
  if (queueOf host es).headD 0 ≠ 0 then deleteFirst host es else es

/-- The contents of the bucket of `host` after `permissions_set(host, level)`. -/
def setPair (es : List (CString × Int)) (host : CString) (level : Int) :
    Option (List (CString × Int)) :=
  pushPair (clearFront es host) (host, level)

/-- The contents after `permissions_set(host, level)`. -/
def Contents.set (q : Contents) (host : CString) (level : Int) : Contents :=
  Function.update q (hashOf host) ((q (hashOf host)).bind (setPair · host level))

section
variable {s : PermState} {q : Contents} {host : CString} {es : List (CString × Int)}

/-- `permissions_set` on a bucket that has not overflowed. -/
theorem permissionsSet_eq (h : s.permMap.Rep q) (hfree : s.locked = false)
    (hq : q (hashOf host) = some es) (level : Int) :
    ∃ m, permissionsSet .ok host level s = (.returned (), { s with permMap := m }) ∧
      m.Rep (q.set host level) := by
  have hget : permMapGet host { s with locked := true } =
      (.returned ((queueOf host es).headD 0), { s with locked := true }) := by
    rw [permMapGet, Exec.bind_returned (Exec.get_apply _), Exec.ofOption_apply, h.get hq]
    rfl
  have hput : ∀ {m : Hashmap} {es'}, m.Rep (Function.update q (hashOf host) (some es')) →
      ∃ m', permMapPut .ok host level { s with permMap := m, locked := true } =
        (.returned (), { s with permMap := m', locked := true }) ∧
        m'.Rep (Function.update q (hashOf host) (pushPair es' (host, level))) := by
    intro m es' hm
    obtain ⟨m', hput, hrep⟩ := hm.put host (Function.update_self _ _ _) level
    refine ⟨m', ?_, by simpa using hrep⟩
    rw [permMapPut, Exec.bind_returned (Exec.get_apply _)]
    simp only [hput]
    rfl
  rw [permissionsSet, Exec.bind_returned (permissionsLock_free hfree), Exec.bind_returned hget]
  rw [Contents.set, hq, Option.bind_some, setPair, clearFront]
  by_cases h0 : (queueOf host es).headD 0 = 0
  · have hrep : s.permMap.Rep (Function.update q (hashOf host) (some es)) := by
      rwa [← hq, Function.update_eq_self]
    obtain ⟨m', hput, hrep'⟩ := hput hrep
    refine ⟨m', ?_, by simpa only [h0, ne_eq, not_true, if_false] using hrep'⟩
    simp only [h0, ne_eq, not_true, if_false]
    show (permMapPut .ok host level >>= _) _ = _
    rw [Exec.bind_returned hput, permissionsUnlock, Exec.modify_apply, ← hfree]
  · obtain ⟨m, hremove, hrep⟩ := h.remove _ hq
    obtain ⟨m', hput, hrep'⟩ := hput hrep
    refine ⟨m', ?_, by simpa only [h0, ne_eq, not_false_iff, if_true] using hrep'⟩
    have hrem : permMapRemove host { s with locked := true } =
        (.returned (), { s with permMap := m, locked := true }) := by
      rw [permMapRemove, Exec.bind_returned (Exec.get_apply _)]
      simp only [hremove]
      rfl
    simp only [h0, ne_eq, not_false_iff, if_true]
    show (permMapRemove host >>= _) _ = _
    rw [Exec.bind_returned hrem]
    show (permMapPut .ok host level >>= _) _ = _
    rw [Exec.bind_returned hput, permissionsUnlock, Exec.modify_apply, ← hfree]

/-- `permissions_set` on an overflowed bucket is undefined, with the mutex taken. -/
theorem permissionsSet_overflowed (h : s.permMap.Rep q) (hfree : s.locked = false)
    (hq : q (hashOf host) = none) (level : Int) :
    permissionsSet .ok host level s = (.undefined, { s with locked := true }) := by
  have hget : permMapGet host { s with locked := true } =
      (.undefined, { s with locked := true }) := by
    rw [permMapGet, Exec.bind_returned (Exec.get_apply _), Exec.ofOption_apply,
      h.get_overflowed hq]
    rfl
  rw [permissionsSet, Exec.bind_returned (permissionsLock_free hfree), Exec.bind_undefined hget]

end

/-! ## Sequences of calls -/

/-- A sequence of `permissions_set` calls, with succeeding allocations. -/
def permissionsSets : List (CString × Int) → Exec PermState Unit
  | [] => pure ()
  | (host, level) :: calls => do
    permissionsSet .ok host level
    permissionsSets calls

/-- The contents after a sequence of calls. -/
def Contents.sets (q : Contents) (calls : List (CString × Int)) : Contents :=
  calls.foldl (fun q c => q.set c.1 c.2) q

/-- An overflowed bucket stays so. -/
theorem Contents.sets_eq_none {q : Contents} {i : Fin 256} (h : q i = none)
    (calls : List (CString × Int)) : q.sets calls i = none := by
  induction calls generalizing q with
  | nil => exact h
  | cons c calls ih =>
    refine ih ?_
    by_cases hi : i = hashOf c.1
    · subst hi; simp [Contents.set, h]
    · simp [Contents.set, hi, h]

/-- A sequence of calls returns and leaves the contents of `Contents.sets`, or it is undefined
because a bucket has overflowed. -/
theorem permissionsSets_eq (calls : List (CString × Int)) {s : PermState} {q : Contents}
    (h : s.permMap.Rep q) (hfree : s.locked = false) :
    (∃ m, permissionsSets calls s = (.returned (), { s with permMap := m }) ∧
      m.Rep (q.sets calls)) ∨
    (permissionsSets calls s).1 = .undefined ∧ ∃ i, q.sets calls i = none := by
  induction calls generalizing s q with
  | nil => exact .inl ⟨s.permMap, rfl, h⟩
  | cons c calls ih =>
    obtain ⟨host, level⟩ := c
    cases hq : q (hashOf host) with
    | none =>
      refine .inr ⟨?_, hashOf host, Contents.sets_eq_none hq _⟩
      rw [permissionsSets, Exec.bind_undefined (permissionsSet_overflowed h hfree hq level)]
    | some es =>
      obtain ⟨m, hset, hrep⟩ := permissionsSet_eq h hfree hq level
      rw [permissionsSets, Exec.bind_returned hset]
      exact ih (s := { s with permMap := m }) hrep hfree

/-- `permissions_init` as a call on the owner. -/
def initialCalls (ownerHost : Option CString) : List (CString × Int) :=
  ownerHost.toList.map fun host => (host, 100000)

/-- The map that `permissions_init` builds has the contents of the call on the owner. -/
theorem permissionsInit_rep (ownerHost : Option CString) :
    ∃ s, permissionsInit true .ok ownerHost = some s ∧ s.locked = false ∧
      s.permMap.Rep (Contents.sets (fun _ => some []) (initialCalls ownerHost)) := by
  obtain ⟨m, hm⟩ : ∃ m, hashmapNew true = some m := ⟨_, rfl⟩
  have hnew := hashmapNew_rep hm
  cases ownerHost with
  | none => exact ⟨.ofMap m, by rw [permissionsInit, hm], rfl, hnew⟩
  | some host =>
    obtain ⟨m', hput, hrep⟩ := hnew.put host rfl 100000
    exact ⟨.ofMap m', by simp [permissionsInit, hm, hput], rfl, hrep⟩

/-! ## The queue of one host -/

/-- The levels stored for a host after another `permissions_set` on it. -/
def pushLevel (levels : List Int) (level : Int) : List Int :=
  (if levels.headD 0 ≠ 0 then levels.tail else levels) ++ [level]

/-- The levels stored for a host after `permissions_set` calls with these levels. -/
def levelQueue (levels : List Int) : List Int :=
  levels.foldl pushLevel []

theorem levelQueue_concat (levels : List Int) (level : Int) :
    levelQueue (levels ++ [level]) = pushLevel (levelQueue levels) level := by
  simp [levelQueue]

/-- If no call but the last has level `0`, the last level is the only one stored. -/
theorem levelQueue_eq_last {levels : List Int} (h : levels.Pairwise fun a _ => a ≠ 0) :
    levelQueue levels = levels.getLast?.toList := by
  induction levels using List.reverseRecOn with
  | nil => rfl
  | append_singleton levels level ih =>
    obtain ⟨h, -, hne⟩ := List.pairwise_append.1 h
    rw [levelQueue_concat, ih h, List.getLast?_concat]
    cases hlast : levels.getLast? with
    | none => rfl
    | some last =>
      have := hne last (List.mem_of_getLast? hlast) level (.head _)
      simp [pushLevel, this]

/-- If another call has level `0`, at least two levels are stored. -/
theorem pairwise_of_levelQueue {levels : List Int} (h : (levelQueue levels).length ≤ 1) :
    levels.Pairwise fun a _ => a ≠ 0 := by
  induction levels using List.reverseRecOn with
  | nil => exact .nil
  | append_singleton levels level ih =>
    rw [levelQueue_concat] at h
    have hle : (levelQueue levels).length ≤ 1 := by
      unfold pushLevel at h
      split at h
      · simp at h; omega
      · simp at h; simp [h]
    have hpair := ih hle
    rw [levelQueue_eq_last hpair] at h
    refine List.pairwise_append.2 ⟨hpair, List.pairwise_singleton _ _, fun a ha _ _ => ?_⟩
    -- The last level so far was replaced, so it is not `0`; the others are not by induction.
    rcases List.eq_nil_or_concat levels with rfl | ⟨init, last, rfl⟩
    · cases ha
    · rw [List.concat_eq_append] at h hpair ha
      have hlast : last ≠ 0 := by
        intro h0
        simp [pushLevel, h0] at h
      rcases List.mem_append.1 ha with ha | ha
      · exact (List.pairwise_append.1 hpair).2.2 a ha last (.head _)
      · rwa [List.mem_singleton.1 ha]

/-- A call changes the queue of its host only. -/
theorem queueOf_clearFront_concat (es : List (CString × Int)) (host k : CString) (level : Int) :
    queueOf k (clearFront es host ++ [(host, level)]) =
      if k = host then pushLevel (queueOf k es) level else queueOf k es := by
  rw [clearFront, queueOf_append]
  by_cases hk : k = host
  · subst hk
    rw [if_pos rfl, pushLevel, queueOf_cons_self, queueOf_nil]
    split
    · rw [queueOf_deleteFirst_self]
    · rfl
  · rw [if_neg hk, queueOf_cons_of_ne (Ne.symm hk), queueOf_nil, List.append_nil]
    split
    · rw [queueOf_deleteFirst_of_ne (Ne.symm hk)]
    · rfl

/-- A call adds no host but its own. -/
theorem mem_clearFront_concat {es : List (CString × Int)} {host : CString} {level : Int}
    {p : CString × Int} (h : p ∈ clearFront es host ++ [(host, level)]) :
    p ∈ es ∨ p = (host, level) := by
  rcases List.mem_append.1 h with h | h
  · unfold clearFront at h
    split at h
    · exact .inl (mem_of_mem_deleteFirst h)
    · exact .inl h
  · exact .inr (List.mem_singleton.1 h)

/-- What a bucket stores for a host after a sequence of calls, if the bucket has not overflowed. -/
theorem Contents.sets_queueOf (calls : List (CString × Int)) {q : Contents} {h : CString}
    {es : List (CString × Int)} (hes : q.sets calls (hashOf h) = some es) :
    ∃ es₀, q (hashOf h) = some es₀ ∧
      queueOf h es = (queueOf h calls).foldl pushLevel (queueOf h es₀) := by
  induction calls generalizing q with
  | nil => exact ⟨es, hes, rfl⟩
  | cons c calls ih =>
    obtain ⟨es₁, hes₁, hqueue⟩ := ih (q := q.set c.1 c.2) hes
    by_cases hi : hashOf h = hashOf c.1
    · simp only [Contents.set, hi, Function.update_self, Option.bind_eq_some_iff] at hes₁
      obtain ⟨es₀, hes₀, hset⟩ := hes₁
      refine ⟨es₀, by rw [hi, hes₀], ?_⟩
      rw [hqueue, pushPair_eq_some hset, queueOf_clearFront_concat]
      by_cases hk : h = c.1
      · subst hk
        rw [if_pos rfl, show c = (c.1, c.2) from rfl, queueOf_cons_self, List.foldl_cons]
      · rw [if_neg hk, queueOf_cons_of_ne (Ne.symm hk)]
    · simp only [Contents.set, Function.update_of_ne hi] at hes₁
      have hk : c.1 ≠ h := fun hk => hi (by rw [hk])
      exact ⟨es₁, hes₁, by rw [hqueue, queueOf_cons_of_ne hk]⟩

/-! ## When every call takes effect -/

/-- No call with level `0` is followed by another call on its host. -/
def ZeroLevelsLast (calls : List (CString × Int)) : Prop :=
  calls.Pairwise fun c c' => c.1 = c'.1 → c.2 ≠ 0

/-- At most 32768 different hosts share a bucket. -/
def BucketsFit (hosts : List CString) : Prop :=
  ∀ i, (hosts.dedup.filter (hashOf · = i)).length ≤ 32768

/-- The level of the last call on a host, `0` if there is none. -/
def lastLevel (host : CString) (calls : List (CString × Int)) : Int :=
  (queueOf host calls).getLastD 0

/-- `ZeroLevelsLast` host by host. -/
theorem zeroLevelsLast_iff {calls : List (CString × Int)} :
    ZeroLevelsLast calls ↔ ∀ h, (queueOf h calls).Pairwise fun a _ => a ≠ 0 := by
  simp only [queueOf, List.pairwise_map, List.pairwise_filter, ZeroLevelsLast]
  constructor
  · intro h k
    exact h.imp fun hne hk hk' => hne (by simp_all)
  · intro h
    rw [List.pairwise_iff_getElem]
    intro i j hi hj hij heq
    exact List.pairwise_iff_getElem.1 (h calls[j].1) i j hi hj hij (by simp [heq]) (by simp)

/-- The call on the owner is not one with level `0`. -/
theorem zeroLevelsLast_initialCalls (ownerHost : Option CString) {calls : List (CString × Int)} :
    ZeroLevelsLast (initialCalls ownerHost ++ calls) ↔ ZeroLevelsLast calls := by
  cases ownerHost <;> simp [ZeroLevelsLast, initialCalls]

/-- The contents after a sequence of calls from an empty map. -/
def contentsAfter (calls : List (CString × Int)) : Contents :=
  Contents.sets (fun _ => some []) calls

theorem contentsAfter_concat (calls : List (CString × Int)) (c : CString × Int) :
    contentsAfter (calls ++ [c]) = (contentsAfter calls).set c.1 c.2 := by
  simp [contentsAfter, Contents.sets]

/-- What the map stores for a host after a sequence of calls. -/
theorem queueOf_contentsAfter {calls : List (CString × Int)} {h : CString}
    {es : List (CString × Int)} (hes : contentsAfter calls (hashOf h) = some es) :
    queueOf h es = levelQueue (queueOf h calls) := by
  obtain ⟨es₀, hes₀, hqueue⟩ := Contents.sets_queueOf calls hes
  cases hes₀
  exact hqueue

/-- A list of pairs with one pair a host is no longer than the list of its hosts without
repetitions. -/
theorem length_le_hosts {es calls : List (CString × Int)} {i : Fin 256}
    (hone : ∀ k, (queueOf k es).length ≤ 1) (hmem : ∀ p ∈ es, p.1 ∈ calls.map (·.1))
    (hhash : ∀ p ∈ es, hashOf p.1 = i) :
    es.length ≤ ((calls.map (·.1)).dedup.filter (hashOf · = i)).length := by
  have hsub : es.map (·.1) ⊆ (calls.map (·.1)).dedup.filter (hashOf · = i) := by
    intro k hk
    obtain ⟨p, hp, rfl⟩ := List.mem_map.1 hk
    simpa using ⟨by simpa using hmem p hp, hhash p hp⟩
  simpa using ((nodup_keys_of_queueOf_le_one hone).subperm hsub).length_le

/-- Fewer hosts fit as well. -/
theorem BucketsFit.mono {hosts hosts' : List CString} (h : BucketsFit hosts') (hsub : hosts ⊆ hosts') :
    BucketsFit hosts := by
  intro i
  have hsub' : hosts.dedup.filter (hashOf · = i) ⊆ hosts'.dedup.filter (hashOf · = i) := by
    intro k hk
    simp only [List.mem_filter, List.mem_dedup] at hk ⊢
    exact ⟨hsub hk.1, hk.2⟩
  have hle := (((List.nodup_dedup hosts).filter (hashOf · = i)).subperm hsub').length_le
  exact hle.trans (h i)

/-- A bucket holds hosts of its hash that were set. -/
theorem contentsAfter_mem {calls : List (CString × Int)} : ∀ {i es},
    contentsAfter calls i = some es → ∀ p ∈ es, p.1 ∈ calls.map (·.1) ∧ hashOf p.1 = i := by
  induction calls using List.reverseRecOn with
  | nil =>
    intro i es hes p hp
    cases hes
    cases hp
  | append_singleton calls c ih =>
    intro i es hes p hp
    rw [List.map_append, List.mem_append]
    rw [contentsAfter_concat] at hes
    by_cases hi : i = hashOf c.1
    · subst hi
      simp only [Contents.set, Function.update_self, Option.bind_eq_some_iff] at hes
      obtain ⟨es₀, hes₀, hset⟩ := hes
      rw [pushPair_eq_some hset] at hp
      rcases mem_clearFront_concat hp with hp | rfl
      · exact ⟨.inl (ih hes₀ p hp).1, (ih hes₀ p hp).2⟩
      · exact ⟨.inr (by simp), rfl⟩
    · simp only [Contents.set, Function.update_of_ne hi] at hes
      exact ⟨.inl (ih hes p hp).1, (ih hes p hp).2⟩

/-- The queue of a host in the bucket that the last call changes. -/
theorem queueOf_clearFront_contentsAfter {calls : List (CString × Int)} {c : CString × Int}
    {es : List (CString × Int)} {k : CString} (hes : contentsAfter calls (hashOf c.1) = some es)
    (hk : hashOf k = hashOf c.1) :
    queueOf k (clearFront es c.1 ++ [(c.1, c.2)]) = levelQueue (queueOf k (calls ++ [c])) := by
  rw [queueOf_clearFront_concat, queueOf_contentsAfter (h := k) (by rw [hk, hes]), queueOf_append]
  split
  · next h =>
    subst h
    rw [show [c] = [(c.1, c.2)] from rfl, queueOf_cons_self, queueOf_nil, levelQueue_concat]
  · next h => rw [queueOf_cons_of_ne (Ne.symm h), queueOf_nil, List.append_nil]

/-- If no level `0` is in the way and the hosts fit, no bucket overflows. -/
theorem contentsAfter_isSome {calls : List (CString × Int)} (hzero : ZeroLevelsLast calls)
    (hfit : BucketsFit (calls.map (·.1))) : ∀ i, ∃ es, contentsAfter calls i = some es := by
  induction calls using List.reverseRecOn with
  | nil => exact fun i => ⟨[], rfl⟩
  | append_singleton calls c ih =>
    have hprev := ih (List.pairwise_append.1 hzero).1 (hfit.mono (by simp))
    intro i
    rw [contentsAfter_concat]
    obtain ⟨es, hes⟩ := hprev i
    by_cases hi : i = hashOf c.1
    · subst hi
      let es' := clearFront es c.1 ++ [(c.1, c.2)]
      have hmem : ∀ p ∈ es', p.1 ∈ (calls ++ [c]).map (·.1) ∧ hashOf p.1 = hashOf c.1 := by
        intro p hp
        rw [List.map_append, List.mem_append]
        rcases mem_clearFront_concat hp with hp | rfl
        · exact ⟨.inl (contentsAfter_mem hes p hp).1, (contentsAfter_mem hes p hp).2⟩
        · exact ⟨.inr (by simp), rfl⟩
      have hone : ∀ k, (queueOf k es').length ≤ 1 := by
        intro k
        by_cases hk : hashOf k = hashOf c.1
        · rw [queueOf_clearFront_contentsAfter hes hk,
            levelQueue_eq_last (zeroLevelsLast_iff.1 hzero k)]
          exact Option.length_toList_le
        · have hnone : queueOf k es' = [] :=
            queueOf_eq_nil_iff.2 fun p hp hpk => hk (by rw [← hpk, (hmem p hp).2])
          simp [hnone]
      have hlen := length_le_hosts hone (fun p hp => (hmem p hp).1) fun p hp => (hmem p hp).2
      have hlt : (clearFront es c.1).length < 2 ^ 15 := by
        have := hfit (hashOf c.1)
        simp only [es', List.length_append, List.length_singleton] at hlen
        omega
      have hset : setPair es c.1 c.2 = some es' := by
        rw [setPair, pushPair, if_pos hlt]
      exact ⟨es', by simp [Contents.set, hes, hset]⟩
    · exact ⟨es, by simp [Contents.set, hi, hes]⟩

/-- Conversely, where no bucket has overflowed and no host has two entries, no level `0` was in the
way and the hosts fit. -/
theorem fits_of_contentsAfter {calls : List (CString × Int)} {l : Fin 256 → List (CString × Int)}
    (hl : contentsAfter calls = fun i => some (l i)) (hlen : ∀ i, (l i).length ≤ 2 ^ 15)
    (hone : ∀ k, (queueOf k (l (hashOf k))).length ≤ 1) :
    ZeroLevelsLast calls ∧ BucketsFit (calls.map (·.1)) := by
  have hqueue : ∀ k, queueOf k (l (hashOf k)) = levelQueue (queueOf k calls) := fun k =>
    queueOf_contentsAfter (by rw [hl])
  have hpair : ∀ k, (queueOf k calls).Pairwise fun a _ => a ≠ 0 := fun k =>
    pairwise_of_levelQueue (by rw [← hqueue k]; exact hone k)
  refine ⟨zeroLevelsLast_iff.2 hpair, fun i => ?_⟩
  have hsub : (calls.map (·.1)).dedup.filter (hashOf · = i) ⊆ (l i).map (·.1) := by
    intro k hk
    simp only [List.mem_filter, List.mem_dedup, decide_eq_true_eq] at hk
    obtain ⟨hk, rfl⟩ := hk
    obtain ⟨c, hc, rfl⟩ := List.mem_map.1 hk
    have hne : queueOf c.1 calls ≠ [] := fun h => queueOf_eq_nil_iff.1 h c hc rfl
    have hne' : queueOf c.1 (l (hashOf c.1)) ≠ [] := by
      rw [hqueue, levelQueue_eq_last (hpair c.1), List.getLast?_eq_some_getLast hne]
      exact List.cons_ne_nil _ _
    obtain ⟨pre, v, post, heq, -⟩ := exists_first_pair hne'
    rw [heq]
    simp
  have hle := (((List.nodup_dedup _).filter _).subperm hsub).length_le
  rw [List.length_map] at hle
  exact hle.trans (hlen i)

/-! ## The entries of the map -/

/-- The entries of all buckets. -/
def Hashmap.entries (m : Hashmap) : List HashmapEntry :=
  (List.finRange 256).flatMap fun i =>
    (List.range (m.buckets i).vlen).filterMap (m.buckets i).values.read

/-- The number of entries with a key. -/
def Hashmap.keyCount (m : Hashmap) (key : CString) : Nat :=
  m.entries.countP (·.key = some key)

/-- A map that has not overflowed has as many entries with a key as the key's queue is long. -/
theorem Hashmap.Rep.keyCount {m : Hashmap} {l : Fin 256 → List (CString × Int)}
    (h : m.Rep fun i => some (l i)) (key : CString) :
    m.keyCount key = (queueOf key (l (hashOf key))).length := by
  have hbucket : ∀ i, (List.range (m.buckets i).vlen).filterMap (m.buckets i).values.read =
      (l i).map fun p => ⟨some p.1, p.2⟩ := by
    intro i
    have hb := h.holds (i := i) rfl
    have hcells : (List.range (m.buckets i).vlen).map (m.buckets i).values.read =
        (l i).map cellOf := by
      apply List.ext_getElem
      · simp [hb.vlen_eq]
      · intro j _ hj
        simpa [cellOf] using hb.read (i := j) (by simpa using hj)
    rw [← Function.id_comp (m.buckets i).values.read, ← List.filterMap_map, hcells,
      List.filterMap_map]
    exact congrFun List.filterMap_eq_map _
  have hentries : m.entries =
      ((List.finRange 256).flatMap l).map fun p => ⟨some p.1, p.2⟩ := by
    rw [Hashmap.entries, List.map_flatMap]
    exact congrArg (List.flatMap · _) (funext hbucket)
  have hqueue : queueOf key (l (hashOf key)) = queueOf key ((List.finRange 256).flatMap l) :=
    (h.enumerates key).symm
  rw [Hashmap.keyCount, hentries, List.countP_map, hqueue, length_queueOf]
  congr 1
  funext p
  simp

/-! ## The condition -/

/-- No bucket has overflowed where every host has a value: each bucket is that of some host. -/
theorem Hashmap.Rep.isSome_of_get {m : Hashmap} {q : Contents} (h : m.Rep q)
    (hget : ∀ k, ∃ v, hashmapGet m k = some v) (i : Fin 256) : ∃ es, q i = some es := by
  obtain ⟨k, -, hk⟩ := exists_crc8Block_eq i.isLt
  obtain rfl : hashOf k = i := Fin.ext hk
  obtain ⟨v, hv⟩ := hget k
  refine Option.ne_none_iff_exists'.1 fun hnone => ?_
  rw [h.get_overflowed hnone] at hv
  cases hv

/-- Over a sequence of calls from the map of `permissions_init`, every call takes effect (each host
has the level of its last call and no second entry) exactly if no call with level `0` is followed by
another call on its host and the hosts fit into the buckets. -/
theorem permissionsSets_take_effect_iff (ownerHost : Option CString)
    (calls : List (CString × Int)) :
    ∃ s₀, permissionsInit true .ok ownerHost = some s₀ ∧
      ((∃ s, permissionsSets calls s₀ = (.returned (), s) ∧
          ∀ h, hashmapGet s.permMap h = some (lastLevel h (initialCalls ownerHost ++ calls)) ∧
            s.permMap.keyCount h ≤ 1) ↔
        ZeroLevelsLast calls ∧ BucketsFit ((initialCalls ownerHost ++ calls).map (·.1))) := by
  obtain ⟨s₀, hinit, hfree, hrep⟩ := permissionsInit_rep ownerHost
  refine ⟨s₀, hinit, ?_⟩
  have hafter : Contents.sets (Contents.sets (fun _ => some []) (initialCalls ownerHost)) calls =
      contentsAfter (initialCalls ownerHost ++ calls) := by
    simp [contentsAfter, Contents.sets]
  have hrun := permissionsSets_eq calls hrep hfree
  rw [hafter] at hrun
  rw [← zeroLevelsLast_initialCalls ownerHost]
  generalize initialCalls ownerHost ++ calls = all at hrun
  constructor
  · rintro ⟨s, hs, heffect⟩
    rcases hrun with ⟨m, hm, hrep'⟩ | ⟨hundef, -⟩
    · obtain rfl : { s₀ with permMap := m } = s := by
        rw [hm] at hs
        exact congrArg Prod.snd hs
      choose l hl using hrep'.isSome_of_get fun k => ⟨_, (heffect k).1⟩
      have hl := funext hl
      rw [hl] at hrep'
      refine fits_of_contentsAfter hl (fun i => (hrep'.holds rfl).length_le) fun k => ?_
      rw [← hrep'.keyCount]
      exact (heffect k).2
    · rw [hs] at hundef
      cases hundef
  · rintro ⟨hzero, hfit⟩
    have hsome := contentsAfter_isSome hzero hfit
    rcases hrun with ⟨m, hm, hrep'⟩ | ⟨-, i, hi⟩
    · choose l hl using hsome
      have hl := funext hl
      rw [hl] at hrep'
      refine ⟨_, hm, fun h => ?_⟩
      have hqueue : queueOf h (l (hashOf h)) = (queueOf h all).getLast?.toList := by
        rw [queueOf_contentsAfter (congrFun hl (hashOf h)),
          levelQueue_eq_last (zeroLevelsLast_iff.1 hzero h)]
      constructor
      · rw [hrep'.get rfl, hqueue, lastLevel, List.getLastD_eq_getLast?]
        cases (queueOf h all).getLast? <;> rfl
      · rw [hrep'.keyCount, hqueue]
        exact Option.length_toList_le
    · obtain ⟨es, hes⟩ := hsome i
      rw [hi] at hes
      cases hes

/-- A host set to level `0` and then to level `5` stays at `0`, and has two entries. -/
theorem permissionsSets_zero_sticks :
    ∃ s₀, permissionsInit true .ok none = some s₀ ∧
      let ann := CString.lit "ann"
      let r := permissionsSets [(ann, 0), (ann, 5)] s₀
      r.1 = .returned () ∧ hashmapGet r.2.permMap ann = some 0 ∧ r.2.permMap.keyCount ann = 2 ∧
        lastLevel ann [(ann, 0), (ann, 5)] = 5 := by
  refine ⟨_, rfl, ?_⟩
  decide +kernel

end MinervaBot
