import MinervaBot.PermissionsGet

/-!
# The entries of the permissions

What `hashmap_put`, `hashmap_remove` and the `realloc` between them do to the cells of a block, read
as a set: nothing but the entry that is put ever comes in (`Hashmap.All`). So what is true of every
entry put is true of every level that `permissions_get` returns (`permissionsGet_all`), whatever the
allocations return and whether buckets overflow.
-/

namespace MinervaBot

open Lib

/-! ## The entries of a map -/

/-- Every entry in the block satisfies `P`, whether `vlen` counts it or not. -/
def Values.All (P : CString → Int → Prop) (values : Values) : Prop :=
  ∀ cells, values = .block cells → ∀ k v, some ⟨some k, v⟩ ∈ cells → P k v

/-- Every entry in a block of the map satisfies `P`. -/
def Hashmap.All (P : CString → Int → Prop) (m : Hashmap) : Prop :=
  ∀ i, (m.buckets i).values.All P

section
variable {P Q : CString → Int → Prop} {m m' : Hashmap} {values values' : Values} {key : CString}
  {value : Int}

theorem Values.All.mono (h : values.All P) (hPQ : ∀ k v, P k v → Q k v) : values.All Q :=
  fun cells hcells k v hmem => hPQ k v (h cells hcells k v hmem)

theorem Hashmap.All.mono (h : m.All P) (hPQ : ∀ k v, P k v → Q k v) : m.All Q :=
  fun i => (h i).mono hPQ

/-- An entry that is read is in the block. -/
theorem Values.All.read (h : values.All P) {i : Nat} (hread : values.read i = some ⟨some key, value⟩) :
    P key value := by
  cases values with
  | null | freed => cases hread
  | block cells => exact h cells rfl key value (List.mem_of_getElem? (Option.join_eq_some_iff.1 hread))

/-- The search ends at an entry with the key. -/
theorem hashmapFind_read : ∀ {n i j : Nat}, hashmapFind values key n i = some (some j) →
    ∃ v, values.read j = some ⟨some key, v⟩
  | 0, i, j, h => by cases h
  | n + 1, i, j, h => by
    unfold hashmapFind at h
    split at h
    · next k v hread =>
      split at h
      · next hk =>
        cases h
        subst hk
        exact ⟨v, hread⟩
      · exact hashmapFind_read h
    · cases h

/-- A value that `hashmap_get` returns is `0` or that of an entry. -/
theorem Hashmap.All.get (h : m.All P) (hget : hashmapGet m key = some value) :
    value = 0 ∨ P key value := by
  unfold hashmapGet at hget
  dsimp only at hget
  split at hget
  · cases hget
  · cases hget
    exact .inl rfl
  · next j hfind =>
    obtain ⟨v, hread⟩ := hashmapFind_read hfind
    rw [hread] at hget
    cases hget
    exact .inr ((h _).read hread)

/-- Another bucket with entries of the same kind. -/
theorem Hashmap.All.setBucket (h : m.All P) {i : Fin 256} {hel : HashmapEntryList}
    (hhel : hel.values.All P) : (m.setBucket i hel).All P := by
  intro j
  show (Function.update m.buckets i hel j).values.All P
  by_cases hj : j = i
  · rw [hj, Function.update_self]
    exact hhel
  · rw [Function.update_of_ne hj]
    exact h j

/-- What `realloc` returns holds what was in the block before. -/
theorem Values.All.realloc (h : values.All P) {ok : Bool} {n : Nat}
    {r : Option (List (Option HashmapEntry))} (hr : reallocValues ok values n = some (values', r)) :
    values'.All P ∧ ∀ cells, r = some cells → (Values.block cells).All P := by
  cases values with
  | freed => cases hr
  | null =>
    cases ok <;> cases hr
    · exact ⟨h, nofun⟩
    · refine ⟨h, ?_⟩
      rintro cells ⟨⟩ cells' ⟨⟩ k v hmem
      cases List.eq_of_mem_replicate hmem
  | block cells =>
    simp only [reallocValues] at hr
    split at hr
    · cases hr
      exact ⟨nofun, nofun⟩
    · split at hr
      · cases hr
        refine ⟨nofun, ?_⟩
        rintro cells' ⟨⟩ cells'' ⟨⟩ k v hmem
        rcases List.mem_append.1 hmem with hmem | hmem
        · exact h cells rfl k v (List.mem_of_mem_take hmem)
        · cases List.eq_of_mem_replicate hmem
      · cases hr
        exact ⟨h, nofun⟩

/-- The end of `hashmap_put` stores its entry. -/
theorem Hashmap.All.fillLast (h : m.All P) {alloc : Alloc} {i : Fin 256} {hel : HashmapEntryList}
    (hhel : hel.values.All P) (hnew : P key value)
    (hfill : hashmapFillLast alloc m i hel key value = some m') : m'.All P := by
  unfold hashmapFillLast at hfill
  split at hfill
  · next cells hcells =>
    split at hfill
    · cases hfill
      refine h.setBucket (i := i) ?_
      rintro cells' ⟨⟩ k v hmem
      rcases List.mem_or_eq_of_mem_set hmem with hmem | hmem
      · exact hhel cells hcells k v hmem
      · obtain ⟨hk, rfl⟩ := HashmapEntry.mk.inj (Option.some.inj hmem)
        split at hk
        · cases hk
          exact hnew
        · cases hk
    · cases hfill
  · cases hfill
  · cases hfill

/-- `hashmap_put` adds its entry only. -/
theorem Hashmap.All.put (h : m.All P) {alloc : Alloc} (hnew : P key value)
    (hput : hashmapPut alloc m key value = some m') : m'.All P := by
  unfold hashmapPut at hput
  dsimp only at hput
  split at hput
  · split at hput
    · cases hput
    · next hrealloc =>
      cases hput
      exact h.setBucket ((h _).realloc hrealloc).1
    · next hrealloc => exact h.fillLast (((h _).realloc hrealloc).2 _ rfl) hnew hput
  · refine h.fillLast ?_ hnew hput
    exact h _

/-- `hashmap_remove` adds no entry. -/
theorem Hashmap.All.remove (h : m.All P) {r : Int} (hremove : hashmapRemove m key = some (r, m')) :
    m'.All P := by
  unfold hashmapRemove at hremove
  dsimp only at hremove
  split at hremove
  · cases hremove
  · cases hremove
    exact h
  · split at hremove
    · next hmove =>
      cases hremove
      refine h.setBucket ?_
      unfold Values.moveDown at hmove
      split at hmove
      · next cells hcells =>
        split at hmove
        · cases hmove
          rintro cells' ⟨⟩ k v hmem
          obtain ⟨j, hj, hcell⟩ := List.mem_mapIdx.1 hmem
          split at hcell
          · exact h _ cells hcells k v (List.mem_of_getElem? (Option.join_eq_some_iff.1 hcell))
          · exact h _ cells hcells k v (hcell ▸ List.getElem_mem hj)
        · cases hmove
      · cases hmove
      · cases hmove
    · cases hremove

end

/-! ## The calls of the permissions -/

section
variable {P : CString → Int → Prop}

/-- `permissions_set` adds its level only, however it ends. -/
theorem permissionsSet_all {host : CString} {level : Int} (alloc : Alloc) (hnew : P host level) :
    Exec.Preserves (fun s => s.permMap.All P) (permissionsSet alloc host level) := by
  have hlock : Exec.Preserves (fun s => s.permMap.All P) permissionsLock := by
    intro s hs
    unfold permissionsLock
    rw [Exec.bind_returned (Exec.get_apply s)]
    split
    · exact hs
    · exact hs
  have hget : Exec.Preserves (fun s => s.permMap.All P) (permMapGet host) :=
    Exec.Preserves.bind (fun _ hs => hs) fun _ => .ofOption _
  have hremove : Exec.Preserves (fun s => s.permMap.All P) (permMapRemove host) := by
    intro s hs
    rw [permMapRemove, Exec.bind_returned (Exec.get_apply s)]
    cases hr : hashmapRemove s.permMap host with
    | none => exact hs
    | some r => exact hs.remove (r := r.1) hr
  have hput : Exec.Preserves (fun s => s.permMap.All P) (permMapPut alloc host level) := by
    intro s hs
    rw [permMapPut, Exec.bind_returned (Exec.get_apply s)]
    cases hr : hashmapPut alloc s.permMap host level with
    | none => exact hs
    | some m => exact hs.put hnew hr
  have hunlock : Exec.Preserves (fun s => s.permMap.All P) permissionsUnlock :=
    .modify fun _ hs => hs
  refine hlock.bind fun _ => hget.bind fun perm => ?_
  split
  · exact hremove.bind fun _ => hput.bind fun _ => hunlock
  · exact hput.bind fun _ => hunlock

/-- `permissions_get` leaves the map. -/
theorem permissionsGet_permMap (host : Option CString) (s : PermState) :
    (permissionsGet host s).2.permMap = s.permMap := by
  cases hlocked : s.locked with
  | true => rw [permissionsGet_taken hlocked]
  | false =>
    cases host with
    | none => rw [permissionsGet_null hlocked]
    | some host =>
      by_cases hlen : 128 < host.length
      · rw [permissionsGet_long hlocked hlen]
      · obtain ⟨pbuf, pbufWrites, hget⟩ := permissionsGet_eq hlocked (Nat.not_lt.1 hlen)
        rw [hget]

/-- A level that `permissions_get` returns is `0` or stored for a candidate of the host. -/
theorem permissionsGet_all {host : Option CString} {s s' : PermState} {level : Int}
    (h : s.permMap.All P) (hget : permissionsGet host s = (.returned level, s')) :
    level = 0 ∨ ∃ name, host = some name ∧ ∃ k ∈ candidates name, P k level := by
  cases hlocked : s.locked with
  | true =>
    rw [permissionsGet_taken hlocked] at hget
    cases hget
  | false =>
    cases host with
    | none =>
      rw [permissionsGet_null hlocked] at hget
      cases hget
    | some host =>
      by_cases hlen : 128 < host.length
      · rw [permissionsGet_long hlocked hlen] at hget
        cases hget
        exact .inl rfl
      · obtain ⟨pbuf, pbufWrites, heq⟩ := permissionsGet_eq hlocked (Nat.not_lt.1 hlen)
        rw [heq] at hget
        cases hvalue : firstNonzero (hashmapGet s.permMap) (candidates host) with
        | none =>
          rw [hvalue] at hget
          cases hget
        | some v =>
          rw [hvalue] at hget
          cases hget
          rcases firstNonzero_eq_some hvalue with hzero | ⟨k, hk, hv⟩
          · exact .inl hzero
          · exact (h.get hv).imp_right fun hP => ⟨host, rfl, k, hk, hP⟩

end

end MinervaBot
