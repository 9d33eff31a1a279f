import MinervaBot.PermissionsGet

/-!
# What the lookup writes

`permissions_get` copies a host of `len` bytes with its terminator to `pbuf`, so it writes the
indices up to `len`; the first pass of its loop writes `len` and `len + 1`, and the later ones write
lower indices. The check `len > 128` lets hosts of 127 and 128 bytes through, which reach behind the
128 bytes of `pbuf` (`writesWithinPbuf_iff`).
-/

namespace MinervaBot

open Lib Exec

/-- Every index written so far is an index of `pbuf[128]`. -/
def PermState.WritesWithinPbuf (s : PermState) : Prop :=
  ∀ i ∈ s.pbufWrites, 0 ≤ i ∧ i ≤ 127

section
variable {P : PermState → Prop} {s : PermState} {host : CString}

/-- The loop keeps what its writes keep. -/
theorem permissionsGetLoop_preserves : ∀ {n : Nat},
    (∀ (i : Int) c, 0 ≤ i → i ≤ n → Preserves P (pbufWrite i c)) →
      Preserves P (permissionsGetLoop n)
  | 0, _ => fun _ hs => hs
  | n + 1, hwrite => by
    refine Preserves.bind (fun _ hs => hs) fun perm => ?_
    split
    · exact Preserves.pure _
    · refine Preserves.bind (hwrite n 42 (by omega) (by omega)) fun _ => ?_
      refine Preserves.bind (hwrite (n + 1) 0 (by omega) (by omega)) fun _ => ?_
      exact permissionsGetLoop_preserves fun i c h0 hi => hwrite i c h0 (by omega)

/-- The loop writes indices up to its argument. -/
theorem permissionsGetLoop_within {n : Nat} (hn : n ≤ 127) :
    Preserves PermState.WritesWithinPbuf (permissionsGetLoop n) := by
  refine permissionsGetLoop_preserves fun i c h0 hi s hs j hj => ?_
  rcases List.mem_append.1 hj with hj | hj
  · exact hs j hj
  · obtain rfl := List.mem_singleton.1 hj
    omega

/-- The loop takes no write back. -/
theorem permissionsGetLoop_mem (i : Int) (n : Nat) :
    Preserves (fun s => i ∈ s.pbufWrites) (permissionsGetLoop n) :=
  permissionsGetLoop_preserves fun _ _ _ _ _ hs => List.mem_append_left _ hs

/-- The loop ends at once if the first candidate has a level, or its lookup is undefined. -/
theorem permissionsGetLoop_found {n : Nat} (hget : hashmapGet s.permMap (s.pbuf.cstr 0 130) ≠ some 0) :
    (permissionsGetLoop (n + 1) s).2 = s := by
  have hlookup : permMapGetPbuf s = (.ofOption (hashmapGet s.permMap (s.pbuf.cstr 0 130)), s) := rfl
  cases hval : hashmapGet s.permMap (s.pbuf.cstr 0 130) with
  | none =>
    rw [hval] at hlookup
    rw [permissionsGetLoop, Exec.bind_undefined hlookup]
  | some v =>
    have hv : v ≠ 0 := fun h0 => hget (by rw [hval, h0])
    rw [hval] at hlookup
    rw [permissionsGetLoop, Exec.bind_returned hlookup, if_pos hv]
    rfl

/-- The first pass writes `*` and the terminator behind it if the first candidate has no level. -/
theorem permissionsGetLoop_missed {n : Nat} (hget : hashmapGet s.permMap (s.pbuf.cstr 0 130) = some 0) :
    (n : Int) + 1 ∈ (permissionsGetLoop (n + 1) s).2.pbufWrites := by
  have hlookup : permMapGetPbuf s = (.returned 0, s) := by
    show (Outcome.ofOption (hashmapGet s.permMap (s.pbuf.cstr 0 130)), s) = _
    rw [hget]
    rfl
  rw [permissionsGetLoop, Exec.bind_returned hlookup, if_neg (not_not.2 rfl)]
  refine permissionsGetLoop_mem _ n _ ?_
  exact List.mem_append_right _ (List.mem_singleton_self _)

/-- The variables after the copy of a host. -/
def PermState.copied (s : PermState) (host : CString) : PermState :=
  { s with
    locked := true
    pbuf := s.pbuf.copy 0 (host.bytes ++ [0])
    pbufWrites := s.pbufWrites ++
      (List.range (host.bytes ++ [0]).length).map fun (i : Nat) => (i : Int) }

/-- The candidate in the buffer after the copy is the host. -/
theorem copied_cstr (s : PermState) (hlen : host.length ≤ 128) :
    (s.copied host).pbuf.cstr 0 130 = host :=
  Mem.cstr_eq (Mem.copy_hasBytes _ _ _) (by omega)

/-- The copy writes the indices up to the length of the host. -/
theorem mem_copied_writes {i : Int} (hwrites : s.pbufWrites = []) :
    i ∈ (s.copied host).pbufWrites ↔ 0 ≤ i ∧ i ≤ host.length := by
  simp only [PermState.copied, hwrites, List.nil_append, List.mem_map, List.mem_range,
    List.length_append, List.length_singleton, CString.length]
  constructor
  · rintro ⟨j, hj, rfl⟩
    omega
  · rintro ⟨h0, hi⟩
    exact ⟨i.toNat, by omega, by omega⟩

/-- A call with the mutex free writes what the copy and the loop write. -/
theorem permissionsGet_writes (hfree : s.locked = false) (hlen : host.length ≤ 128) :
    (permissionsGet (some host) s).2.pbufWrites =
      (permissionsGetLoop (host.length + 1) (s.copied host)).2.pbufWrites := by
  rw [permissionsGet, Exec.bind_returned (permissionsLock_free hfree)]
  simp only [gt_iff_lt, if_neg (Nat.not_lt.2 hlen)]
  show ((permissionsGetLoop (host.length + 1) >>= _) (s.copied host)).2.pbufWrites = _
  rcases hloop : permissionsGetLoop (host.length + 1) (s.copied host) with ⟨_ | _ | _ | _, s'⟩
  · rw [Exec.bind_returned hloop]
    rfl
  · rw [Exec.bind_segv hloop]
  · rw [Exec.bind_undefined hloop]
  · rw [Exec.bind_blocked hloop]

/-- For a host of at most 128 bytes and a free mutex, `permissions_get` writes only to the 128 bytes
of `pbuf` if and only if the host has at most 126 bytes, or has 127 and its first lookup ends the
loop. -/
theorem writesWithinPbuf_iff (m : Hashmap) (pbuf : Mem) (hlen : host.length ≤ 128) :
    (permissionsGet (some host) ⟨m, false, pbuf, []⟩).2.WritesWithinPbuf ↔
      host.length ≤ 126 ∨ host.length = 127 ∧ hashmapGet m host ≠ some 0 := by
  let s : PermState := ⟨m, false, pbuf, []⟩
  have hcstr := copied_cstr s hlen
  have hcopied : ∀ {i : Int}, i ∈ (s.copied host).pbufWrites ↔ 0 ≤ i ∧ i ≤ host.length :=
    mem_copied_writes rfl
  have hwrites := permissionsGet_writes (s := s) rfl hlen
  rw [PermState.WritesWithinPbuf, hwrites]
  constructor
  · intro hin
    have hle : host.length ≤ 127 := by
      have hlast := hin host.length
        (permissionsGetLoop_mem _ _ _ (hcopied.2 ⟨by omega, Int.le_refl _⟩))
      omega
    by_cases h126 : host.length ≤ 126
    · exact .inl h126
    · refine .inr ⟨by omega, fun hget => ?_⟩
      have hmiss := hin (host.length + 1)
        (permissionsGetLoop_missed (by rw [hcstr]; exact hget))
      omega
  · rintro (h126 | ⟨h127, hget⟩)
    · refine permissionsGetLoop_within (by omega) _ fun i hi => ?_
      have hi' := hcopied.1 hi
      omega
    · rw [permissionsGetLoop_found (by rw [hcstr]; exact hget)]
      intro i hi
      have hi' := hcopied.1 hi
      omega

/-- The host `ann` and a new map. -/
theorem writesWithinPbuf_iff_ann : ∃ m, hashmapNew true = some m ∧
    (permissionsGet (some (CString.lit "ann")) ⟨m, false, fun _ => 0, []⟩).2.WritesWithinPbuf :=
  ⟨_, rfl, (writesWithinPbuf_iff _ _ (by decide)).2 (.inl (by decide))⟩

/-- A host of 128 times `a`: the copy of its terminator is already behind `pbuf`. -/
theorem not_writesWithinPbuf : ∃ m host, hashmapNew true = some m ∧ host.length = 128 ∧
    (128 : Int) ∈ (permissionsGet (some host) ⟨m, false, fun _ => 0, []⟩).2.pbufWrites := by
  obtain ⟨host, hhost⟩ : ∃ host : CString, host.length = 128 :=
    ⟨⟨List.replicate 128 97, by simp⟩, by simp [CString.length]⟩
  refine ⟨_, host, rfl, hhost, ?_⟩
  rw [permissionsGet_writes rfl (by omega)]
  refine permissionsGetLoop_mem _ _ _ ((mem_copied_writes rfl).2 ?_)
  omega

end

end MinervaBot
