import MinervaBot.Permissions

/-!
# The lookup of a host's level

`permissions_get` rewrites its candidate in place, moving the `*` and the terminator left. The loop
invariant is that `pbuf` holds the current candidate and still starts with the bytes of the host
that the candidates to come are made of; `permissionsGet_eq` reads the call as a fall-through lookup
along `candidates`.
-/

namespace MinervaBot

open Lib

/-- The candidates after the host itself, for `len + 1` as the argument: the first `len` bytes of
the host followed by `*`, and so on down to `*` alone. -/
def wildcards (host : CString) : Nat → List CString
  | 0 => []
  | len + 1 => (host.take len ++ star) :: wildcards host len

/-- What `permissions_get` looks up, in this order: the host, the host followed by `*`, and for
`k` from the length of the host less one down to `0` its first `k` bytes followed by `*`. -/
def candidates (host : CString) : List CString :=
  host :: (host ++ star) :: (List.range host.length).reverse.map fun k => host.take k ++ star

/-- The wildcards of the first bytes, longest first. -/
theorem wildcards_eq (host : CString) (n : Nat) :
    wildcards host n = (List.range n).reverse.map fun k => host.take k ++ star := by
  induction n with
  | zero => rfl
  | succ n ih => simp [wildcards, ih, List.range_succ]

/-- The loop of `permissions_get` goes through the candidates. -/
theorem candidates_eq (host : CString) :
    candidates host = host :: wildcards host (host.length + 1) := by
  have hfull : host.take host.length = host := CString.ext (by simp [CString.length])
  rw [candidates, wildcards, wildcards_eq, hfull]

/-- The bytes of `*`. -/
theorem bytes_star : star.bytes = [42] := by decide

/-- The candidate in `pbuf` is looked up. -/
theorem permMapGetPbuf_eq {s : PermState} {c : CString}
    (hc : s.pbuf.HasBytes 0 (c.bytes ++ [0])) (hlen : c.length < 130) :
    permMapGetPbuf s = (.ofOption (hashmapGet s.permMap c), s) := by
  have hread : s.pbuf.cstr 0 130 = c := Mem.cstr_eq hc hlen
  show (Exec.get >>= fun s => permMapGet (s.pbuf.cstr 0 130)) s = _
  rw [Exec.bind_returned (Exec.get_apply s), hread]
  rfl

/-- The loop writes the next candidate over the bytes from index `n` on, and leaves the first `n`
bytes of the host before it. -/
theorem nextCandidate_hasBytes {host : CString} {pbuf : Mem} {n : Nat} (hn : n ≤ host.length)
    (htake : pbuf.HasBytes 0 (host.take (n + 1)).bytes) :
    ((pbuf.write n 42).write (n + 1) 0).HasBytes 0 ((host.take n ++ star).bytes ++ [0]) ∧
      ((pbuf.write n 42).write (n + 1) 0).HasBytes 0 (host.take n).bytes := by
  have hlen : (host.take n).bytes.length = n := by
    simp only [CString.length] at hn
    rw [CString.bytes_take, List.length_take]
    omega
  have hpre : pbuf.HasBytes 0 (host.take n).bytes := by
    have hpre := htake.take n
    simpa [List.take_take] using hpre
  have hnul := (hpre.snoc 42).snoc 0
  simp only [List.length_append, List.length_singleton, hlen, Int.zero_add, Int.natCast_add,
    Int.cast_ofNat_Int] at hnul
  exact ⟨by simpa [bytes_star] using hnul, hpre.write 42 (by omega) |>.write 0 (by omega)⟩

/-- The loop of `permissions_get` looks up the candidate in `pbuf` and then the wildcards to come.
Induction on `len + 1`; `pbuf` keeps the bytes of the host before index `len + 1`. -/
theorem permissionsGetLoop_eq {host : CString} (hhost : host.length ≤ 128) :
    ∀ (n : Nat) {s : PermState} {c : CString}, n ≤ host.length + 1 →
      s.pbuf.HasBytes 0 (c.bytes ++ [0]) → c.length < 130 →
      s.pbuf.HasBytes 0 (host.take n).bytes →
      ∃ pbuf pbufWrites, permissionsGetLoop n s =
        (.ofOption (firstNonzero (hashmapGet s.permMap) (c :: wildcards host n)),
          { s with pbuf, pbufWrites }) := by
  intro n
  induction n with
  | zero =>
    intro s c _ hc hclen _
    refine ⟨s.pbuf, s.pbufWrites, ?_⟩
    rw [permissionsGetLoop, permMapGetPbuf_eq hc hclen]
    cases hget : hashmapGet s.permMap c with
    | none => simp [firstNonzero, hget]
    | some v => by_cases hv : v = 0 <;> simp [firstNonzero, wildcards, hget, hv]
  | succ n ih =>
    intro s c hn hc hclen htake
    have hget := permMapGetPbuf_eq hc hclen
    cases hval : hashmapGet s.permMap c with
    | none =>
      rw [hval] at hget
      refine ⟨s.pbuf, s.pbufWrites, ?_⟩
      rw [permissionsGetLoop, Exec.bind_undefined hget]
      simp [firstNonzero, hval, Outcome.ofOption]
    | some v =>
      rw [hval] at hget
      by_cases hv : v = 0
      · subst hv
        obtain ⟨hnext, hpre⟩ := nextCandidate_hasBytes (show n ≤ host.length by omega) htake
        let s' : PermState :=
          { s with
            pbuf := (s.pbuf.write n 42).write (n + 1) 0
            pbufWrites := s.pbufWrites ++ [(n : Int)] ++ [(n : Int) + 1] }
        obtain ⟨pbuf, pbufWrites, hloop⟩ := ih (s := s') (c := host.take n ++ star) (by omega) hnext
          (by simp [CString.length, bytes_star]; omega) hpre
        refine ⟨pbuf, pbufWrites, ?_⟩
        have hstep : permissionsGetLoop (n + 1) s = permissionsGetLoop n s' := by
          rw [permissionsGetLoop, Exec.bind_returned hget]
          rfl
        rw [hstep, hloop]
        simp [firstNonzero, hval, wildcards, s']
      · refine ⟨s.pbuf, s.pbufWrites, ?_⟩
        rw [permissionsGetLoop, Exec.bind_returned hget]
        simp [firstNonzero, hval, hv, Outcome.ofOption]

/-! ## The call -/

/-- A free mutex is taken. -/
theorem permissionsLock_free {s : PermState} (h : s.locked = false) :
    permissionsLock s = (.returned (), { s with locked := true }) := by
  rw [permissionsLock, Exec.bind_returned (Exec.get_apply s), h]
  rfl

/-- A taken mutex blocks. -/
theorem permissionsLock_taken {s : PermState} (h : s.locked = true) :
    permissionsLock s = (.blocked, s) := by
  rw [permissionsLock, Exec.bind_returned (Exec.get_apply s), h]
  rfl

/-- `permissions_get` with the mutex taken blocks. -/
theorem permissionsGet_taken {s : PermState} (h : s.locked = true) (host : Option CString) :
    permissionsGet host s = (.blocked, s) :=
  Exec.bind_blocked (permissionsLock_taken h) _

/-- `permissions_get(NULL)` faults in `strlen` with the mutex taken. -/
theorem permissionsGet_null {s : PermState} (h : s.locked = false) :
    permissionsGet none s = (.segv, { s with locked := true }) :=
  Exec.bind_returned (permissionsLock_free h) _

/-- A host of more than 128 bytes gets level `0`, and the mutex stays taken. -/
theorem permissionsGet_long {s : PermState} (h : s.locked = false) {host : CString}
    (hlen : 128 < host.length) :
    permissionsGet (some host) s = (.returned 0, { s with locked := true }) := by
  rw [permissionsGet, Exec.bind_returned (permissionsLock_free h)]
  simp only [gt_iff_lt, if_pos hlen]
  rfl

/-- A host of at most 128 bytes is looked up along its candidates; the mutex is released unless a
lookup is undefined. -/
theorem permissionsGet_eq {s : PermState} (h : s.locked = false) {host : CString}
    (hlen : host.length ≤ 128) :
    ∃ pbuf pbufWrites, permissionsGet (some host) s =
      (.ofOption (firstNonzero (hashmapGet s.permMap) (candidates host)),
        { s with
          locked := (firstNonzero (hashmapGet s.permMap) (candidates host)).isNone
          pbuf, pbufWrites }) := by
  let s' : PermState :=
    { s with
      locked := true
      pbuf := s.pbuf.copy 0 (host.bytes ++ [0])
      pbufWrites := s.pbufWrites ++
        (List.range (host.bytes ++ [0]).length).map fun (i : Nat) => (i : Int) }
  have hcopy : s'.pbuf.HasBytes 0 (host.bytes ++ [0]) := Mem.copy_hasBytes _ _ _
  have hpre : s'.pbuf.HasBytes 0 (host.take (host.length + 1)).bytes := by
    have hbytes := hcopy.take host.length
    rw [CString.length, List.take_left] at hbytes
    rwa [CString.bytes_take, List.take_of_length_le (by simp [CString.length])]
  obtain ⟨pbuf, pbufWrites, hloop⟩ :=
    permissionsGetLoop_eq hlen (host.length + 1) (Nat.le_refl _) hcopy (by omega) hpre
  rw [← candidates_eq] at hloop
  refine ⟨pbuf, pbufWrites, ?_⟩
  rw [permissionsGet, Exec.bind_returned (permissionsLock_free h)]
  simp only [gt_iff_lt, if_neg (Nat.not_lt.2 hlen)]
  show (permissionsGetLoop (host.length + 1) >>= _) s' = _
  cases hval : firstNonzero (hashmapGet s.permMap) (candidates host) with
  | none => rw [hval] at hloop; exact Exec.bind_undefined hloop _
  | some v => rw [hval] at hloop; exact Exec.bind_returned hloop _

end MinervaBot
