import MinervaBot.IrcActions

/-!
# The indices that `irc_loop` accesses

The functions here go through the loop as those of `Irc.lean` do and list the indices of `buf` and
`nickbuf` that are read or written, by the loop itself and by the functions it hands a pointer to
(`printf`, `strncmp`, `strchr`, `memcpy`, `_net_raws` and `modules_check_cmd`). Both arrays have 513
bytes. The loop puts the terminator of a line that fills `buf` behind the array, and after such a
line that of an LF before it; in any other stream it stays inside (`ircLoop_inBounds_iff`).
-/

namespace MinervaBot

open Lib

/-- The two arrays. -/
inductive IrcArray where
  | buf
  | nickbuf
  deriving DecidableEq

/-- An access: the array and the index. -/
structure Access where
  array : IrcArray
  index : Int
  deriving DecidableEq

/-- The index is one of the 513 of the array. -/
def Access.InBounds (a : Access) : Prop :=
  0 ≤ a.index ∧ a.index ≤ 512

instance (a : Access) : Decidable a.InBounds :=
  inferInstanceAs (Decidable (_ ∧ _))

/-- The indices from `p` on of `n` bytes. -/
def rangeAccesses (array : IrcArray) (p : Int) (n : Nat) : List Access :=
  (List.range n).map fun i => ⟨array, p + (i : Nat)⟩

/-- A string of `buf` is read with its terminator. -/
def stringAccesses (buf : Mem) (p : Int) : List Access :=
  rangeAccesses .buf p ((bufStr buf p).length + 1)

/-- `strncmp` with a literal of the given length reads up to the first difference. -/
def strncmpAccesses (buf : Mem) : (p : Int) → (s : List UInt8) → List Access
  | _, [] => []
  | p, c :: s => ⟨.buf, p⟩ :: if buf p = c then strncmpAccesses buf (p + 1) s else []

/-- The scan of a line. -/
def ircScanAccesses (l : Int) : (n : Nat) → (j : Int) → IrcScan → List Access
  | 0, _, _ => []
  | n + 1, j, p =>
    ⟨.buf, j⟩ ::
      if p.buf j = 32 then ⟨.buf, j⟩ :: ircScanAccesses l n (j + 1) (p.space l j)
      else if p.buf j = 58 ∧ p.wordcount = 3 then []
      else ircScanAccesses l n (j + 1) p

/-- The choice of the target, and what `modules_check_cmd` reads of it. -/
def ircTargetAccesses (buf : Mem) (user where' : Int) : List Access :=
  ⟨.buf, where'⟩ ::
    if buf where' ∈ [35, 38, 43, 33] then stringAccesses buf where'
    else
      match (bufStr buf user).strchr 33 with
      | none => stringAccesses buf user
      | some sep => rangeAccesses .buf user (sep + 1) ++ rangeAccesses .nickbuf 0 (sep + 1)

/-- The comparisons of the command word. -/
def ircCommandAccesses (buf : Mem) (command : Int) : List Access :=
  strncmpAccesses buf command (CString.lit "PRIVMSG").bytes ++
    if startsWith (CString.lit "PRIVMSG") (bufStr buf command) then []
    else strncmpAccesses buf command (CString.lit "NOTICE").bytes ++
      if startsWith (CString.lit "NOTICE") (bufStr buf command) then []
      else strncmpAccesses buf command (CString.lit "PONG").bytes

/-- What follows the scan. -/
def ircMessageAccesses (verbosity : Int) (p : IrcScan) : List Access :=
  match p.user, p.command with
  | some user, some command =>
    if p.wordcount < 2 then []
    else ircCommandAccesses p.buf command ++
      if startsWith (CString.lit "PRIVMSG") (bufStr p.buf command) ∨
          startsWith (CString.lit "NOTICE") (bufStr p.buf command) then
        match p.where', p.message with
        | some where', some message =>
          ircTargetAccesses p.buf user where' ++
            ((if 1 ≤ verbosity then stringAccesses p.buf where' else []) ++
              (stringAccesses p.buf user ++ stringAccesses p.buf message))
        | _, _ => []
      else []
  | _, _ => []

/-- A line whose last byte has index `l`. -/
def ircLineAccesses (verbosity l : Int) (buf : Mem) : List Access :=
  (if 2 ≤ verbosity then stringAccesses buf 0 else []) ++
    (strncmpAccesses buf 0 (CString.lit "PING").bytes ++
      if startsWith (CString.lit "PING") (bufStr buf 0) then
        ⟨.buf, 1⟩ :: stringAccesses (buf.write 1 79) 0
      else ⟨.buf, 0⟩ ::
        if buf 0 = 58 then
          ircScanAccesses l (l - 1).toNat 1 { buf } ++
            ircMessageAccesses verbosity (ircScanLoop l (l - 1).toNat 1 { buf })
        else [])

/-- A byte. -/
def ircByteAccesses (verbosity : Int) (prev : Option UInt8) (c : UInt8) (s : LoopState) :
    List Access :=
  let o := s.o + 1
  let buf := s.buf.write o c
  ⟨.buf, o⟩ ::
    if (prev = some 13 ∧ c = 10) ∨ o = 512 then
      ⟨.buf, terminator o⟩ :: ircLineAccesses verbosity o (buf.write (terminator o) 0)
    else []

/-- The rest of a chunk. -/
def ircBytesAccesses (verbosity : Int) :
    (prev : Option UInt8) → (rbuf : List UInt8) → LoopState → List Access
  | _, [], _ => []
  | prev, c :: rbuf, s =>
    ircByteAccesses verbosity prev c s ++
      ircBytesAccesses verbosity (some c) rbuf (ircByte prev c s)

/-- The loop. -/
def ircLoopAccesses (verbosity : Int) : List (Bool × NetRecv) → LoopState → List Access
  | [], _ | (true, _) :: _, _ | (false, .eof) :: _, _ => []
  | (false, .error) :: inputs, s => ircLoopAccesses verbosity inputs s
  | (false, .data chunk) :: inputs, s =>
    ircBytesAccesses verbosity none chunk.rbuf s ++
      ircLoopAccesses verbosity inputs (ircBytes none chunk.rbuf s)

/-! ## The accesses of a line -/

section
variable {buf : Mem} {t p : Int}

theorem rangeAccesses_inBounds {array : IrcArray} {n : Nat} (h0 : 0 ≤ p) (hn : p + n ≤ 513) :
    ∀ a ∈ rangeAccesses array p n, a.InBounds := by
  intro a ha
  obtain ⟨i, hi, rfl⟩ := List.mem_map.1 ha
  rw [List.mem_range] at hi
  exact ⟨by simp only; omega, by simp only; omega⟩

/-- A string that starts before a NUL inside the array. -/
theorem stringAccesses_inBounds (hnul : buf t = 0) (h0 : 0 ≤ p) (hp : p ≤ t) (ht : t ≤ 512) :
    ∀ a ∈ stringAccesses buf p, a.InBounds := by
  have hlen := length_bufStr_le hnul hp (by omega)
  exact rangeAccesses_inBounds h0 (by omega)

/-- A comparison that starts before a NUL inside the array. Induction on the literal. -/
theorem strncmpAccesses_inBounds (hnul : buf t = 0) (ht : t ≤ 512) {s : List UInt8} (hs : 0 ∉ s) :
    ∀ {p : Int}, 0 ≤ p → p ≤ t → ∀ a ∈ strncmpAccesses buf p s, a.InBounds := by
  induction s with
  | nil => intro p _ _ a ha; cases ha
  | cons c s ih =>
    intro p h0 hp a ha
    rw [strncmpAccesses] at ha
    rcases List.mem_cons.1 ha with rfl | ha
    · exact ⟨h0, hp.trans ht⟩
    · split at ha
      · next hc =>
        have hne : p ≠ t := by
          rintro rfl
          exact hs (hnul ▸ hc ▸ .head _)
        exact ih (fun h => hs (.tail _ h)) (by omega) (by omega) a ha
      · cases ha

theorem ircCommandAccesses_inBounds (hnul : buf t = 0) (h0 : 0 ≤ p) (hp : p ≤ t) (ht : t ≤ 512) :
    ∀ a ∈ ircCommandAccesses buf p, a.InBounds := by
  intro a ha
  rw [ircCommandAccesses] at ha
  rcases List.mem_append.1 ha with ha | ha
  · exact strncmpAccesses_inBounds hnul ht (CString.noNul _) h0 hp a ha
  · split at ha
    · cases ha
    · rcases List.mem_append.1 ha with ha | ha
      · exact strncmpAccesses_inBounds hnul ht (CString.noNul _) h0 hp a ha
      · split at ha
        · cases ha
        · exact strncmpAccesses_inBounds hnul ht (CString.noNul _) h0 hp a ha

/-- The scan reads and writes up to `l`. Induction on the indices to go. -/
theorem ircScanAccesses_inBounds {l : Int} (hl : l ≤ 513) (n : Nat) : ∀ {j : Int} {p : IrcScan},
    0 ≤ j → j + n = l → ∀ a ∈ ircScanAccesses l n j p, a.InBounds := by
  induction n with
  | zero => intro j p _ _ a ha; cases ha
  | succ n ih =>
    intro j p hj hn a ha
    have hbyte : (⟨.buf, j⟩ : Access).InBounds := ⟨hj, by simp only; omega⟩
    rw [ircScanAccesses] at ha
    rcases List.mem_cons.1 ha with rfl | ha
    · exact hbyte
    · split at ha
      · rcases List.mem_cons.1 ha with rfl | ha
        · exact hbyte
        · exact ih (by omega) (by omega) a ha
      · split at ha
        · cases ha
        · exact ih (by omega) (by omega) a ha

/-- The nick fits `nickbuf`, since the user fits `buf`. -/
theorem ircTargetAccesses_inBounds (hnul : buf t = 0) (ht : t ≤ 512) {user where' : Int}
    (huser : 1 ≤ user ∧ user ≤ t) (hwhere : 0 ≤ where' ∧ where' ≤ t) :
    ∀ a ∈ ircTargetAccesses buf user where', a.InBounds := by
  intro a ha
  rw [ircTargetAccesses] at ha
  rcases List.mem_cons.1 ha with rfl | ha
  · exact ⟨hwhere.1, hwhere.2.trans ht⟩
  · split at ha
    · exact stringAccesses_inBounds hnul hwhere.1 hwhere.2 ht a ha
    · cases hsep : (bufStr buf user).strchr 33 with
      | none =>
        rw [hsep] at ha
        exact stringAccesses_inBounds hnul (by omega) huser.2 ht a ha
      | some sep =>
        rw [hsep] at ha
        have hlen := length_bufStr_le hnul huser.2 (by omega)
        obtain ⟨pre, post, hbytes, -, rfl⟩ := CString.strchr_eq_some_iff.1 hsep
        rw [CString.length, hbytes, List.length_append, List.length_cons] at hlen
        rcases List.mem_append.1 ha with ha | ha
        · exact rangeAccesses_inBounds (by omega) (by omega) a ha
        · exact rangeAccesses_inBounds (by omega) (by omega) a ha

/-- What follows the scan. -/
theorem ircMessageAccesses_inBounds (verbosity : Int) {p : IrcScan} (h : p.Within t)
    (ht : t ≤ 512) : ∀ a ∈ ircMessageAccesses verbosity p, a.InBounds := by
  intro a ha
  obtain ⟨buf, wordcount, user, command, where', message, start⟩ := p
  have hstr : ∀ i, 0 ≤ i ∧ i ≤ t → ∀ a ∈ stringAccesses buf i, a.InBounds :=
    fun i hi => stringAccesses_inBounds h.nul hi.1 hi.2 ht
  rw [ircMessageAccesses] at ha
  cases user with
  | none => cases ha
  | some user =>
    cases command with
    | none => cases ha
    | some command =>
      simp only at ha
      have huser := h.user user rfl
      have hcommand := h.command command rfl
      split at ha
      · cases ha
      rcases List.mem_append.1 ha with ha | ha
      · exact ircCommandAccesses_inBounds h.nul hcommand.1 hcommand.2 ht a ha
      split at ha
      · cases where' with
        | none => cases ha
        | some where' =>
          cases message with
          | none => cases ha
          | some message =>
            have hwhere := h.where' where' rfl
            rcases List.mem_append.1 ha with ha | ha
            · exact ircTargetAccesses_inBounds h.nul ht huser hwhere a ha
            rcases List.mem_append.1 ha with ha | ha
            · split at ha
              · exact hstr where' hwhere a ha
              · cases ha
            rcases List.mem_append.1 ha with ha | ha
            · exact hstr user (by omega) a ha
            · exact hstr message (h.message message rfl) a ha
      · cases ha

/-- A line with its terminator at `t` inside the array. -/
theorem ircLineAccesses_inBounds (verbosity : Int) {l : Int} (hl : 1 ≤ l) (hlt : l ≤ t + 1)
    (ht : t ≤ 512) (hnul : buf t = 0) : ∀ a ∈ ircLineAccesses verbosity l buf, a.InBounds := by
  intro a ha
  rw [ircLineAccesses] at ha
  rcases List.mem_append.1 ha with ha | ha
  · split at ha
    · exact stringAccesses_inBounds hnul (Int.le_refl 0) (by omega) ht a ha
    · cases ha
  rcases List.mem_append.1 ha with ha | ha
  · exact strncmpAccesses_inBounds hnul ht (CString.noNul _) (Int.le_refl 0) (by omega) a ha
  split at ha
  · next hping =>
    have ht1 := ne_one_of_ping hnul (by omega) (by omega) hping
    have hnul₁ : buf.write 1 79 t = 0 := (Mem.write_of_ne buf 79 ht1).trans hnul
    rcases List.mem_cons.1 ha with rfl | ha
    · exact ⟨by decide, by decide⟩
    · exact stringAccesses_inBounds hnul₁ (Int.le_refl 0) (by omega) ht a ha
  rcases List.mem_cons.1 ha with rfl | ha
  · exact ⟨by decide, by decide⟩
  split at ha
  · rcases List.mem_append.1 ha with ha | ha
    · exact ircScanAccesses_inBounds (by omega) _ (by omega) (by omega) a ha
    · exact ircMessageAccesses_inBounds verbosity (ircScan_within hl hlt hnul) ht a ha
  · cases ha

end

/-! ## The accesses of the loop -/

/-- The loop tracks a framer, and an LF that ends a line does not stand at its start. -/
structure LoopState.Bounded (s : LoopState) (f : Framer UInt8) (prev : Option UInt8) : Prop where
  tracks : s.Tracks f
  short : ∀ g ∈ f.frames, g.length < 513
  cr : prev = some 13 → f.pending ≠ []

/-- A byte: the accesses are inside exactly if no line has filled the array. -/
theorem LoopState.Bounded.byte (verbosity : Int) {s : LoopState} {f : Framer UInt8}
    {prev : Option UInt8} (h : s.Bounded f prev) (c : UInt8) :
    (∀ a ∈ ircByteAccesses verbosity prev c s, a.InBounds) ↔
      ∀ g ∈ (f.feed 513 (c, decide (prev = some 13 ∧ c = 10))).frames, g.length < 513 := by
  obtain ⟨⟨-, ho, hroom, -⟩, hshort, hcr⟩ := h
  have hfirst : (⟨.buf, s.o + 1⟩ : Access).InBounds := ⟨by simp only; omega, by simp only; omega⟩
  unfold ircByteAccesses Framer.feed
  simp only [decide_eq_true_eq]
  by_cases hfull : f.pending.length + 1 = 513
  · have ho' : s.o + 1 = 512 := by omega
    rw [if_pos (.inr ho'), if_pos (.inr hfull), ho']
    constructor
    · intro hall
      have hterm := (hall ⟨.buf, terminator 512⟩ (.tail _ (.head _))).2
      exact absurd hterm (by decide)
    · intro hall
      exact absurd (hall _ (List.mem_append_right _ (.head _))) (by simp [hfull])
  · have ho' : s.o + 1 ≠ 512 := by omega
    by_cases hend : prev = some 13 ∧ c = 10
    · rw [if_pos (.inl hend), if_pos (.inl hend)]
      have hne := List.length_pos_iff.2 (hcr hend.1)
      have hterm : terminator (s.o + 1) = s.o + 1 - 1 := by
        rw [terminator, if_neg ho']
      have hline := ircLineAccesses_inBounds verbosity (l := s.o + 1) (t := terminator (s.o + 1))
        (by omega) (by omega) (by omega) (Mem.write_same (s.buf.write (s.o + 1) c) _ 0)
      constructor
      · intro _ g hg
        rcases List.mem_append.1 hg with hg | hg
        · exact hshort g hg
        · obtain rfl := List.mem_singleton.1 hg
          simp only [List.length_append, List.length_singleton]
          omega
      · intro _ a ha
        rcases List.mem_cons.1 ha with rfl | ha
        · exact hfirst
        rcases List.mem_cons.1 ha with rfl | ha
        · exact ⟨by simp only; omega, by simp only; omega⟩
        · exact hline a ha
    · rw [if_neg fun h => h.elim hend ho', if_neg fun h => h.elim hend hfull]
      constructor
      · exact fun _ => hshort
      · intro _ a ha
        obtain rfl := List.mem_singleton.1 ha
        exact hfirst

/-- After a byte without such a line. -/
theorem LoopState.Bounded.next {s : LoopState} {f : Framer UInt8} {prev : Option UInt8}
    (h : s.Bounded f prev) {c : UInt8}
    (hshort : ∀ g ∈ (f.feed 513 (c, decide (prev = some 13 ∧ c = 10))).frames, g.length < 513) :
    (ircByte prev c s).Bounded (f.feed 513 (c, decide (prev = some 13 ∧ c = 10))) (some c) := by
  refine ⟨h.tracks.byte prev c, hshort, fun hc => ?_⟩
  obtain rfl : c = 13 := Option.some.inj hc
  have hroom := h.tracks.room
  unfold Framer.feed at hshort ⊢
  simp only [decide_eq_true_eq] at hshort ⊢
  split
  · next hend =>
    rw [if_pos hend] at hshort
    have hfull := hend.resolve_left fun h => absurd h.2 (by decide)
    exact absurd (hshort _ (List.mem_append_right _ (.head _))) (by simp [hfull])
  · simp

/-- A chunk. Induction on its bytes. -/
theorem LoopState.Bounded.bytes (verbosity : Int) (rbuf : List UInt8) : ∀ {s : LoopState}
    {f : Framer UInt8} {prev : Option UInt8}, s.Bounded f prev →
      ((∀ a ∈ ircBytesAccesses verbosity prev rbuf s, a.InBounds) ↔
        ∀ g ∈ (f.run 513 (chunkMarks prev rbuf)).frames, g.length < 513) := by
  induction rbuf with
  | nil =>
    intro s f prev h
    exact ⟨fun _ => h.short, fun _ a ha => by cases ha⟩
  | cons c rbuf ih =>
    intro s f prev h
    have hbyte := h.byte verbosity c
    have hrun : f.run 513 (chunkMarks prev (c :: rbuf)) =
        (f.feed 513 (c, decide (prev = some 13 ∧ c = 10))).run 513 (chunkMarks (some c) rbuf) := rfl
    rw [ircBytesAccesses, List.forall_mem_append, hbyte, hrun]
    constructor
    · rintro ⟨hshort, hrest⟩
      exact (ih (h.next hshort)).1 hrest
    · intro hall
      have hshort : ∀ g ∈ (f.feed 513 (c, decide (prev = some 13 ∧ c = 10))).frames,
          g.length < 513 := fun g hg => hall g (Framer.frames_subset 513 _ _ g hg)
      exact ⟨hshort, (ih (h.next hshort)).2 hall⟩

/-- After a chunk without such a line. -/
theorem LoopState.Bounded.afterBytes (rbuf : List UInt8) : ∀ {s : LoopState} {f : Framer UInt8}
    {prev : Option UInt8}, s.Bounded f prev →
      (∀ g ∈ (f.run 513 (chunkMarks prev rbuf)).frames, g.length < 513) →
      (ircBytes prev rbuf s).Bounded (f.run 513 (chunkMarks prev rbuf)) none := by
  induction rbuf with
  | nil => exact fun h _ => ⟨h.tracks, h.short, nofun⟩
  | cons c rbuf ih =>
    intro s f prev h hall
    refine ih (h.next fun g hg => hall g ?_) hall
    exact Framer.frames_subset 513 _ (chunkMarks (some c) rbuf) g hg

/-- The loop from a state on. Induction on the chunks. -/
theorem ircLoopAccesses_inBounds (verbosity : Int) (chunks : List Chunk) : ∀ {s : LoopState}
    {f : Framer UInt8}, s.Bounded f none →
      ((∀ a ∈ ircLoopAccesses verbosity (received chunks) s, a.InBounds) ↔
        ∀ g ∈ (f.run 513 (chunks.flatMap fun chunk => chunkMarks none chunk.rbuf)).frames,
          g.length < 513) := by
  induction chunks with
  | nil =>
    intro s f h
    exact ⟨fun _ => h.short, fun _ a ha => by cases ha⟩
  | cons chunk chunks ih =>
    intro s f h
    have hchunk := h.bytes verbosity chunk.rbuf
    rw [List.flatMap_cons, Framer.run_append]
    show (∀ a ∈ ircBytesAccesses verbosity none chunk.rbuf s ++
      ircLoopAccesses verbosity (received chunks) (ircBytes none chunk.rbuf s), a.InBounds) ↔ _
    rw [List.forall_mem_append, hchunk]
    constructor
    · rintro ⟨hshort, hrest⟩
      exact (ih (h.afterBytes chunk.rbuf hshort)).1 hrest
    · intro hall
      have hshort : ∀ g ∈ (f.run 513 (chunkMarks none chunk.rbuf)).frames, g.length < 513 :=
        fun g hg => hall g (Framer.frames_subset 513 _ _ g hg)
      exact ⟨hshort, (ih (h.afterBytes chunk.rbuf hshort)).2 hall⟩

/-- At the start of a connection. -/
theorem LoopState.init_bounded (buf nickbuf : Mem) : (init buf nickbuf).Bounded .init none :=
  ⟨init_tracks buf nickbuf, by simp [Framer.init], nofun⟩

/-- In a connection, every index of `buf` and `nickbuf` that is accessed is inside the array exactly
if among any 513 consecutive bytes one of the first 512 is an LF with its CR before it in the same
chunk. -/
theorem ircLoop_inBounds_iff (verbosity : Int) (buf nickbuf : Mem) (chunks : List Chunk) :
    (∀ a ∈ ircLoopAccesses verbosity (received chunks) (.init buf nickbuf), a.InBounds) ↔
      MarkedWithin 513 (chunks.flatMap fun chunk => chunkMarks none chunk.rbuf) :=
  (ircLoopAccesses_inBounds verbosity chunks (LoopState.init_bounded buf nickbuf)).trans
    (Framer.frames_short_iff (by decide) _)

/-- The marks of a chunk without a CR. -/
theorem chunkMarks_of_cr_notMem (rbuf : List UInt8) : ∀ prev : Option UInt8, prev ≠ some 13 →
    13 ∉ rbuf → chunkMarks prev rbuf = rbuf.map (·, false) := by
  induction rbuf with
  | nil => exact fun _ _ _ => rfl
  | cons c rbuf ih =>
    intro prev hprev hcr
    have hc : some c ≠ some (13 : UInt8) := fun h => hcr (Option.some.inj h ▸ .head _)
    rw [chunkMarks, ih (some c) hc fun h => hcr (.tail _ h), List.map_cons,
      decide_eq_false fun h => hprev h.1]

/-- A chunk of `n` letters. -/
def letters (n : Nat) (hpos : 0 < n) (hn : n ≤ 512) : Chunk where
  rbuf := List.replicate n 97
  nonempty := List.ne_nil_of_length_pos (by rwa [List.length_replicate])
  length_le := List.length_replicate.trans_le hn

/-- After 512 bytes without a line end and one byte more, some access is outside its array. -/
theorem ircLoop_inBounds_long :
    ¬ ∀ a ∈ ircLoopAccesses 0
      (received [letters 512 (by decide) (by decide), letters 1 (by decide) (by decide)])
      (.init (fun _ => 0) fun _ => 0), a.InBounds := by
  intro h
  have hcr : ∀ n, (13 : UInt8) ∉ List.replicate n 97 := fun n hmem =>
    absurd (List.eq_of_mem_replicate hmem) (by decide)
  have hmarked := (Framer.frames_short_iff (by decide) _).1
    ((ircLoopAccesses_inBounds 0 _ (LoopState.init_bounded _ _)).1 h)
  obtain ⟨y, hy, hmark⟩ := hmarked [] (List.replicate 512 (97, false)) (97, false) [] (by
    rw [List.flatMap_cons, letters, chunkMarks_of_cr_notMem _ none nofun (hcr 512),
      List.map_replicate]
    rfl) (by rw [List.length_replicate])
  rw [List.eq_of_mem_replicate hy] at hmark
  cases hmark

end MinervaBot
