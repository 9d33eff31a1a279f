import MinervaBot.IrcLines

/-!
# What `irc_loop` does for a line

`buf` is reused for every line, and behind a line it still holds bytes of earlier ones. A handled
line is in `buf` from index `0` on with a NUL written over its CR, or behind it when the line is cut
at its 513th byte, and every string that the loop reads ends there at the latest. So what the loop
does for a line depends on the line alone (`ircLoop_actions`), and `lineActions` names it.
-/

namespace MinervaBot

open Lib

/-- The index at which the loop writes the terminator of the line whose last byte has index `o`. -/
def terminator (o : Int) : Int :=
  if o = 512 then o + 1 else o - 1

/-- What `irc_loop` does for a line, read off a `buf` that holds nothing else. -/
def lineActions (line : List UInt8) : List IrcAction :=
  let o : Int := line.length - 1
  let buf : Mem := Mem.copy (fun _ => 0) 0 line
  (ircLine o (buf.write (terminator o) 0) fun _ => 0).2.2

/-- `target`, from the strings at `user` and `where`. -/
def targetOf (user where' : CString) : CString :=
  if where'.bytes.head? ∈ [some 35, some 38, some 43, some 33] then where'
  else user.take (user.bytes.takeWhile (· != 33)).length

/-! ## The strings of a line -/

section
variable {buf buf' : Mem} {t p : Int}

/-- A string that starts up to a NUL ends there at the latest. -/
theorem bufStr_eq (hnul : buf t = 0) (hp : p ≤ t) (ht : t ≤ 513) :
    bufStr buf p = CString.ofBytes (buf.slice p t) :=
  Mem.cstr_slice hnul hp (by omega)

/-- Memories that agree up to a NUL have the same strings up to it. -/
theorem bufStr_congr (h : buf.Agree t buf') (hnul : buf t = 0) (h0 : 0 ≤ p) (hp : p ≤ t)
    (ht : t ≤ 513) : bufStr buf p = bufStr buf' p := by
  have hnul' : buf' t = 0 := by
    rw [← h t (by omega) (Int.le_of_eq rfl), hnul]
  rw [bufStr_eq hnul hp ht, bufStr_eq hnul' hp ht, Mem.slice, Mem.slice]
  congr 1
  refine List.map_congr_left fun i hi => h _ (by omega) ?_
  rw [List.mem_range] at hi
  omega

/-- The length of a string. -/
theorem length_bufStr_le (hnul : buf t = 0) (hp : p ≤ t) (ht : t ≤ 513) :
    (bufStr buf p).length ≤ (t - p).toNat := by
  rw [bufStr_eq hnul hp ht]
  refine (List.takeWhile_prefix _).length_le.trans ?_
  rw [Mem.length_slice]

/-- A string that starts with `PING` does not end at its second byte. -/
theorem ne_one_of_ping (hnul : buf t = 0) (h0 : 0 ≤ t) (ht : t ≤ 513)
    (hping : startsWith (CString.lit "PING") (bufStr buf 0)) : t ≠ 1 := by
  rintro rfl
  have hshort := length_bufStr_le hnul h0 ht
  have hlong := congrArg List.length hping
  rw [List.length_take, show (CString.lit "PING").bytes.length = 4 by decide,
    show (CString.lit "PING").length = 4 by decide] at hlong
  rw [CString.length] at hshort
  omega

/-- The first byte of a string. -/
theorem head?_bufStr (buf : Mem) (hp : p ≤ 513) :
    (bufStr buf p).bytes.head? = if buf p = 0 then none else some (buf p) := by
  obtain ⟨n, hn⟩ : ∃ n, (514 - p).toNat = n + 1 := ⟨(513 - p).toNat, by omega⟩
  rw [bufStr, Mem.cstr, hn, List.range_succ_eq_map, List.map_cons]
  show (List.takeWhile (· != 0) (buf (p + (0 : Nat)) :: _)).head? = _
  rw [show p + ((0 : Nat) : Int) = p by omega]
  by_cases hz : buf p = 0
  · simp [hz]
  · rw [List.takeWhile_cons_of_pos (by simpa using hz), if_neg hz, List.head?_cons]

/-- The index of the first exclamation mark is the length of what stands before it. -/
theorem take_strchr {user : CString} {sep : Nat} (h : user.strchr 33 = some sep) :
    user.take sep = user.take (user.bytes.takeWhile (· != 33)).length := by
  obtain ⟨pre, post, huser, hpre, rfl⟩ := CString.strchr_eq_some_iff.1 h
  have hall : ∀ c ∈ pre, (c != 33) = true := fun c hc => by
    simpa using ne_of_mem_of_not_mem hc hpre
  rw [huser, List.takeWhile_append_of_pos hall]
  simp

/-- Without an exclamation mark all of the user stands before it. -/
theorem take_strchr_none {user : CString} (h : user.strchr 33 = none) :
    user.take (user.bytes.takeWhile (· != 33)).length = user := by
  have hall : ∀ c ∈ user.bytes, (c != 33) = true := by
    simpa [CString.strchr] using h
  refine CString.ext ?_
  rw [CString.bytes_take, ← List.append_nil user.bytes, List.takeWhile_append_of_pos hall]
  simp

/-- The target depends on the two strings only, also where it is put together in `nickbuf`. -/
theorem ircTarget_snd (buf nickbuf : Mem) {user where' : Int} (huser : 1 ≤ user)
    (hwhere : where' ≤ 513) :
    (ircTarget buf nickbuf user where').2 = targetOf (bufStr buf user) (bufStr buf where') := by
  have hhead : (bufStr buf where').bytes.head? ∈ [some 35, some 38, some 43, some 33] ↔
      buf where' ∈ [35, 38, 43, 33] := by
    rw [head?_bufStr buf hwhere]
    split
    · next hz => simp [hz]
    · simp
  rw [ircTarget, targetOf]
  by_cases hchan : buf where' ∈ [35, 38, 43, 33]
  · rw [if_pos hchan, if_pos (hhead.2 hchan)]
  · rw [if_neg hchan, if_neg fun h => hchan (hhead.1 h)]
    cases hsep : (bufStr buf user).strchr 33 with
    | none => exact (take_strchr_none hsep).symm
    | some sep =>
      have hlt : sep < (bufStr buf user).length := by
        obtain ⟨pre, post, hbytes, -, rfl⟩ := CString.strchr_eq_some_iff.1 hsep
        rw [CString.length, hbytes, List.length_append, List.length_cons]
        omega
      have hroom : (bufStr buf user).length ≤ 513 := by
        refine (List.takeWhile_prefix _).length_le.trans ?_
        rw [List.length_map, List.length_range]
        omega
      have htake : ((bufStr buf user).take sep).length = sep := by
        rw [CString.length_take]
        omega
      have hcopy := Mem.copy_hasBytes nickbuf 0 ((bufStr buf user).take sep).bytes
      have hnul := hcopy.snoc 0
      rw [show (0 : Int) + ((bufStr buf user).take sep).bytes.length = sep by
        rw [← CString.length, htake, Int.zero_add]] at hnul
      rw [← take_strchr hsep]
      exact Mem.cstr_eq hnul (by omega)

end

/-! ## The scan -/

/-- With a NUL at `t`, the pointers found so far point to strings that end at `t` at the latest. -/
structure IrcScan.Within (t : Int) (p : IrcScan) : Prop where
  nul : p.buf t = 0
  start : 0 ≤ p.start ∧ p.start ≤ t
  user : ∀ i ∈ p.user, 1 ≤ i ∧ i ≤ t
  command : ∀ i ∈ p.command, 0 ≤ i ∧ i ≤ t
  where' : ∀ i ∈ p.where', 0 ≤ i ∧ i ≤ t
  message : ∀ i ∈ p.message, 0 ≤ i ∧ i ≤ t

/-- What the scan does at a space at index `j`, variable by variable. -/
def IrcScan.space (l j : Int) (p : IrcScan) : IrcScan where
  buf := p.buf.write j 0
  wordcount := p.wordcount + 1
  user := if p.wordcount = 0 then some 1 else p.user
  command := if p.wordcount = 1 then some p.start else p.command
  where' := if p.wordcount = 2 then some p.start else p.where'
  message := p.message
  start := if j = l - 1 then p.start else j + 1

/-- What the scan does at the colon at index `j`. -/
def IrcScan.colon (l j : Int) (p : IrcScan) : IrcScan :=
  { p with message := if j < l - 1 then some (j + 1) else p.message }

/-- The scan with another `buf`. -/
def IrcScan.withBuf (p : IrcScan) (buf : Mem) : IrcScan :=
  { p with buf }

section
variable {l j : Int} {n : Nat} {p : IrcScan}

/-- The scan goes on behind a space. -/
theorem ircScanLoop_space (h : p.buf j = 32) :
    ircScanLoop l (n + 1) j p = ircScanLoop l n (j + 1) (p.space l j) := by
  rw [ircScanLoop, if_pos h]
  obtain ⟨buf, wordcount, user, command, where', message, start⟩ := p
  rcases wordcount with - | - | - | count
  all_goals simp only [IrcScan.word, IrcScan.space]
  all_goals split <;> simp

/-- The scan stops at a colon in the fourth word. -/
theorem ircScanLoop_colon (h : p.buf j = 58) (hcount : p.wordcount = 3) :
    ircScanLoop l (n + 1) j p = p.colon l j := by
  rw [ircScanLoop, if_neg (by rw [h]; decide), if_pos ⟨h, hcount⟩, IrcScan.colon]
  split <;> rfl

/-- The scan passes over any other byte. -/
theorem ircScanLoop_other (h : p.buf j ≠ 32) (hcolon : ¬ (p.buf j = 58 ∧ p.wordcount = 3)) :
    ircScanLoop l (n + 1) j p = ircScanLoop l n (j + 1) p := by
  rw [ircScanLoop, if_neg h, if_neg hcolon]

/-- The pointers after a space. -/
theorem IrcScan.Within.space {t : Int} (h : p.Within t) (hj : 1 ≤ j) (hjl : j < l)
    (hl : l ≤ t + 1) : (p.space l j).Within t := by
  have hstart := h.start
  refine ⟨?_, ?_, ?_, ?_, ?_, h.message⟩
  · show p.buf.write j 0 t = 0
    by_cases htj : t = j
    · rw [htj, Mem.write_same]
    · rw [Mem.write_of_ne p.buf 0 htj, h.nul]
  · simp only [IrcScan.space]
    omega
  · intro i hi
    simp only [IrcScan.space] at hi
    split at hi
    · cases hi; omega
    · exact h.user i hi
  · intro i hi
    simp only [IrcScan.space] at hi
    split at hi
    · cases hi; omega
    · exact h.command i hi
  · intro i hi
    simp only [IrcScan.space] at hi
    split at hi
    · cases hi; omega
    · exact h.where' i hi

/-- The pointers after a colon. -/
theorem IrcScan.Within.colon {t : Int} (h : p.Within t) (hj : 1 ≤ j) (hl : l ≤ t + 1) :
    (p.colon l j).Within t := by
  refine { h with message := fun i hi => ?_ }
  simp only [IrcScan.colon] at hi
  split at hi
  · cases hi; omega
  · exact h.message i hi

end

/-- The scan up to `l`, with a NUL at `t` or before it. Induction on the indices to go. -/
theorem ircScanLoop_within {l t : Int} (hl : l ≤ t + 1) (n : Nat) : ∀ {j : Int} {p : IrcScan},
    1 ≤ j → j + n = l → p.Within t → (ircScanLoop l n j p).Within t := by
  induction n with
  | zero => exact fun _ _ h => h
  | succ n ih =>
    intro j p hj hn h
    by_cases hspace : p.buf j = 32
    · rw [ircScanLoop_space hspace]
      exact ih (by omega) (by omega) (h.space hj (by omega) hl)
    · by_cases hcolon : p.buf j = 58 ∧ p.wordcount = 3
      · rw [ircScanLoop_colon hcolon.1 hcolon.2]
        exact h.colon hj hl
      · rw [ircScanLoop_other hspace hcolon]
        exact ih (by omega) (by omega) h

/-- The scan of a memory that agrees with another one up to `l`. -/
theorem ircScanLoop_congr {l t : Int} (hl : l ≤ t + 1) (n : Nat) :
    ∀ {j : Int} {p : IrcScan} {buf' : Mem}, 1 ≤ j → j + n = l → p.buf.Agree t buf' →
      ∃ buf'', (ircScanLoop l n j p).buf.Agree t buf'' ∧
        ircScanLoop l n j (p.withBuf buf') = (ircScanLoop l n j p).withBuf buf'' := by
  induction n with
  | zero => exact fun _ _ h => ⟨_, h, rfl⟩
  | succ n ih =>
    intro j p buf' hj hn h
    have hbyte : p.buf j = buf' j := h j (by omega) (by omega)
    by_cases hspace : p.buf j = 32
    · have hspace' : (p.withBuf buf').buf j = 32 := hbyte.symm.trans hspace
      rw [ircScanLoop_space hspace, ircScanLoop_space hspace']
      exact ih (p := p.space l j) (by omega) (by omega) (h.write j 0)
    · have hspace' : (p.withBuf buf').buf j ≠ 32 := fun h => hspace (hbyte.trans h)
      by_cases hcolon : p.buf j = 58 ∧ p.wordcount = 3
      · have hcolon' : (p.withBuf buf').buf j = 58 := hbyte.symm.trans hcolon.1
        rw [ircScanLoop_colon hcolon.1 hcolon.2, ircScanLoop_colon hcolon' hcolon.2]
        exact ⟨_, h, rfl⟩
      · rw [ircScanLoop_other hspace hcolon,
          ircScanLoop_other hspace' fun h => hcolon ⟨hbyte.trans h.1, h.2⟩]
        exact ih (by omega) (by omega) h

/-! ## The actions of a line -/

/-- What is done after the scan, in terms of the strings found. -/
def IrcScan.actions (p : IrcScan) : List IrcAction :=
  match p.user, p.command, p.where', p.message with
  | some user, some command, some where', some message =>
    if p.wordcount < 2 then []
    else if startsWith (CString.lit "PRIVMSG") (bufStr p.buf command) ∨
        startsWith (CString.lit "NOTICE") (bufStr p.buf command) then
      [.modulesCheckCmd (bufStr p.buf user) (targetOf (bufStr p.buf user) (bufStr p.buf where'))
        (bufStr p.buf message)]
    else []
  | _, _, _, _ => []

section
variable {l t : Int} {buf buf' : Mem}

/-- At the start of the scan no pointer is set. -/
theorem IrcScan.within_init (h0 : 0 ≤ t) (hnul : buf t = 0) :
    ({ buf } : IrcScan).Within t :=
  ⟨hnul, ⟨Int.le_refl 0, h0⟩, by rintro i ⟨⟩, by rintro i ⟨⟩, by rintro i ⟨⟩, by rintro i ⟨⟩⟩

/-- The end of the scan. -/
theorem ircScan_within (hl : 1 ≤ l) (hlt : l ≤ t + 1) (hnul : buf t = 0) :
    (ircScanLoop l (l - 1).toNat 1 { buf }).Within t :=
  ircScanLoop_within hlt _ (by omega) (by omega) (IrcScan.within_init (by omega) hnul)

/-- A line that starts with `PING`. -/
theorem ircLine_ping (nickbuf : Mem) (hping : startsWith (CString.lit "PING") (bufStr buf 0)) :
    (ircLine l buf nickbuf).2.2 =
      [.netRaws (bufStr (buf.write 1 79) 0), .netRaws (CString.lit "\r\n")] := by
  rw [ircLine, if_pos hping]

/-- A line that starts with a colon. -/
theorem ircLine_colon (nickbuf : Mem) (hl : 1 ≤ l) (hlt : l ≤ t + 1) (ht : t ≤ 513)
    (hnul : buf t = 0) (hping : ¬ startsWith (CString.lit "PING") (bufStr buf 0))
    (hcolon : buf 0 = 58) :
    (ircLine l buf nickbuf).2.2 = (ircScanLoop l (l - 1).toNat 1 { buf }).actions := by
  have hwithin := ircScan_within hl hlt hnul
  rw [ircLine, if_neg hping, if_pos hcolon]
  generalize ircScanLoop l (l - 1).toNat 1 { buf } = p at hwithin ⊢
  obtain ⟨buf, wordcount, user, command, where', message, start⟩ := p
  rcases user with - | user
  · rfl
  rcases command with - | command
  · rfl
  rcases where' with - | where'
  · simp only [IrcScan.actions]
    split
    · rfl
    · split <;> rfl
  rcases message with - | message
  · simp only [IrcScan.actions]
    split
    · rfl
    · split <;> rfl
  have huser := hwithin.user user rfl
  have hwhere := hwithin.where' where' rfl
  simp only [IrcScan.actions, ← ircTarget_snd buf nickbuf huser.1 (hwhere.2.trans ht)]
  split
  · rfl
  · split <;> rfl

/-- Any other line. -/
theorem ircLine_other (nickbuf : Mem)
    (hping : ¬ startsWith (CString.lit "PING") (bufStr buf 0)) (hcolon : buf 0 ≠ 58) :
    (ircLine l buf nickbuf).2.2 = [] := by
  rw [ircLine, if_neg hping, if_neg hcolon]

/-- The actions after scans that end alike in memories that agree. -/
theorem IrcScan.actions_congr {p : IrcScan} (h : p.Within t) (ht : t ≤ 513)
    (hbuf : p.buf.Agree t buf') : (p.withBuf buf').actions = p.actions := by
  have hstr : ∀ i, 0 ≤ i → i ≤ t → bufStr p.buf i = bufStr buf' i := fun i h0 hi =>
    bufStr_congr hbuf h.nul h0 hi ht
  obtain ⟨buf, wordcount, user, command, where', message, start⟩ := p
  rcases user with - | user
  · rfl
  rcases command with - | command
  · rfl
  rcases where' with - | where'
  · rfl
  rcases message with - | message
  · rfl
  have huser := h.user user rfl
  have hcommand := h.command command rfl
  have hwhere := h.where' where' rfl
  have hmessage := h.message message rfl
  simp only [withBuf, actions] at hstr ⊢
  rw [hstr user (by omega) huser.2, hstr command hcommand.1 hcommand.2,
    hstr where' hwhere.1 hwhere.2, hstr message hmessage.1 hmessage.2]
  rfl

/-- What is done for a line depends on the bytes up to its terminator. -/
theorem ircLine_congr (nickbuf nickbuf' : Mem) (hl : 1 ≤ l) (hlt : l ≤ t + 1) (ht : t ≤ 513)
    (hnul : buf t = 0) (h : buf.Agree t buf') :
    (ircLine l buf nickbuf).2.2 = (ircLine l buf' nickbuf').2.2 := by
  have hstr := bufStr_congr h hnul (Int.le_refl 0) (by omega) ht
  have hnul' : buf' t = 0 := (h t (by omega) (Int.le_refl t)).symm.trans hnul
  by_cases hping : startsWith (CString.lit "PING") (bufStr buf 0)
  · have ht1 := ne_one_of_ping hnul (by omega) ht hping
    have hnul₁ : buf.write 1 79 t = 0 := (Mem.write_of_ne buf 79 ht1).trans hnul
    rw [ircLine_ping nickbuf hping, ircLine_ping nickbuf' (hstr ▸ hping),
      bufStr_congr (h.write 1 79) hnul₁ (Int.le_refl 0) (by omega) ht]
  · by_cases hcolon : buf 0 = 58
    · have hcolon' : buf' 0 = 58 := (h 0 (by omega) (by omega)).symm.trans hcolon
      obtain ⟨buf'', hagree, hscan⟩ := ircScanLoop_congr hlt (l - 1).toNat (j := 1)
        (p := { buf }) (by omega) (by omega) h
      rw [ircLine_colon nickbuf hl hlt ht hnul hping hcolon,
        ircLine_colon nickbuf' hl hlt ht hnul' (hstr ▸ hping) hcolon',
        ← IrcScan.actions_congr (ircScan_within hl hlt hnul) ht hagree, ← hscan]
      rfl
    · have hcolon' : buf' 0 ≠ 58 := fun h' => hcolon ((h 0 (by omega) (by omega)).trans h')
      rw [ircLine_other nickbuf hping hcolon, ircLine_other nickbuf' (hstr ▸ hping) hcolon']

/-- Nothing is done for a line of an LF alone, whatever stands behind it. -/
theorem ircLine_lf (nickbuf : Mem) (h : buf 0 = 10) : (ircLine l buf nickbuf).2.2 = [] := by
  refine ircLine_other nickbuf (fun hping => ?_) (by rw [h]; decide)
  have hhead := head?_bufStr buf (p := 0) (by omega)
  rw [h, if_neg (by decide)] at hhead
  cases hbytes : (bufStr buf 0).bytes with
  | nil => rw [hbytes] at hhead; cases hhead
  | cons c rest =>
    rw [hbytes, List.head?_cons, Option.some.injEq] at hhead
    rw [startsWith, hbytes, hhead, show (CString.lit "PING").length = 4 by decide] at hping
    have := (List.cons.inj hping).1
    revert this
    decide

end

/-! ## The loop -/

/-- A complete line in a buffer, and in one that holds nothing else. -/
theorem ircLine_eq_lineActions {buf : Mem} {line : List UInt8} (nickbuf : Mem)
    (hbuf : buf.HasBytes 0 line) (hlen : line.length ≤ 513)
    (hline : 2 ≤ line.length ∨ line = [10]) :
    (ircLine (line.length - 1) (buf.write (terminator (line.length - 1)) 0) nickbuf).2.2 =
      lineActions line := by
  have hbuf' : (Mem.copy (fun _ => 0) 0 line).HasBytes 0 line := Mem.copy_hasBytes _ 0 line
  rcases hline with hline | rfl
  · have ht : terminator (line.length - 1) ≤ line.length ∧
        (line.length : Int) - 1 ≤ terminator (line.length - 1) + 1 ∧
        terminator (line.length - 1) ≤ 513 := by
      rw [terminator]
      split <;> omega
    exact ircLine_congr nickbuf _ (by omega) ht.2.1 ht.2.2 (Mem.write_same _ _ _)
      (hbuf.agree hbuf' ht.1)
  · have hlf : ∀ m : Mem, m.HasBytes 0 [10] →
        m.write (terminator (([10] : List UInt8).length - 1)) 0 0 = 10 := fun m h => by
      rw [Mem.write_of_ne m 0 (by decide)]
      exact h 0 (by decide)
    rw [lineActions, ircLine_lf nickbuf (hlf _ hbuf)]
    exact (ircLine_lf _ (hlf _ hbuf')).symm

/-- The loop tracks a framer, and its actions so far are those of the frames. -/
structure LoopState.Acts (s : LoopState) (f : Framer UInt8) : Prop where
  tracks : s.Tracks f
  actions : s.actions = f.frames.flatMap lineActions

/-- A byte. -/
theorem LoopState.Acts.byte {s : LoopState} {f : Framer UInt8} (h : s.Acts f)
    (prev : Option UInt8) (c : UInt8) :
    (ircByte prev c s).Acts (f.feed 513 (c, decide (prev = some 13 ∧ c = 10))) := by
  refine ⟨h.tracks.byte prev c, ?_⟩
  obtain ⟨-, ho, hroom, hbuf⟩ := h.tracks
  have hsnoc := hbuf.snoc c
  rw [show (0 : Int) + f.pending.length = s.o + 1 by omega] at hsnoc
  have hmax : s.o + 1 = 512 ↔ f.pending.length + 1 = 513 := by omega
  unfold ircByte Framer.feed
  simp only [decide_eq_true_eq, hmax]
  split
  · next hend =>
    have hline : 2 ≤ (f.pending ++ [c]).length ∨ f.pending ++ [c] = [10] := by
      rcases hend with ⟨-, rfl⟩ | hfull
      · cases f.pending with
        | nil => exact .inr rfl
        | cons b pending => exact .inl (by simp)
      · exact .inl (by simp; omega)
    have hacts := ircLine_eq_lineActions s.nickbuf hsnoc (by simp; omega) hline
    rw [show (((f.pending ++ [c]).length : Nat) : Int) - 1 = s.o + 1 by simp; omega] at hacts
    rw [List.flatMap_append, List.flatMap_singleton, ← hacts, h.actions, terminator]
    simp only [hmax]
  · exact h.actions

/-- A chunk. -/
theorem LoopState.Acts.bytes (rbuf : List UInt8) : ∀ {s : LoopState} {f : Framer UInt8}
    (prev : Option UInt8), s.Acts f →
      (ircBytes prev rbuf s).Acts (f.run 513 (chunkMarks prev rbuf)) := by
  induction rbuf with
  | nil => exact fun _ h => h
  | cons c rbuf ih => exact fun prev h => ih (some c) (h.byte prev c)

/-- All chunks. -/
theorem ircLoop_acts (chunks : List Chunk) : ∀ {s : LoopState} {f : Framer UInt8}, s.Acts f →
    (ircLoop (received chunks) s).Acts
      (f.run 513 (chunks.flatMap fun chunk => chunkMarks none chunk.rbuf)) := by
  induction chunks with
  | nil => exact fun h => h
  | cons chunk chunks ih =>
    intro s f h
    rw [List.flatMap_cons, Framer.run_append]
    exact ih (h.bytes chunk.rbuf none)

/-- What `irc_loop` has done is, line by line, what each of its lines asks for. -/
theorem ircLoop_actions (buf nickbuf : Mem) (chunks : List Chunk) :
    (ircLoop (received chunks) (.init buf nickbuf)).actions =
      (ircLoop (received chunks) (.init buf nickbuf)).lines.flatMap lineActions := by
  have h := ircLoop_acts chunks (s := .init buf nickbuf) ⟨LoopState.init_tracks buf nickbuf, rfl⟩
  rw [h.actions, h.tracks.lines]

end MinervaBot
