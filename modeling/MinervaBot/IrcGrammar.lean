import MinervaBot.IrcActions

/-!
# The grammar of the lines

The scan of `irc_loop` finds a message in a line that reads, behind its first colon, three words
with a space behind each, and a fourth word in which a colon comes before any further space
(`Parts`). `lineActions_parts` says what is done for such a line, whatever its bytes, and
`exists_parts` that `modules_check_cmd` is called for no other line.

Two comparisons with the protocol follow. Every stream of well-formed `PING`, `PRIVMSG` and `NOTICE`
lines is handled as it was meant (`ircLoop_roundTrip`). The converse, that only well-formed lines
reach `modules_check_cmd`, and with their whole message, holds of a line exactly when it is not one
of three kinds of other lines (`callsOnlyCommands_iff`).
-/

namespace MinervaBot

open Lib

/-! ## Scanning words -/

section
variable {l j : Int} {n : Nat} {p : IrcScan} {w rest : List UInt8}

/-- The scan passes over bytes that are no separators. -/
theorem ircScanLoop_skip (n : Nat) : ∀ {w : List UInt8} {j : Int}, p.buf.HasBytes j w → 32 ∉ w →
    (p.wordcount = 3 → 58 ∉ w) →
    ircScanLoop l (w.length + n) j p = ircScanLoop l n (j + w.length) p := by
  intro w
  induction w with
  | nil => intro j _ _ _; simp
  | cons c w ih =>
    intro j hbuf hspace hcolon
    obtain ⟨hc, hbuf⟩ := (Mem.hasBytes_append (b := [c])).1 hbuf
    have hc : p.buf j = c := by simpa using hc 0 (by simp)
    have hrest := ih hbuf (fun h => hspace (.tail _ h)) fun h3 h => hcolon h3 (.tail _ h)
    rw [List.length_cons, show w.length + 1 + n = w.length + n + 1 by omega,
      ircScanLoop_other (fun h => hspace (hc ▸ h ▸ .head _))
        fun h => hcolon h.2 (hc ▸ h.1 ▸ .head _)]
    rw [List.length_singleton] at hrest
    rw [show j + ((w.length + 1 : Nat) : Int) = j + (1 : Nat) + w.length by omega, ← hrest]
    rfl

/-- The scan of a word and the space behind it. -/
theorem ircScanLoop_word (hbuf : p.buf.HasBytes j (w ++ 32 :: rest)) (hspace : 32 ∉ w)
    (hcolon : p.wordcount = 3 → 58 ∉ w) :
    ircScanLoop l (w.length + (n + 1)) j p =
        ircScanLoop l n (j + w.length + 1) (p.space l (j + w.length)) ∧
      (p.space l (j + w.length)).buf.HasBytes j (w ++ [0]) ∧
      (p.space l (j + w.length)).buf.HasBytes (j + w.length + 1) rest := by
  obtain ⟨hw, hrest⟩ := Mem.hasBytes_append.1 hbuf
  obtain ⟨hsep, hrest⟩ := (Mem.hasBytes_append (b := [32])).1 hrest
  have hsep : p.buf (j + w.length) = 32 := by simpa using hsep 0 (by simp)
  refine ⟨?_, hw.snoc 0, hrest.write 0 (.inl (by simp))⟩
  rw [ircScanLoop_skip (n + 1) hw hspace hcolon, ircScanLoop_space hsep]

/-- After the fourth space no message is found any more. -/
theorem ircScanLoop_message_none (n : Nat) : ∀ {j : Int} {p : IrcScan}, 4 ≤ p.wordcount →
    p.message = none → (ircScanLoop l n j p).message = none := by
  induction n with
  | zero => exact fun _ h => h
  | succ n ih =>
    intro j p hcount hmessage
    by_cases hspace : p.buf j = 32
    · rw [ircScanLoop_space hspace]
      exact ih (Nat.le_succ_of_le hcount) hmessage
    · rw [ircScanLoop_other hspace fun h => by omega]
      exact ih hcount hmessage

/-- Before the third space, a message is found behind another space only. -/
theorem ircScanLoop_next (hbuf : p.buf.HasBytes j (rest ++ [0])) (hcount : p.wordcount < 3)
    (hnone : p.message = none) (hmessage : (ircScanLoop l (rest.length + 1) j p).message ≠ none) :
    ∃ w rest', rest = w ++ 32 :: rest' ∧ 32 ∉ w ∧
      ircScanLoop l (rest.length + 1) j p =
        ircScanLoop l (rest'.length + 1) (j + w.length + 1) (p.space l (j + w.length)) ∧
      (p.space l (j + w.length)).buf.HasBytes (j + w.length + 1) (rest' ++ [0]) := by
  by_cases hspace : 32 ∈ rest
  · obtain ⟨w, rest', rfl, hw⟩ := List.eq_append_cons_of_mem hspace
    rw [List.append_assoc, List.cons_append] at hbuf
    obtain ⟨hscan, -, hbuf'⟩ := ircScanLoop_word (l := l) (n := rest'.length + 1) hbuf hw
      fun h => by omega
    refine ⟨w, rest', rfl, hw, ?_, hbuf'⟩
    rw [← hscan, List.length_append, List.length_cons, Nat.add_assoc]
  · have hskip := ircScanLoop_skip (l := l) 0 hbuf (by simpa using hspace) fun h => by omega
    rw [List.length_append] at hskip
    exact absurd ((congrArg IrcScan.message hskip).trans hnone) hmessage

/-- After the third space, a message is found behind a colon that comes before any other space. -/
theorem ircScanLoop_fourth (hbuf : p.buf.HasBytes j (rest ++ [0])) (hcount : p.wordcount = 3)
    (hnone : p.message = none) (hmessage : (ircScanLoop l (rest.length + 1) j p).message ≠ none) :
    ∃ w trailing, rest = w ++ 58 :: trailing ∧ 32 ∉ w ∧ 58 ∉ w := by
  by_cases hcolon : 58 ∈ rest
  · obtain ⟨w, trailing, rfl, hw⟩ := List.eq_append_cons_of_mem hcolon
    by_cases hspace : 32 ∈ w
    · obtain ⟨w₁, w₂, rfl, hw₁⟩ := List.eq_append_cons_of_mem hspace
      have hbuf₁ : p.buf.HasBytes j (w₁ ++ 32 :: (w₂ ++ 58 :: trailing ++ [0])) := by
        simpa using hbuf
      obtain ⟨hscan, -, -⟩ := ircScanLoop_word (l := l) (n := (w₂ ++ 58 :: trailing).length + 1)
        hbuf₁ hw₁ fun _ h => hw (by simp [h])
      refine absurd ?_ hmessage
      rw [show (w₁ ++ 32 :: w₂ ++ 58 :: trailing).length + 1 =
        w₁.length + ((w₂ ++ 58 :: trailing).length + 1 + 1) by simp; omega, hscan]
      exact ircScanLoop_message_none _ (by simp [IrcScan.space, hcount]) hnone
    · exact ⟨w, trailing, rfl, hspace, hw⟩
  · refine absurd ?_ hmessage
    by_cases hspace : 32 ∈ rest
    · obtain ⟨w, rest', rfl, hw⟩ := List.eq_append_cons_of_mem hspace
      rw [List.append_assoc, List.cons_append] at hbuf
      obtain ⟨hscan, -, -⟩ := ircScanLoop_word (l := l) (n := rest'.length + 1) hbuf hw
        fun _ h => hcolon (by simp [h])
      rw [List.length_append, List.length_cons, Nat.add_assoc, hscan]
      exact ircScanLoop_message_none _ (by simp [IrcScan.space, hcount]) hnone
    · have hskip := ircScanLoop_skip (l := l) 0 hbuf (by simpa using hspace)
        fun _ => by simpa using hcolon
      rw [List.length_append] at hskip
      exact (congrArg IrcScan.message hskip).trans hnone

end

/-! ## The lines with a message -/

/-- A line in which the scan finds a message. -/
structure Parts where
  user : List UInt8
  command : List UInt8
  where' : List UInt8
  middle : List UInt8
  trailing : List UInt8
  user_space : 32 ∉ user
  command_space : 32 ∉ command
  where_space : 32 ∉ where'
  middle_space : 32 ∉ middle
  middle_colon : 58 ∉ middle

/-- The bytes of the line before its CR LF. -/
def Parts.line (q : Parts) : List UInt8 :=
  58 :: (q.user ++ 32 :: (q.command ++ 32 :: (q.where' ++ 32 :: (q.middle ++ 58 :: q.trailing))))

/-- What is done for the line. The strings end at their first NUL. -/
def Parts.actions (q : Parts) : List IrcAction :=
  if startsWith (CString.lit "PRIVMSG") (CString.ofBytes q.command) ∨
      startsWith (CString.lit "NOTICE") (CString.ofBytes q.command) then
    [.modulesCheckCmd (CString.ofBytes q.user)
      (targetOf (CString.ofBytes q.user) (CString.ofBytes q.where'))
      (CString.ofBytes q.trailing)]
  else []

/-- A line of at most 512 bytes, and the buffer in which its actions are read off. -/
theorem lineActions_withCrLf {b : List UInt8} (hlen : b.length ≤ 510) :
    ∃ buf : Mem, buf.HasBytes 0 (b ++ [0]) ∧
      lineActions (withCrLf b) = (ircLine (b.length + 1) buf fun _ => 0).2.2 := by
  have hbuf : (Mem.copy (fun _ => 0) 0 (withCrLf b)).HasBytes 0 b :=
    (Mem.hasBytes_append.1 (Mem.copy_hasBytes _ 0 (withCrLf b))).1
  refine ⟨_, hbuf.snoc 0, ?_⟩
  have ho : (((withCrLf b).length : Nat) : Int) - 1 = b.length + 1 := by
    rw [withCrLf, List.length_append, List.length_cons, List.length_singleton]
    omega
  have ht : terminator ((b.length : Int) + 1) = 0 + b.length := by
    rw [terminator, if_neg (by omega)]
    omega
  simp only [lineActions, ho, ht]

section
variable {buf : Mem} {b : List UInt8}

/-- The string at the start of a part of a line. -/
theorem bufStr_ofBytes {p : Int} (h : buf.HasBytes p (b ++ [0])) (hroom : p + b.length ≤ 513) :
    bufStr buf p = CString.ofBytes b :=
  Mem.cstr_ofBytes h (by omega)

/-- A line starts with `PING` only if its first byte is a `P`. -/
theorem not_ping {c : UInt8} (h : buf 0 = c) (hc : c ≠ 80) :
    ¬ startsWith (CString.lit "PING") (bufStr buf 0) := by
  intro hping
  have hhead := head?_bufStr buf (p := 0) (by omega)
  have hfirst := congrArg List.head? hping
  rw [show (CString.lit "PING").length = 3 + 1 by decide,
    show (CString.lit "PING").bytes.head? = some 80 by decide] at hfirst
  cases hbytes : (bufStr buf 0).bytes with
  | nil => rw [hbytes] at hfirst; cases hfirst
  | cons x rest =>
    rw [hbytes, List.take_succ_cons, List.head?_cons] at hfirst
    rw [hbytes, List.head?_cons, hfirst, h] at hhead
    split at hhead
    · cases hhead
    · exact hc (Option.some.inj hhead).symm

/-- Without a message nothing is done. -/
theorem IrcScan.actions_eq_nil {p : IrcScan} (h : p.message = none) : p.actions = [] := by
  obtain ⟨buf, wordcount, user, command, where', message, start⟩ := p
  obtain rfl : message = none := h
  rcases user with - | user
  · rfl
  rcases command with - | command
  · rfl
  rcases where' with - | where'
  · rfl
  · rfl

end

/-- The scan of a line with a message, word by word: where the pointers point in the end. -/
theorem ircScanLoop_parts (q : Parts) {buf : Mem} {l : Int} (hl : l = q.line.length + 1)
    (hbuf : buf.HasBytes 0 (q.line ++ [0])) :
    ∃ (p : IrcScan) (user command where' message : Int),
      ircScanLoop l (l - 1).toNat 1 { buf } = p ∧ p.wordcount = 3 ∧
      (p.user = some user ∧ p.buf.HasBytes user (q.user ++ [0])) ∧
      (p.command = some command ∧ p.buf.HasBytes command (q.command ++ [0])) ∧
      (p.where' = some where' ∧ p.buf.HasBytes where' (q.where' ++ [0])) ∧
      (p.message = some message ∧ p.buf.HasBytes message (q.trailing ++ [0])) ∧
      user + q.user.length ≤ l ∧ command + q.command.length ≤ l ∧
      where' + q.where'.length ≤ l ∧ message + q.trailing.length ≤ l := by
  obtain ⟨u, c, w, m, t, hu, hc, hw, hm, hcolon⟩ := q
  simp only [Parts.line] at hl hbuf ⊢
  simp only [List.length_cons, List.length_append] at hl
  have hline : 58 :: (u ++ 32 :: (c ++ 32 :: (w ++ 32 :: (m ++ 58 :: t)))) ++ [0] =
      [58] ++ (u ++ 32 :: (c ++ 32 :: (w ++ 32 :: (m ++ 58 :: (t ++ [0]))))) := by
    simp
  rw [hline] at hbuf
  obtain ⟨-, hbuf⟩ := Mem.hasBytes_append.1 hbuf
  rw [List.length_singleton, Int.zero_add, Nat.cast_one] at hbuf
  rw [show (l - 1).toNat = u.length + (c.length + (w.length + (m.length + (t.length + 1 + 1)
    + 1) + 1) + 1) by omega]
  obtain ⟨h₁, hu₁, hbuf₁⟩ := ircScanLoop_word (l := l) (p := { buf })
    (n := c.length + (w.length + (m.length + (t.length + 1 + 1) + 1) + 1)) hbuf hu (by simp)
  generalize hp₁ : IrcScan.space l _ _ = p₁ at h₁ hu₁ hbuf₁
  obtain ⟨h₂, hc₂, hbuf₂⟩ := ircScanLoop_word (l := l)
    (n := w.length + (m.length + (t.length + 1 + 1) + 1)) hbuf₁ hc (by simp [← hp₁, IrcScan.space])
  generalize hp₂ : IrcScan.space l _ _ = p₂ at h₂ hc₂ hbuf₂
  obtain ⟨h₃, hw₃, hbuf₃⟩ := ircScanLoop_word (l := l) (n := m.length + (t.length + 1 + 1)) hbuf₂ hw
    (by simp [← hp₂, ← hp₁, IrcScan.space])
  generalize hp₃ : IrcScan.space l _ _ = p₃ at h₃ hw₃ hbuf₃
  obtain ⟨hm₃, ht₃⟩ := Mem.hasBytes_append.1 hbuf₃
  obtain ⟨h58, ht₃⟩ := (Mem.hasBytes_append (b := [58])).1 ht₃
  have h58 : p₃.buf (1 + u.length + 1 + c.length + 1 + w.length + 1 + m.length) = 58 := by
    simpa using h58 0 (by simp)
  rw [List.length_singleton, Nat.cast_one] at ht₃
  have hcount : p₃.wordcount = 3 := by simp [← hp₃, ← hp₂, ← hp₁, IrcScan.space]
  rw [h₁, h₂, h₃, ircScanLoop_skip (t.length + 1 + 1) hm₃ hm fun _ => hcolon,
    ircScanLoop_colon h58 hcount]
  -- what stands before a space is not touched by the NULs written behind it
  have hu₃ : p₃.buf.HasBytes 1 (u ++ [0]) := by
    rw [← hp₃, ← hp₂]
    exact (hu₁.write 0 (.inr (by simp; omega))).write 0 (.inr (by simp; omega))
  have hc₃ : p₃.buf.HasBytes (1 + u.length + 1) (c ++ [0]) := by
    rw [← hp₃]
    exact hc₂.write 0 (.inr (by simp; omega))
  have hstart₁ : p₁.start = 1 + u.length + 1 := by
    rw [← hp₁]
    exact if_neg (by omega)
  have hstart₂ : p₂.start = 1 + u.length + 1 + c.length + 1 := by
    rw [← hp₂]
    exact if_neg (by omega)
  have huser : p₃.user = some 1 := by simp [← hp₃, ← hp₂, ← hp₁, IrcScan.space]
  have hcommand : p₃.command = some ((1 : Int) + u.length + 1) := by
    simp [← hp₃, ← hp₂, ← hp₁, IrcScan.space] at hstart₁ ⊢
    exact hstart₁
  have hwhere : p₃.where' = some ((1 : Int) + u.length + 1 + c.length + 1) := by
    have hcount₂ : p₂.wordcount = 2 := by simp [← hp₂, ← hp₁, IrcScan.space]
    rw [← hp₃, ← hstart₂]
    exact if_pos hcount₂
  have hmessage : (p₃.colon l (1 + u.length + 1 + c.length + 1 + w.length + 1 + m.length)).message =
      some ((1 : Int) + u.length + 1 + c.length + 1 + w.length + 1 + m.length + 1) :=
    if_pos (by omega)
  exact ⟨_, 1, 1 + u.length + 1, 1 + u.length + 1 + c.length + 1,
    1 + u.length + 1 + c.length + 1 + w.length + 1 + m.length + 1, rfl, hcount,
    ⟨huser, hu₃⟩, ⟨hcommand, hc₃⟩, ⟨hwhere, hw₃⟩, ⟨hmessage, ht₃⟩,
    by omega, by omega, by omega, by omega⟩

/-- What is done for a line with a message. -/
theorem lineActions_parts (q : Parts) (hlen : q.line.length ≤ 510) :
    lineActions (withCrLf q.line) = q.actions := by
  obtain ⟨buf, hbuf, hacts⟩ := lineActions_withCrLf hlen
  obtain ⟨p, user, command, where', message, hscan, hcount, ⟨huser, hu⟩, ⟨hcommand, hc⟩,
    ⟨hwhere, hw⟩, ⟨hmessage, ht⟩, hroomu, hroomc, hroomw, hroomt⟩ := ircScanLoop_parts q rfl hbuf
  have hfirst : buf 0 = 58 := hbuf 0 (by simp)
  have hnul : buf q.line.length = 0 := by
    simpa using (Mem.hasBytes_append.1 hbuf).2 0 (by simp)
  rw [hacts, ircLine_colon _ (by omega) (Int.le_refl _) (by omega) hnul
    (not_ping hfirst (by decide)) hfirst, hscan]
  rw [IrcScan.actions, huser, hcommand, hwhere, hmessage]
  simp only
  rw [bufStr_ofBytes hu (by omega), bufStr_ofBytes hc (by omega), bufStr_ofBytes hw (by omega),
    bufStr_ofBytes ht (by omega), hcount, if_neg (by decide), Parts.actions]

/-- The scan finds a message in no other line that starts with a colon. -/
theorem exists_parts_of_message {rest : List UInt8} {buf : Mem} {l : Int}
    (hl : l = (58 :: rest).length + 1) (hbuf : buf.HasBytes 0 (58 :: rest ++ [0]))
    (hmessage : (ircScanLoop l (l - 1).toNat 1 { buf }).message ≠ none) :
    ∃ q : Parts, 58 :: rest = q.line := by
  obtain ⟨-, hbuf⟩ := (Mem.hasBytes_append (b := [58])).1 hbuf
  rw [List.length_singleton, Int.zero_add, Nat.cast_one] at hbuf
  rw [show (l - 1).toNat = rest.length + 1 by rw [hl, List.length_cons]; omega] at hmessage
  obtain ⟨u, rest₁, rfl, hu, h₁, hbuf₁⟩ := ircScanLoop_next (p := { buf }) hbuf (by simp) rfl
    hmessage
  rw [h₁] at hmessage
  obtain ⟨c, rest₂, rfl, hc, h₂, hbuf₂⟩ := ircScanLoop_next hbuf₁ (by simp [IrcScan.space]) rfl
    hmessage
  rw [h₂] at hmessage
  obtain ⟨w, rest₃, rfl, hw, h₃, hbuf₃⟩ := ircScanLoop_next hbuf₂ (by simp [IrcScan.space]) rfl
    hmessage
  rw [h₃] at hmessage
  obtain ⟨m, t, rfl, hm, hcolon⟩ := ircScanLoop_fourth hbuf₃ (by simp [IrcScan.space]) rfl hmessage
  exact ⟨⟨u, c, w, m, t, hu, hc, hw, hm, hcolon⟩, rfl⟩

/-- `modules_check_cmd` is called for lines with a message only. -/
theorem exists_parts {b : List UInt8} (hlen : b.length ≤ 510) {user target message : CString}
    (h : .modulesCheckCmd user target message ∈ lineActions (withCrLf b)) :
    ∃ q : Parts, b = q.line := by
  obtain ⟨buf, hbuf, hacts⟩ := lineActions_withCrLf hlen
  have hnul : buf b.length = 0 := by
    simpa using (Mem.hasBytes_append.1 hbuf).2 0 (by simp)
  rw [hacts] at h
  by_cases hping : startsWith (CString.lit "PING") (bufStr buf 0)
  · rw [ircLine_ping _ hping] at h
    simp at h
  · by_cases hcolon : buf 0 = 58
    · rw [ircLine_colon _ (by omega) (Int.le_refl _) (by omega) hnul hping hcolon] at h
      cases b with
      | nil =>
        have hzero : buf 0 = 0 := hnul
        rw [hzero] at hcolon
        cases hcolon
      | cons c rest =>
        obtain rfl : c = 58 := (hbuf 0 (by simp)).symm.trans hcolon
        refine exists_parts_of_message rfl hbuf fun hnone => ?_
        rw [IrcScan.actions_eq_nil hnone] at h
        cases h
    · rw [ircLine_other _ hping hcolon] at h
      cases h

/-! ## Round trip -/

/-- A text as it stands at the end of a line. -/
structure LineText where
  text : CString
  noBreak : 13 ∉ text.bytes ∧ 10 ∉ text.bytes

/-- A word of a line. -/
structure LineWord extends LineText where
  nonempty : text.bytes ≠ []
  noSpace : 32 ∉ text.bytes

/-- The lines a server sends that the bot reacts to. -/
inductive ServerLine where
  | ping (rest : LineText)
  | privmsg (user where' : LineWord) (message : LineText)
  | notice (user where' : LineWord) (message : LineText)

/-- A message as a line, with its command word. -/
def encodeMessage (command : CString) (user where' : LineWord) (message : LineText) : CString :=
  CString.lit ":" ++ (user.text ++ (CString.lit " " ++ (command ++ (CString.lit " " ++
    (where'.text ++ (CString.lit " :" ++ message.text))))))

/-- A line before its CR LF. -/
def ServerLine.encode : ServerLine → CString
  | .ping rest => CString.lit "PING" ++ rest.text
  | .privmsg user where' message => encodeMessage (CString.lit "PRIVMSG") user where' message
  | .notice user where' message => encodeMessage (CString.lit "NOTICE") user where' message

/-- What the bot is to do for a line. -/
def ServerLine.meaning : ServerLine → List IrcAction
  | .ping rest => [.netRaws (CString.lit "PONG" ++ rest.text), .netRaws (CString.lit "\r\n")]
  | .privmsg user where' message | .notice user where' message =>
    [.modulesCheckCmd user.text (targetOf user.text where'.text) message.text]

/-- An encoded message as a line in which the scan finds a message. -/
def messageParts (command : CString) (hcommand : 32 ∉ command.bytes) (user where' : LineWord)
    (message : LineText) : Parts where
  user := user.text.bytes
  command := command.bytes
  where' := where'.text.bytes
  middle := []
  trailing := message.text.bytes
  user_space := user.noSpace
  command_space := hcommand
  where_space := where'.noSpace
  middle_space := by simp
  middle_colon := by simp

/-- The bytes of an encoded message. -/
theorem bytes_encodeMessage (command : CString) (hcommand : 32 ∉ command.bytes)
    (user where' : LineWord) (message : LineText) :
    (encodeMessage command user where' message).bytes =
      (messageParts command hcommand user where' message).line := by
  have hcolon : (CString.lit ":").bytes = [58] := by decide
  have hspace : (CString.lit " ").bytes = [32] := by decide
  have hboth : (CString.lit " :").bytes = [32, 58] := by decide
  simp only [encodeMessage, CString.bytes_append, hcolon, hspace, hboth, messageParts, Parts.line]
  rfl

/-- A message is handled as it was meant. -/
theorem lineActions_message {command : CString}
    (hcommand : command = CString.lit "PRIVMSG" ∨ command = CString.lit "NOTICE")
    (user where' : LineWord) (message : LineText)
    (hlen : (encodeMessage command user where' message).bytes.length ≤ 510) :
    lineActions (withCrLf (encodeMessage command user where' message).bytes) =
      [.modulesCheckCmd user.text (targetOf user.text where'.text) message.text] := by
  have hspace : 32 ∉ command.bytes := by
    rcases hcommand with rfl | rfl <;> decide
  have hstarts : startsWith (CString.lit "PRIVMSG") command ∨
      startsWith (CString.lit "NOTICE") command := by
    rcases hcommand with rfl | rfl <;> decide
  rw [bytes_encodeMessage command hspace] at hlen ⊢
  rw [lineActions_parts _ hlen, Parts.actions]
  simp only [messageParts, CString.ofBytes_bytes, if_pos hstarts]

/-- `PING` is answered. -/
theorem lineActions_ping (rest : CString) (hlen : (CString.lit "PING" ++ rest).bytes.length ≤ 510) :
    lineActions (withCrLf (CString.lit "PING" ++ rest).bytes) =
      [.netRaws (CString.lit "PONG" ++ rest), .netRaws (CString.lit "\r\n")] := by
  have hping : (CString.lit "PING" ++ rest).bytes = [80] ++ ([73] ++ ([78, 71] ++ rest.bytes)) := by
    rw [CString.bytes_append, show (CString.lit "PING").bytes = [80, 73, 78, 71] by decide]
    rfl
  have hpong : (CString.lit "PONG" ++ rest).bytes = [80] ++ ([79] ++ ([78, 71] ++ rest.bytes)) := by
    rw [CString.bytes_append, show (CString.lit "PONG").bytes = [80, 79, 78, 71] by decide]
    rfl
  obtain ⟨buf, hbuf, hacts⟩ := lineActions_withCrLf hlen
  have hwrite : (buf.write 1 79).HasBytes 0 ((CString.lit "PONG" ++ rest).bytes ++ [0]) := by
    rw [hping, List.append_assoc, List.append_assoc] at hbuf
    obtain ⟨h₀, hbuf⟩ := Mem.hasBytes_append.1 hbuf
    obtain ⟨-, h₂⟩ := Mem.hasBytes_append.1 hbuf
    rw [hpong, List.append_assoc, List.append_assoc, ← List.append_assoc [80]]
    exact Mem.hasBytes_append.2 ⟨h₀.snoc 79, h₂.write 79 (.inl (by simp))⟩
  have hroom : (CString.lit "PONG" ++ rest).length = (CString.lit "PING" ++ rest).bytes.length := by
    rw [CString.length, hpong, hping]
    rfl
  have hstr : bufStr buf 0 = CString.lit "PING" ++ rest :=
    Mem.cstr_eq hbuf (by rw [CString.length]; omega)
  have hstarts : startsWith (CString.lit "PING") (bufStr buf 0) := by
    rw [hstr, startsWith, CString.bytes_append, CString.length, List.take_left]
  rw [hacts, ircLine_ping _ hstarts, bufStr, Mem.cstr_eq hwrite (by omega)]

/-- A line is handled as it was meant. -/
theorem lineActions_encode (line : ServerLine) (hlen : line.encode.bytes.length ≤ 510) :
    lineActions (withCrLf line.encode.bytes) = line.meaning := by
  cases line with
  | ping rest => exact lineActions_ping rest.text hlen
  | privmsg user where' message => exact lineActions_message (.inl rfl) user where' message hlen
  | notice user where' message => exact lineActions_message (.inr rfl) user where' message hlen

/-- An encoded line has no CR. -/
theorem ServerLine.cr_notMem_encode (line : ServerLine) : 13 ∉ line.encode.bytes := by
  have hmessage : ∀ command : CString, 13 ∉ command.bytes → ∀ (user where' : LineWord)
      (message : LineText), 13 ∉ (encodeMessage command user where' message).bytes := by
    intro command hcommand user where' message
    have hlit : 13 ∉ (CString.lit ":").bytes ∧ 13 ∉ (CString.lit " ").bytes ∧
        13 ∉ (CString.lit " :").bytes := by decide
    simp only [encodeMessage, CString.bytes_append, List.mem_append, not_or]
    exact ⟨hlit.1, user.noBreak.1, hlit.2.1, hcommand, hlit.2.1, where'.noBreak.1, hlit.2.2,
      message.noBreak.1⟩
  cases line with
  | ping rest =>
    rw [encode, CString.bytes_append, List.mem_append, not_or]
    exact ⟨by decide, rest.noBreak.1⟩
  | privmsg user where' message => exact hmessage _ (by decide) user where' message
  | notice user where' message => exact hmessage _ (by decide) user where' message

/-- Without a CR there is no CR LF. -/
theorem noPair_of_cr_notMem {line : List UInt8} (h : 13 ∉ line) : NoPair line := by
  refine List.isChain_iff_forall_rel_of_append_cons_cons.2 ?_
  rintro a b l₁ l₂ rfl ⟨rfl, -⟩
  exact h (by simp)

/-- Every stream of well-formed lines of at most 512 bytes, each received with its CR and LF in one
chunk, is handled line by line as it was meant. -/
theorem ircLoop_roundTrip (buf nickbuf : Mem) {lines : List ServerLine} {chunks : List Chunk}
    (hlen : ∀ line ∈ lines, (withCrLf line.encode.bytes).length ≤ 512)
    (hcut : (chunks.map (·.rbuf)).flatten = lines.flatMap fun line => withCrLf line.encode.bytes)
    (hborders : BordersOutside (chunks.map (·.rbuf))) :
    (ircLoop (received chunks) (.init buf nickbuf)).actions =
      lines.flatMap ServerLine.meaning := by
  have hlines := (@ircLoop_lines_iff buf nickbuf (lines.map fun line => line.encode.bytes) chunks
    (by simpa using hlen) ?_ (by rw [hcut, List.flatMap_map])).2 hborders
  · rw [ircLoop_actions, hlines, List.map_map, List.flatMap_map]
    refine List.flatMap_congr fun line hline => lineActions_encode line ?_
    have hle := hlen line hline
    rw [withCrLf, List.length_append, List.length_cons, List.length_singleton] at hle
    omega
  · intro b hb
    obtain ⟨line, -, rfl⟩ := List.mem_map.1 hb
    exact noPair_of_cr_notMem line.cr_notMem_encode

/-- Two messages and a `PING` in one chunk: an empty one to the bot, one to a channel. -/
theorem ircLoop_roundTrip_three :
    (ircLoop (received [⟨(CString.lit ":a!b PRIVMSG bot :\r\nPING x\r\n").bytes, by decide, by decide⟩,
        ⟨(CString.lit ":a NOTICE #c :,hi :b\r\n").bytes, by decide, by decide⟩])
      (.init (fun _ => 0) fun _ => 0)).actions =
      [.modulesCheckCmd (CString.lit "a!b") (CString.lit "a") (CString.lit ""),
        .netRaws (CString.lit "PONG x"), .netRaws (CString.lit "\r\n"),
        .modulesCheckCmd (CString.lit "a") (CString.lit "#c") (CString.lit ",hi :b")] := by
  have hrun := @ircLoop_roundTrip (fun _ => 0) (fun _ => 0)
    [.privmsg ⟨⟨CString.lit "a!b", by decide⟩, by decide, by decide⟩
        ⟨⟨CString.lit "bot", by decide⟩, by decide, by decide⟩ ⟨CString.lit "", by decide⟩,
      .ping ⟨CString.lit " x", by decide⟩,
      .notice ⟨⟨CString.lit "a", by decide⟩, by decide, by decide⟩
        ⟨⟨CString.lit "#c", by decide⟩, by decide, by decide⟩ ⟨CString.lit ",hi :b", by decide⟩]
    [⟨(CString.lit ":a!b PRIVMSG bot :\r\nPING x\r\n").bytes, by decide, by decide⟩,
      ⟨(CString.lit ":a NOTICE #c :,hi :b\r\n").bytes, by decide, by decide⟩]
    (by decide) (by decide) (by unfold BordersOutside; decide)
  exact hrun.trans (by decide)

/-! ## Nothing else is accepted -/

/-- A line before its CR LF that is a command, with its trailing text. -/
def IsCommand (b trailing : List UInt8) : Prop :=
  ∃ user command where' : List UInt8,
    b = 58 :: (user ++ 32 :: (command ++ 32 :: (where' ++ 32 :: 58 :: trailing))) ∧
    (command = (CString.lit "PRIVMSG").bytes ∨ command = (CString.lit "NOTICE").bytes) ∧
    32 ∉ user ∧ 32 ∉ where'

/-- For the line, `modules_check_cmd` is called only if the line is a command, and with its whole
trailing text. -/
def CallsOnlyCommands (b : List UInt8) : Prop :=
  ∀ user target message, .modulesCheckCmd user target message ∈ lineActions (withCrLf b) →
    IsCommand b message.bytes

/-- If the scan finds a message in the line and its command word begins with `PRIVMSG` or `NOTICE`,
then the word is no longer than that, the colon stands directly behind the third space, and there is
no NUL behind it. -/
def NoLookalike (b : List UInt8) : Prop :=
  ∀ q : Parts, b = q.line →
    (startsWith (CString.lit "PRIVMSG") (CString.ofBytes q.command) ∨
      startsWith (CString.lit "NOTICE") (CString.ofBytes q.command)) →
    (q.command = (CString.lit "PRIVMSG").bytes ∨ q.command = (CString.lit "NOTICE").bytes) ∧
      q.middle = [] ∧ 0 ∉ q.trailing

/-- A list splits at the first occurrence of a separator in one way. -/
theorem split_unique {A : Type} {c : A} {w w' r r' : List A} (h : c ∉ w) (h' : c ∉ w')
    (heq : w ++ c :: r = w' ++ c :: r') : w = w' ∧ r = r' := by
  rcases List.append_eq_append_iff.1 heq with ⟨d, rfl, hd⟩ | ⟨d, rfl, hd⟩
  · cases d with
    | nil => exact ⟨(List.append_nil w).symm, (List.cons.inj hd).2⟩
    | cons x d =>
      obtain ⟨rfl, -⟩ := List.cons.inj hd
      exact absurd (by simp) h'
  · cases d with
    | nil => exact ⟨List.append_nil w', (List.cons.inj hd).2.symm⟩
    | cons x d =>
      obtain ⟨rfl, -⟩ := List.cons.inj hd
      exact absurd (by simp) h

/-- All of a list is in the string that starts at it only if it has no NUL. -/
theorem nul_notMem_of_ofBytes {b : List UInt8} (h : (CString.ofBytes b).bytes = b) : 0 ∉ b :=
  h ▸ (CString.ofBytes b).noNul

/-- A command word is without spaces. -/
theorem space_notMem_command {command : List UInt8}
    (h : command = (CString.lit "PRIVMSG").bytes ∨ command = (CString.lit "NOTICE").bytes) :
    32 ∉ command := by
  rcases h with rfl | rfl <;> decide

/-- A line of at most 512 bytes reaches `modules_check_cmd` as a command only, and with its whole
trailing text, exactly if it is no look-alike of a command. -/
theorem callsOnlyCommands_iff_noLookalike {b : List UInt8} (hlen : b.length ≤ 510) :
    CallsOnlyCommands b ↔ NoLookalike b := by
  constructor
  · rintro h q rfl hstarts
    have hcall := lineActions_parts q hlen
    rw [Parts.actions, if_pos hstarts] at hcall
    obtain ⟨user, command, where', hline, hcommand, huser, hwhere⟩ :=
      h _ _ _ (hcall ▸ List.mem_singleton_self _)
    obtain ⟨-, hrest⟩ := split_unique q.user_space huser (List.cons.inj hline).2
    obtain ⟨hword, hrest⟩ := split_unique q.command_space (space_notMem_command hcommand) hrest
    obtain ⟨-, hrest⟩ := split_unique q.where_space hwhere hrest
    obtain ⟨hmiddle, htrailing⟩ := split_unique q.middle_colon List.not_mem_nil hrest
    exact ⟨hword ▸ hcommand, hmiddle, nul_notMem_of_ofBytes htrailing.symm⟩
  · intro h user target message hcall
    obtain ⟨q, rfl⟩ := exists_parts hlen hcall
    rw [lineActions_parts q hlen, Parts.actions] at hcall
    split at hcall
    · next hstarts =>
      obtain ⟨hcommand, hmiddle, hnul⟩ := h q rfl hstarts
      obtain rfl : message = CString.ofBytes q.trailing := by
        rw [List.mem_singleton] at hcall
        exact (IrcAction.modulesCheckCmd.inj hcall).2.2
      refine ⟨q.user, q.command, q.where', ?_, hcommand, q.user_space, q.where_space⟩
      rw [CString.bytes_ofBytes hnul, Parts.line, hmiddle, List.nil_append]
    · cases hcall

/-- In every connection `irc_loop` does, line by line, what the lines ask for, and a line of at most
512 bytes asks for `modules_check_cmd` as a command only, and with its whole trailing text, exactly
if it is no look-alike of a command. -/
theorem callsOnlyCommands_iff (buf nickbuf : Mem) (chunks : List Chunk) :
    (ircLoop (received chunks) (.init buf nickbuf)).actions =
        (ircLoop (received chunks) (.init buf nickbuf)).lines.flatMap lineActions ∧
      ∀ b : List UInt8, (withCrLf b).length ≤ 512 → (CallsOnlyCommands b ↔ NoLookalike b) := by
  refine ⟨ircLoop_actions buf nickbuf chunks, fun b hlen => callsOnlyCommands_iff_noLookalike ?_⟩
  rw [withCrLf, List.length_append, List.length_cons, List.length_singleton] at hlen
  omega

/-- A `JOIN` is no look-alike. -/
theorem callsOnlyCommands_iff_join :
    CallsOnlyCommands (CString.lit ":a JOIN #c :x").bytes := by
  refine ((callsOnlyCommands_iff (fun _ => 0) (fun _ => 0) []).2 _ (by decide)).2 ?_
  intro q hline hstarts
  have hb : (CString.lit ":a JOIN #c :x").bytes =
      58 :: ([97] ++ 32 :: ([74, 79, 73, 78] ++ 32 :: ([35, 99, 32, 58, 120]))) := by
    decide
  rw [hb, Parts.line] at hline
  obtain ⟨-, hline⟩ := split_unique (by decide) q.user_space (List.cons.inj hline).2
  obtain ⟨hcommand, -⟩ := split_unique (by decide) q.command_space hline
  rw [← hcommand] at hstarts
  exact absurd hstarts (by decide)

/-- Three look-alikes in one chunk, a longer command word, a colon inside the fourth word, and a NUL
in the text, and the calls they lead to. -/
theorem callsOnlyCommands_lookalikes :
    (ircLoop (received [⟨(CString.lit ":a PRIVMSGS #c :,x\r\n:a PRIVMSG #c b:,x\r\n").bytes ++
        ((CString.lit ":a NOTICE #c :,x").bytes ++ [0, 121, 13, 10]), by decide, by decide⟩])
      (.init (fun _ => 0) fun _ => 0)).actions =
      List.replicate 3 (.modulesCheckCmd (CString.lit "a") (CString.lit "#c") (CString.lit ",x")) ∧
    ¬ CallsOnlyCommands (CString.lit ":a PRIVMSGS #c :,x").bytes := by
  refine ⟨by decide +kernel, fun h => ?_⟩
  have hline : (CString.lit ":a PRIVMSGS #c :,x").bytes =
      58 :: ([97] ++ 32 :: ((CString.lit "PRIVMSGS").bytes ++ 32 :: [35, 99, 32, 58, 44, 120])) := by
    decide
  have hcall : .modulesCheckCmd (CString.lit "a") (CString.lit "#c") (CString.lit ",x") ∈
      lineActions (withCrLf (CString.lit ":a PRIVMSGS #c :,x").bytes) := by
    decide +kernel
  obtain ⟨user, command, where', hcommand, hword, huser, -⟩ := h _ _ _ hcall
  rw [hline] at hcommand
  obtain ⟨-, hrest⟩ := split_unique (by decide) huser (List.cons.inj hcommand).2
  obtain ⟨hsame, -⟩ := split_unique (by decide) (space_notMem_command hword) hrest
  rw [← hsame] at hword
  exact absurd hword (by decide)

end MinervaBot
