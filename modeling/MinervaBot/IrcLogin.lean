import MinervaBot.Lib.Run
import MinervaBot.Net

/-!
# Logging in

`irc_login` of `irc.c` sends `PASS`, `USER` and `NICK`, then reads lines until one says that the
login succeeded. It does not look for the command of a line: it goes through all bytes behind a
space, takes a `0` there for success and a `4` for a bad nick, and takes a line whose second byte is
an `I` for a `PING`.

`readsRight_iff` tells for every sequence of lines when each of them is read as the protocol means
it.
-/

namespace MinervaBot

open Lib

/-! ## `irc_login` -/

/-- The variables of `irc_login` that outlive a line, and what was handed to `_net_raws`. -/
structure LoginState where
  buf : Mem
  o : Nat
  nick : CString
  loginSuccess : Bool
  sent : List CString

/-- `net_raw` with `"NICK %s\r\n"`. -/
def nickLine (nick : CString) : CString :=
  netRaw (CString.lit "NICK " ++ nick ++ CString.lit "\r\n")

/-- The state before the first `net_recv`, with arbitrary bytes in `buf`. -/
def LoginState.init (buf : Mem) (user realname nick : CString) (password : Option CString) :
    LoginState where
  buf := buf
  o := 0
  nick := nick
  loginSuccess := false
  sent :=
    (password.map fun password =>
      netRaw (CString.lit "PASS " ++ password ++ CString.lit "\r\n")).toList ++
    [netRaw (CString.lit "USER " ++ user ++ CString.lit " 0 0 :" ++ realname ++
      CString.lit "\r\n"), nickLine nick]

/-- The answer to a line whose second byte is an `I`. -/
def LoginState.pong (s : LoginState) : LoginState :=
  let buf := s.buf.write 1 79
  { s with buf, sent := s.sent ++ [netRaw (bufStr buf 0 ++ CString.lit "\r\n")] }

/-- What is done for the byte at `i`, in a chunk of `rl` bytes. -/
def LoginState.code (rl : Nat) (i : Int) (s : LoginState) : LoginState :=
  if s.buf i = 48 then { s with loginSuccess := true }
  else if s.buf i = 52 then
    if i + 2 < rl ∧ s.buf (i + 2) = 51 ∧ s.nick.length < 20 then
      let nick := s.nick ++ CString.lit "_"
      { s with nick, sent := s.sent ++ [nickLine nick] }
    else { s with sent := s.sent ++ [netRaw (CString.lit "NICK bphsd\r\n")] }
  else s

/-- The loop over the bytes of a line, at index `i` with `n` indices to go. -/
def loginScan (rl : Nat) : (n : Nat) → (i : Int) → LoginState → LoginState
  | 0, _, s => s
  | n + 1, i, s =>
    if s.buf (i - 1) = 32 then loginScan rl n (i + 1) (s.code rl i)
    else if s.buf 1 = 73 then loginScan rl n (i + 1) (s.pong.code rl i)
    else loginScan rl n (i + 1) s

/-- The line whose last byte has index `o`. -/
def LoginState.line (rl : Nat) (s : LoginState) : LoginState :=
  { loginScan rl (s.o - 1) 1 { s with buf := s.buf.write s.o 0 } with o := 0 }

/-- The inner loop of `irc_login` at the byte `rbuf[j]`; `prev` is `rbuf[j - 1]` if `j > 0`. -/
def loginByte (rl : Nat) (prev : Option UInt8) (c : UInt8) (s : LoginState) : LoginState :=
  let s := { s with buf := s.buf.write s.o c }
  if (prev = some 13 ∧ c = 10) ∨ s.o = 512 then s.line rl else { s with o := s.o + 1 }

/-- The inner loop of `irc_login` over the rest of a chunk. -/
def loginBytes (rl : Nat) : (prev : Option UInt8) → (rbuf : List UInt8) → LoginState → LoginState
  | _, [], s => s
  | prev, c :: rbuf, s => loginBytes rl (some c) rbuf (loginByte rl prev c s)

/-- The loop of `irc_login` at a result of `net_recv`, and whether it ends there. -/
def loginRecv (s : LoginState) : NetRecv → LoginState × Bool
  | .data chunk =>
    if chunk.rbuf.length > 2 then
      let s := loginBytes chunk.rbuf.length none chunk.rbuf s
      (s, s.loginSuccess)
    else (s, true)
  | .eof => (s, true)
  | .error => (s, true)

/-! ## The lines of a server -/

/-- A line before its CR LF, as a server sends it. -/
structure LoginLine where
  bytes : List UInt8
  nonempty : bytes ≠ []
  length_le : bytes.length ≤ 510
  noNul : 0 ∉ bytes
  noPair : NoPair bytes

/-- The line as one chunk. -/
def LoginLine.chunk (line : LoginLine) : Chunk where
  rbuf := withCrLf line.bytes
  nonempty := by simp [withCrLf]
  length_le := by
    have := line.length_le
    simp [withCrLf]
    omega

/-- From the next word on. -/
def skipSpaces (b : List UInt8) : List UInt8 :=
  b.dropWhile (· == 32)

/-- The word at the beginning. -/
def leadingWord (b : List UInt8) : List UInt8 :=
  b.takeWhile (· != 32)

/-- What stands behind the word at the beginning. -/
def behindWord (b : List UInt8) : List UInt8 :=
  b.dropWhile (· != 32)

/-- The line from its command on: from its second word, if it starts with a colon, else from its
first. -/
def LoginLine.fromCommand (line : LoginLine) : List UInt8 :=
  if line.bytes.head? = some 58 then skipSpaces (behindWord line.bytes)
  else skipSpaces line.bytes

/-- The command. -/
def LoginLine.command (line : LoginLine) : List UInt8 :=
  leadingWord line.fromCommand

/-- What stands behind the command. -/
def LoginLine.rest (line : LoginLine) : List UInt8 :=
  behindWord line.fromCommand

/-- The command is `PING`. -/
def LoginLine.isPing (line : LoginLine) : Prop :=
  line.command = (CString.lit "PING").bytes

/-- The command is a numeric that starts with `d`: three digits. -/
def LoginLine.isNumeric (d : UInt8) (line : LoginLine) : Prop :=
  line.command.length = 3 ∧ line.command.head? = some d ∧ ∀ c ∈ line.command, CString.isdigit c

instance (line : LoginLine) : Decidable line.isPing :=
  inferInstanceAs (Decidable (_ = _))

instance (d : UInt8) (line : LoginLine) : Decidable (line.isNumeric d) :=
  inferInstanceAs (Decidable (_ ∧ _))

/-- What is to be sent for a line: `PONG` and the rest for a `PING`, a `NICK` for a numeric that
starts with `4`, else nothing. -/
def LoginLine.AnsweredBy (line : LoginLine) (replies : List CString) : Prop :=
  if line.isPing then
    ∃ reply : CString, replies = [reply] ∧
      reply.bytes = (CString.lit "PONG").bytes ++ line.rest ++ [13, 10]
  else if line.isNumeric 52 then
    ∃ nick, replies = [CString.lit "NICK " ++ nick ++ CString.lit "\r\n"]
  else replies = []

/-! ## Runs -/

/-- A login that has read some lines. -/
structure LoginRun where
  state : LoginState
  read : List LoginLine

/-- The next line, if `irc_login` has not returned. -/
def loginStep (run : LoginRun) (line : LoginLine) : Option (LoginRun × Unit) :=
  if run.state.loginSuccess then none
  else some (⟨(loginRecv run.state (.data line.chunk)).1, run.read ++ [line]⟩, ())

/-- What was read is understood: the login has succeeded if and only if a numeric that starts with
`0` was read, and behind the lines of the beginning each line was answered in turn. -/
structure LoginRun.Understands (start : List CString) (run : LoginRun) : Prop where
  success : run.state.loginSuccess = true ↔ ∃ line ∈ run.read, line.isNumeric 48
  answers : ∃ replies : List (List CString),
    List.Forall₂ LoginLine.AnsweredBy run.read replies ∧
    run.state.sent = start ++ replies.flatten

/-- The bytes behind a space. -/
def bytesAfterSpace : List UInt8 → List UInt8
  | a :: b :: l => if a = 32 then b :: bytesAfterSpace (b :: l) else bytesAfterSpace (b :: l)
  | _ => []

/-- The second byte is no `I` and the command no `PING`; a byte behind a space is a `0` if and only
if the command is a numeric that starts with `0`; and the bytes behind a space that are a `4` are
one for a numeric that starts with `4`, and else none. -/
structure LoginLine.ReadsRight (line : LoginLine) : Prop where
  second : line.bytes[1]? ≠ some 73
  noPing : ¬ line.isPing
  zero : 48 ∈ bytesAfterSpace line.bytes ↔ line.isNumeric 48
  four : (bytesAfterSpace line.bytes).count 52 = if line.isNumeric 52 then 1 else 0

/-! ## The scan of a line -/

/-- A `NICK` line. -/
def nickText (nick : CString) : CString :=
  CString.lit "NICK " ++ nick ++ CString.lit "\r\n"

/-- A short nick fits into `sbuf`. -/
theorem nickLine_eq {nick : CString} (hlen : nick.length ≤ 20) : nickLine nick = nickText nick := by
  have hnick : (CString.lit "NICK ").length = 5 := by decide
  have hcrlf : (CString.lit "\r\n").length = 2 := by decide
  have hall : (nickText nick).length ≤ 511 := by
    rw [nickText, CString.length_append, CString.length_append]
    omega
  exact CString.ext (List.take_of_length_le hall)

section
variable {rl n : Nat} {i : Int} {s : LoginState} {b : List UInt8}

/-- What one byte behind a space does: a `4` sends a `NICK`, a `0` is success. -/
theorem LoginState.code_effect (rl : Nat) (i : Int) (s : LoginState) :
    (s.code rl i).buf = s.buf ∧
      ((s.code rl i).loginSuccess = true ↔ s.loginSuccess = true ∨ s.buf i = 48) ∧
      ∃ nicks : List CString, (s.code rl i).sent = s.sent ++ nicks.map nickText ∧
        nicks.length = if s.buf i = 52 then 1 else 0 := by
  rw [code]
  by_cases hzero : s.buf i = 48
  · rw [if_pos hzero]
    exact ⟨rfl, by simp [hzero], [], (List.append_nil _).symm, by simp [hzero]⟩
  · rw [if_neg hzero]
    by_cases hfour : s.buf i = 52
    · rw [if_pos hfour]
      split
      · next hnick =>
        have hlen : (s.nick ++ CString.lit "_").length ≤ 20 := by
          have hone : (CString.lit "_").length = 1 := by decide
          rw [CString.length_append]
          omega
        exact ⟨rfl, by simp [hzero], [s.nick ++ CString.lit "_"],
          congrArg (s.sent ++ [·]) (nickLine_eq hlen), by simp⟩
      · have hbphsd : netRaw (CString.lit "NICK bphsd\r\n") = nickText (CString.lit "bphsd") := by
          decide
        exact ⟨rfl, by simp [hzero], [CString.lit "bphsd"], congrArg (s.sent ++ [·]) hbphsd,
          by simp⟩
    · rw [if_neg hfour]
      exact ⟨rfl, by simp [hzero], [], (List.append_nil _).symm, by simp [hfour]⟩

/-- The scan of a line whose second byte is no `I`, from a byte on. Induction on the bytes. -/
theorem loginScan_codes (rl : Nat) : ∀ (b : List UInt8) (a : UInt8) (i : Int) (s : LoginState),
    s.buf.HasBytes (i - 1) (a :: b) → s.buf 1 ≠ 73 →
      ((loginScan rl b.length i s).loginSuccess = true ↔
        s.loginSuccess = true ∨ 48 ∈ bytesAfterSpace (a :: b)) ∧
      ∃ nicks : List CString, (loginScan rl b.length i s).sent = s.sent ++ nicks.map nickText ∧
        nicks.length = (bytesAfterSpace (a :: b)).count 52
  | [], a, i, s, _, _ => ⟨by simp [loginScan, bytesAfterSpace], [], (List.append_nil _).symm, rfl⟩
  | c :: b, a, i, s, hbuf, hsecond => by
    obtain ⟨ha, hrest⟩ := (Mem.hasBytes_append (b := [a])).1 hbuf
    have ha : s.buf (i - 1) = a := by simpa using ha 0 (by simp)
    have hnext : s.buf.HasBytes (i + 1 - 1) (c :: b) := by
      rw [List.length_singleton, Nat.cast_one] at hrest
      rwa [show i + 1 - 1 = i - 1 + 1 by omega]
    have hc : s.buf i = c := by
      have := hnext 0 (by simp)
      rwa [show i + 1 - 1 + ((0 : Nat) : Int) = i by omega] at this
    rw [List.length_cons, loginScan, ha]
    by_cases hspace : a = 32
    · obtain ⟨hbuf', hsuccess, nicks, hsent, hlen⟩ := s.code_effect rl i
      obtain ⟨hrestSuccess, nicks', hsent', hlen'⟩ :=
        loginScan_codes rl b c (i + 1) (s.code rl i) (hbuf'.symm ▸ hnext) (hbuf'.symm ▸ hsecond)
      rw [if_pos hspace]
      refine ⟨?_, nicks ++ nicks', ?_, ?_⟩
      · rw [hrestSuccess, hsuccess, hc, bytesAfterSpace, if_pos hspace, List.mem_cons, or_assoc,
          eq_comm (a := c)]
      · rw [hsent', hsent, List.map_append, List.append_assoc]
      · rw [List.length_append, hlen, hlen', hc, bytesAfterSpace, if_pos hspace, List.count_cons]
        simp [Nat.add_comm]
    · rw [if_neg hspace, if_neg hsecond, bytesAfterSpace, if_neg hspace]
      exact loginScan_codes rl b c (i + 1) s hnext hsecond

/-- The scan only adds to what was sent. -/
theorem loginScan_sent (rl : Nat) : ∀ (n : Nat) (i : Int) (s : LoginState),
    ∃ more, (loginScan rl n i s).sent = s.sent ++ more
  | 0, _, s => ⟨[], (List.append_nil _).symm⟩
  | n + 1, i, s => by
    rw [loginScan]
    split
    · obtain ⟨-, -, nicks, hsent, -⟩ := s.code_effect rl i
      obtain ⟨more, hmore⟩ := loginScan_sent rl n (i + 1) (s.code rl i)
      exact ⟨nicks.map nickText ++ more, by rw [hmore, hsent, List.append_assoc]⟩
    · split
      · obtain ⟨-, -, nicks, hsent, -⟩ := s.pong.code_effect rl i
        obtain ⟨more, hmore⟩ := loginScan_sent rl n (i + 1) (s.pong.code rl i)
        refine ⟨netRaw (bufStr (s.buf.write 1 79) 0 ++ CString.lit "\r\n") ::
          (nicks.map nickText ++ more), ?_⟩
        rw [hmore, hsent, LoginState.pong]
        simp
      · exact loginScan_sent rl n (i + 1) s

/-- The answer to a line whose second byte is an `I`: the line with that byte changed, its CR, and
CR LF. -/
def pongReply (x : UInt8) (b : List UInt8) : List UInt8 :=
  (x :: 79 :: b ++ [13, 13, 10]).take 511

/-- The string that is sent for such a line. -/
theorem bytes_pong {x : UInt8} (hnul : 0 ∉ x :: b) (hlen : b.length ≤ 508)
    (hbuf : s.buf.HasBytes 0 (x :: 73 :: b ++ [13, 0])) :
    (netRaw (bufStr (s.buf.write 1 79) 0 ++ CString.lit "\r\n")).bytes = pongReply x b := by
  have hcrlf : (CString.lit "\r\n").bytes = [13, 10] := by decide
  obtain ⟨hx, hrest⟩ := (Mem.hasBytes_append (b := [x])).1 hbuf
  obtain ⟨-, hrest⟩ := (Mem.hasBytes_append (b := [73])).1 hrest
  have hwrite : (s.buf.write 1 79).HasBytes 0 (x :: 79 :: (b ++ [13]) ++ [0]) := by
    have hsnoc := hx.snoc 79
    rw [show x :: 79 :: (b ++ [13]) ++ [0] = ([x] ++ [79]) ++ (b ++ [13, 0]) by simp]
    exact Mem.hasBytes_append.2 ⟨hsnoc, hrest.write 79 (.inl (by simp))⟩
  have hbytes : (bufStr (s.buf.write 1 79) 0).bytes = x :: 79 :: (b ++ [13]) := by
    rw [bufStr, Mem.cstr_ofBytes hwrite (by simp; omega)]
    refine CString.bytes_ofBytes ?_
    simpa using hnul
  rw [bytes_netRaw, CString.bytes_append, hbytes, hcrlf, pongReply]
  simp

/-- The scan of a line whose second byte is an `I` sends that answer, and what it sends afterwards
is left open. -/
theorem loginScan_pong {x : UInt8} (hnul : 0 ∉ x :: b) (hlen : b.length ≤ 508)
    (hbuf : s.buf.HasBytes 0 (x :: 73 :: b ++ [13, 0])) :
    ∃ reply more, (loginScan rl (b.length + 2) 1 s).sent = s.sent ++ reply :: more ∧
      reply.bytes = pongReply x b := by
  have hx : s.buf 0 = x := hbuf 0 (by simp)
  have hI : s.buf 1 = 73 := hbuf 1 (by simp)
  have hpong : ∀ (n : Nat) (i : Int), ∃ more, (loginScan rl n (i + 1) (s.pong.code rl i)).sent =
      s.sent ++ netRaw (bufStr (s.buf.write 1 79) 0 ++ CString.lit "\r\n") :: more := by
    intro n i
    obtain ⟨-, -, nicks, hsent, -⟩ := s.pong.code_effect rl i
    obtain ⟨more, hmore⟩ := loginScan_sent rl n (i + 1) (s.pong.code rl i)
    refine ⟨nicks.map nickText ++ more, ?_⟩
    rw [hmore, hsent, LoginState.pong]
    simp
  by_cases hspace : x = 32
  · -- the byte behind the space is the `I` itself, so the answer is sent at the next index
    have hcode : s.code rl 1 = s := by
      rw [LoginState.code, if_neg (by rw [hI]; decide), if_neg (by rw [hI]; decide)]
    obtain ⟨more, hmore⟩ := hpong b.length 2
    refine ⟨_, more, ?_, bytes_pong hnul hlen hbuf⟩
    rw [loginScan, show (1 : Int) - 1 = 0 by decide, hx, if_pos hspace, hcode, loginScan,
      show (1 : Int) + 1 - 1 = 1 by decide, hI, if_neg (by decide), if_pos rfl]
    exact hmore
  · obtain ⟨more, hmore⟩ := hpong (b.length + 1) 1
    refine ⟨_, more, ?_, bytes_pong hnul hlen hbuf⟩
    rw [loginScan, show (1 : Int) - 1 = 0 by decide, hx, if_neg hspace, if_pos hI]
    exact hmore

end

/-! ## The lines of a chunk -/

section
variable {rl : Nat} {s : LoginState}

/-- A byte that does not end a line is stored. -/
theorem loginByte_store {prev : Option UInt8} {c : UInt8} (hmark : ¬ (prev = some 13 ∧ c = 10))
    (ho : s.o < 512) :
    loginByte rl prev c s = { s with buf := s.buf.write s.o c, o := s.o + 1 } := by
  have hroom : ¬ (prev = some 13 ∧ c = 10 ∨ s.o = 512) := by
    rintro (h | h)
    · exact hmark h
    · omega
  exact if_neg hroom

/-- The LF behind a CR ends a line. -/
theorem loginByte_end (rl : Nat) (s : LoginState) :
    loginByte rl (some 13) 10 s = LoginState.line rl { s with buf := s.buf.write s.o 10 } := by
  simp [loginByte]

/-- A line that is received behind `pre` is handled at its end. Induction on the bytes to come. -/
theorem loginBytes_line (rl : Nat) : ∀ (b pre : List UInt8) (s : LoginState),
    s.buf.HasBytes 0 pre → s.o = pre.length → (pre ++ b).length ≤ 510 → NoPair (pre ++ b) →
      ∃ buf : Mem, buf.HasBytes 0 (pre ++ b ++ [13, 0]) ∧
        loginBytes rl pre.getLast? (b ++ [13, 10]) s =
          { loginScan rl (pre ++ b).length 1 { s with buf, o := (pre ++ b).length + 1 } with o := 0 }
  | [], pre, s, hbuf, ho, hlen, _ => by
    rw [List.append_nil] at hlen ⊢
    have h13 : (s.buf.write s.o 13).HasBytes 0 (pre ++ [13]) := by
      have hsnoc := hbuf.snoc 13
      rwa [Int.zero_add, ← ho] at hsnoc
    have h10 : ((s.buf.write s.o 13).write (s.o + 1 : Nat) 10).HasBytes 0 (pre ++ [13]) :=
      h13.write 10 (.inr (by simp; omega))
    have h0 := h10.snoc 0
    have hidx : (0 : Int) + ((pre ++ [13]).length : Nat) = ((s.o + 1 : Nat) : Int) := by
      simp
      omega
    rw [hidx, List.append_assoc] at h0
    refine ⟨_, h0, ?_⟩
    have hfirst : loginByte rl pre.getLast? 13 s =
        { s with buf := s.buf.write s.o 13, o := s.o + 1 } :=
      loginByte_store (fun h => absurd h.2 (by decide)) (by omega)
    rw [List.nil_append, loginBytes, loginBytes, loginBytes, hfirst, loginByte_end, ← ho]
    rfl
  | c :: b, pre, s, hbuf, ho, hlen, hpair => by
    have hassoc : pre ++ c :: b = (pre ++ [c]) ++ b := by simp
    rw [hassoc] at hlen hpair ⊢
    have hstore : loginByte rl pre.getLast? c s =
        { s with buf := s.buf.write s.o c, o := s.o + 1 } := by
      refine loginByte_store ?_ (by simp at hlen; omega)
      rintro ⟨hprev, hc⟩
      obtain ⟨pre', rfl⟩ := List.getLast?_eq_some_iff.1 hprev
      exact List.isChain_iff_forall_rel_of_append_cons_cons.1 hpair
        (show _ = pre' ++ 13 :: c :: b by simp) ⟨rfl, hc⟩
    have hbuf' : (s.buf.write s.o c).HasBytes 0 (pre ++ [c]) := by
      have hsnoc := hbuf.snoc c
      rwa [Int.zero_add, ← ho] at hsnoc
    obtain ⟨buf, hbytes, hrun⟩ := loginBytes_line rl b (pre ++ [c])
      { s with buf := s.buf.write s.o c, o := s.o + 1 } hbuf' (by simp [ho]) hlen hpair
    refine ⟨buf, hbytes, ?_⟩
    rw [List.cons_append, loginBytes, hstore]
    rw [List.getLast?_append] at hrun
    exact hrun

/-- The CR of a line adds no code. -/
theorem bytesAfterSpace_cr : ∀ b : List UInt8,
    (48 ∈ bytesAfterSpace (b ++ [13]) ↔ 48 ∈ bytesAfterSpace b) ∧
      (bytesAfterSpace (b ++ [13])).count 52 = (bytesAfterSpace b).count 52
  | [] => ⟨Iff.rfl, rfl⟩
  | [a] => by
    by_cases hspace : a = 32
    · simp [bytesAfterSpace, hspace]
    · simp [bytesAfterSpace, hspace]
  | a :: c :: b => by
    obtain ⟨hmem, hcount⟩ := bytesAfterSpace_cr (c :: b)
    rw [List.cons_append] at hmem hcount
    rw [List.cons_append, List.cons_append, bytesAfterSpace, bytesAfterSpace]
    split
    · exact ⟨by rw [List.mem_cons, List.mem_cons, hmem],
        by rw [List.count_cons, List.count_cons, hcount]⟩
    · exact ⟨hmem, hcount⟩

/-- What is received before a line is handled: the line in `buf`. -/
theorem loginRecv_eq (ho : s.o = 0) (line : LoginLine) :
    ∃ (buf : Mem) (o : Nat), buf.HasBytes 0 (line.bytes ++ [13, 0]) ∧
      (loginRecv s (.data line.chunk)).1 =
        { loginScan line.chunk.rbuf.length line.bytes.length 1 { s with buf, o } with o := 0 } := by
  have hpos := List.length_pos_of_ne_nil line.nonempty
  have hlong : line.chunk.rbuf.length > 2 := by
    simp [LoginLine.chunk, withCrLf]
    omega
  obtain ⟨buf, hbuf, hrun⟩ := loginBytes_line line.chunk.rbuf.length line.bytes [] s
    (fun i hi => by simp at hi) ho line.length_le line.noPair
  refine ⟨buf, line.bytes.length + 1, hbuf, ?_⟩
  rw [loginRecv, if_pos hlong]
  exact hrun

/-- What is done for a line whose second byte is no `I`. -/
theorem loginRecv_codes (ho : s.o = 0) {line : LoginLine} (hsecond : line.bytes[1]? ≠ some 73) :
    ((loginRecv s (.data line.chunk)).1.loginSuccess = true ↔
        s.loginSuccess = true ∨ 48 ∈ bytesAfterSpace line.bytes) ∧
      ∃ nicks : List CString,
        (loginRecv s (.data line.chunk)).1.sent = s.sent ++ nicks.map nickText ∧
          nicks.length = (bytesAfterSpace line.bytes).count 52 := by
  obtain ⟨buf, o, hbuf, heq⟩ := loginRecv_eq ho line
  obtain ⟨a, b, hline⟩ := List.exists_cons_of_ne_nil line.nonempty
  have hcr := bytesAfterSpace_cr line.bytes
  have hsecond' : buf 1 ≠ 73 := by
    intro hI
    rw [hline] at hbuf hsecond
    have hone := hbuf 1 (by simp)
    cases b with
    | nil =>
      have h13 : buf 1 = 13 := hone
      rw [h13] at hI
      cases hI
    | cons c b =>
      have hc : buf 1 = c := hone
      exact hsecond (by rw [← hI, hc]; rfl)
  rw [hline, List.cons_append] at hcr
  have hbuf' : buf.HasBytes (1 - 1) (a :: (b ++ [13])) := by
    rw [hline, show a :: b ++ [13, 0] = a :: (b ++ [13]) ++ [0] by simp] at hbuf
    exact (Mem.hasBytes_append.1 hbuf).1
  obtain ⟨hsuccess, nicks, hsent, hlen⟩ := loginScan_codes line.chunk.rbuf.length (b ++ [13]) a 1
    { s with buf, o } hbuf' hsecond'
  have hscan : line.bytes.length = (b ++ [13]).length := by
    rw [hline]
    simp
  rw [heq, hscan, hline]
  exact ⟨hsuccess.trans (or_congr_right hcr.1), nicks, hsent, hlen.trans hcr.2⟩

/-- What is sent for a line whose second byte is an `I`. -/
theorem loginRecv_pong (ho : s.o = 0) {line : LoginLine} {x : UInt8} {b : List UInt8}
    (hline : line.bytes = x :: 73 :: b) :
    ∃ reply more, (loginRecv s (.data line.chunk)).1.sent = s.sent ++ reply :: more ∧
      reply.bytes = pongReply x b := by
  obtain ⟨buf, o, hbuf, heq⟩ := loginRecv_eq ho line
  have hnul : 0 ∉ x :: b := by
    have := line.noNul
    rw [hline] at this
    simp at this ⊢
    exact this
  have hlen := line.length_le
  rw [hline, List.length_cons, List.length_cons] at hlen
  rw [hline] at hbuf
  obtain ⟨reply, more, hsent, hbytes⟩ := @loginScan_pong line.chunk.rbuf.length
    { s with buf, o } b x hnul (by omega) hbuf
  refine ⟨reply, more, ?_, hbytes⟩
  rw [heq, show line.bytes.length = b.length + 2 by rw [hline]; rfl]
  exact hsent

/-! ## Answers -/

/-- The beginning of a `NICK` line. -/
theorem bytes_nickText (nick : CString) :
    ∃ rest, (nickText nick).bytes = 78 :: 73 :: rest := by
  have hnick : (CString.lit "NICK ").bytes = [78, 73, 67, 75, 32] := by decide
  rw [nickText, CString.bytes_append, CString.bytes_append, hnick]
  exact ⟨_, rfl⟩

/-- `NICK` lines are no answer to a `PING`, and one of them is the answer to a numeric. -/
theorem answeredBy_nicks {line : LoginLine} {nicks : List CString} :
    line.AnsweredBy (nicks.map nickText) ↔
      ¬ line.isPing ∧ nicks.length = if line.isNumeric 52 then 1 else 0 := by
  have hpong : (CString.lit "PONG").bytes = [80, 79, 78, 71] := by decide
  rw [LoginLine.AnsweredBy]
  split
  · next hping =>
    refine ⟨?_, fun h => absurd hping h.1⟩
    rintro ⟨reply, hreply, hbytes⟩
    obtain ⟨nick, -, rfl⟩ := List.mem_map.1 (hreply ▸ .head _ : reply ∈ nicks.map nickText)
    obtain ⟨rest, hnick⟩ := bytes_nickText nick
    rw [hnick, hpong] at hbytes
    cases (List.cons.inj hbytes).1
  · next hping =>
    rw [and_iff_right hping]
    split
    · rw [List.length_eq_one_iff]
      constructor
      · rintro ⟨nick, hnick⟩
        rw [← List.length_eq_one_iff, ← List.length_map (f := nickText), hnick]
        rfl
      · rintro ⟨nick, rfl⟩
        exact ⟨nick, rfl⟩
    · rw [List.map_eq_nil_iff, List.length_eq_zero_iff]

/-- The rest of a `PING` that is its first word. -/
theorem LoginLine.isPing_bytes {line : LoginLine} (hping : line.isPing)
    (hhead : line.bytes.head? = some 80) :
    line.bytes = (CString.lit "PING").bytes ++ line.rest := by
  obtain ⟨b, hline⟩ := List.head?_eq_some_iff.1 hhead
  have hfrom : line.fromCommand = line.bytes := by
    rw [fromCommand, hhead, if_neg (by decide), hline]
    rfl
  rw [← hping, command, rest, hfrom]
  exact (List.takeWhile_append_dropWhile).symm

/-- What is sent for a line whose second byte is an `I` does not answer it. -/
theorem not_answeredBy_pong {line : LoginLine} {x : UInt8} {b : List UInt8} {reply : CString}
    {more : List CString} (hline : line.bytes = x :: 73 :: b)
    (hreply : reply.bytes = pongReply x b) : ¬ line.AnsweredBy (reply :: more) := by
  have hpong : (CString.lit "PONG").bytes = [80, 79, 78, 71] := by decide
  have hlen := line.length_le
  rw [hline, List.length_cons, List.length_cons] at hlen
  rw [LoginLine.AnsweredBy]
  split
  · next hping =>
    rintro ⟨reply', hreply', hbytes⟩
    cases hreply'
    rw [hreply, pongReply, hpong] at hbytes
    obtain rfl : x = 80 := (List.cons.inj hbytes).1
    have hrest := congrArg List.length (LoginLine.isPing_bytes hping (by rw [hline]; rfl))
    have hlength := congrArg List.length hbytes
    have hping' : (CString.lit "PING").bytes.length = 4 := by decide
    simp only [hline, List.length_append, List.length_cons, List.length_take, List.length_nil,
      hping'] at hrest hlength
    -- only then the lengths agree, and then the LF is cut off
    have hfull : (80 :: 79 :: b ++ [13, 13]).length = 511 := by
      simp
      omega
    rw [show 80 :: 79 :: b ++ [13, 13, 10] = (80 :: 79 :: b ++ [13, 13]) ++ [10] by simp,
      List.take_append_of_le_length (Nat.le_of_eq hfull.symm),
      List.take_of_length_le (Nat.le_of_eq hfull)] at hbytes
    exact absurd (List.append_inj_right' hbytes rfl) (by decide)
  · split
    · rintro ⟨nick, hnick⟩
      cases hnick
      obtain ⟨rest, hrest⟩ := bytes_nickText nick
      rw [nickText] at hrest
      rw [hreply, pongReply] at hrest
      cases (List.cons.inj (List.cons.inj hrest).2).1
    · rintro ⟨⟩

/-- All answers to a line are as many. -/
theorem length_of_answeredBy {line : LoginLine} {replies : List CString}
    (h : line.AnsweredBy replies) :
    replies.length = if line.isPing ∨ line.isNumeric 52 then 1 else 0 := by
  rw [LoginLine.AnsweredBy] at h
  split at h
  · next hping =>
    obtain ⟨reply, rfl, -⟩ := h
    rw [if_pos (.inl hping)]
    rfl
  · next hping =>
    split at h
    · next hfour =>
      obtain ⟨nick, rfl⟩ := h
      rw [if_pos (.inr hfour)]
      rfl
    · next hfour =>
      subst h
      rw [if_neg (by rintro (h | h) <;> contradiction)]
      rfl

/-- All answers to some lines are as many. -/
theorem length_answers {read : List LoginLine} {replies replies' : List (List CString)}
    (h : List.Forall₂ LoginLine.AnsweredBy read replies)
    (h' : List.Forall₂ LoginLine.AnsweredBy read replies') :
    replies.flatten.length = replies'.flatten.length := by
  induction h generalizing replies' with
  | nil =>
    cases h'
    rfl
  | cons hline _ ih =>
    cases h' with
    | cons hline' hrest' =>
      rw [List.flatten_cons, List.flatten_cons, List.length_append, List.length_append,
        length_of_answeredBy hline, length_of_answeredBy hline', ih hrest']

/-- When all lines before were answered, then what is sent next is the answer to the next line. -/
theorem answers_snoc {read : List LoginLine} {line : LoginLine} {start new : List CString}
    {replies : List (List CString)} (h : List.Forall₂ LoginLine.AnsweredBy read replies) :
    (∃ replies', List.Forall₂ LoginLine.AnsweredBy (read ++ [line]) replies' ∧
        start ++ replies.flatten ++ new = start ++ replies'.flatten) ↔ line.AnsweredBy new := by
  constructor
  · rintro ⟨replies', h', heq⟩
    obtain ⟨rs, r, rfl⟩ : ∃ rs r, replies' = rs ++ [r] := by
      rcases List.eq_nil_or_concat' replies' with rfl | hconcat
      · have := h'.length_eq
        simp at this
      · exact hconcat
    have hlen : read.length = rs.length := by
      have := h'.length_eq
      simpa using this
    have hread := List.forall₂_take rs.length h'
    have hline := List.forall₂_drop rs.length h'
    rw [← hlen, List.take_left, hlen, List.take_left] at hread
    rw [← hlen, List.drop_left, hlen, List.drop_left] at hline
    rw [List.flatten_append, List.append_assoc, List.append_cancel_left_eq] at heq
    obtain ⟨-, rfl⟩ := List.append_inj heq (length_answers h hread)
    simpa using hline
  · intro hline
    refine ⟨replies ++ [new], List.rel_append h (.cons hline .nil), ?_⟩
    rw [List.flatten_append, List.append_assoc]
    simp

/-! ## Runs -/

/-- A login that has understood what it read understands the next line exactly if it is read
right. -/
theorem LoginRun.Understands.step_iff {run run' : LoginRun} {start : List CString} {line : LoginLine}
    {u : Unit} (h : run.Understands start) (ho : run.state.o = 0)
    (hstep : loginStep run line = some (run', u)) :
    run'.state.o = 0 ∧ (run'.Understands start ↔ line.ReadsRight) := by
  rw [loginStep] at hstep
  split at hstep
  · cases hstep
  next hgoing =>
  cases hstep
  obtain ⟨replies, hreplies, hsent⟩ := h.answers
  have hbefore : ¬ ∃ line ∈ run.read, line.isNumeric 48 := fun hread => hgoing (h.success.2 hread)
  have hwelcome : (∃ line' ∈ run.read ++ [line], line'.isNumeric 48) ↔ line.isNumeric 48 := by
    simpa using fun line' hline' hzero => absurd ⟨line', hline', hzero⟩ hbefore
  obtain ⟨buf, o, -, heq⟩ := loginRecv_eq ho line
  refine ⟨by rw [heq], ?_⟩
  by_cases hsecond : line.bytes[1]? = some 73
  · obtain ⟨x, b, hline⟩ : ∃ x b, line.bytes = x :: 73 :: b := by
      generalize line.bytes = bytes at hsecond
      match bytes, hsecond with
      | x :: _ :: b, rfl => exact ⟨x, b, rfl⟩
    obtain ⟨reply, more, hpong, hbytes⟩ := loginRecv_pong ho hline
    refine ⟨fun h' => ?_, fun h' => absurd hsecond h'.second⟩
    obtain ⟨replies', hreplies', hsent'⟩ := h'.answers
    rw [hpong, hsent] at hsent'
    exact absurd ((answers_snoc hreplies).1 ⟨replies', hreplies', hsent'⟩)
      (not_answeredBy_pong hline hbytes)
  · obtain ⟨hsuccess, nicks, hnicks, hlen⟩ := loginRecv_codes ho hsecond
    have hanswers := (@answers_snoc run.read line start (nicks.map nickText) replies hreplies).trans
      answeredBy_nicks
    rw [← hsent, ← hnicks, hlen] at hanswers
    have hgoing' : ¬ run.state.loginSuccess = true := hgoing
    rw [or_iff_right hgoing'] at hsuccess
    constructor
    · intro h'
      obtain ⟨hping, hfour⟩ := hanswers.1 h'.answers
      exact ⟨hsecond, hping, hsuccess.symm.trans (h'.success.trans hwelcome), hfour⟩
    · intro h'
      exact ⟨hsuccess.trans (h'.zero.trans hwelcome.symm), hanswers.2 ⟨h'.noPing, h'.four⟩⟩

/-- A login that has read nothing has nothing to understand. -/
theorem understands_init (s : LoginState) (h : s.loginSuccess = false) :
    (LoginRun.mk s []).Understands s.sent where
  success := ⟨fun hsuccess => absurd (h.symm.trans hsuccess) (by decide), by simp⟩
  answers := ⟨[], .nil, by simp⟩

/-- For every sequence of lines, after each line that `irc_login` reads it is about to return `1` if
and only if it has read a numeric that starts with `0`, and has answered every `PING` with `PONG`
and its rest, every numeric that starts with `4` with a `NICK`, and nothing else, exactly if every
line it reads is read right. -/
theorem readsRight_iff (buf : Mem) (user realname nick : CString) (password : Option CString)
    (lines : List LoginLine) :
    EveryState loginStep ⟨.init buf user realname nick password, []⟩ lines
        (·.Understands (LoginState.init buf user realname nick password).sent) ↔
      EachStep loginStep ⟨.init buf user realname nick password, []⟩ lines
        (fun _ line => line.ReadsRight) := by
  refine everyState_iff_eachStep (I := fun run : LoginRun => run.state.o = 0 ∧
    run.Understands (LoginState.init buf user realname nick password).sent) (fun _ h => h.2) ?_ ?_
    lines ⟨rfl, understands_init _ rfl⟩
  · intro run line run' u h hright hstep
    obtain ⟨ho, hiff⟩ := h.2.step_iff h.1 hstep
    exact ⟨ho, hiff.2 hright⟩
  · intro run line run' u h hwrong hstep hunderstands
    exact hwrong ((h.2.step_iff h.1 hstep).2.1 hunderstands)

/-- A notice with a word that starts with `0` is taken for the end of the login. -/
theorem not_readsRight :
    ¬ EveryState loginStep
        ⟨.init (fun _ => 0) (CString.lit "u") (CString.lit "r") (CString.lit "n") none, []⟩
        [⟨(CString.lit ":irc NOTICE * :now 0 users").bytes, by decide, by decide, by decide, by
          unfold NoPair
          decide⟩]
        (·.Understands
          (LoginState.init (fun _ => 0) (CString.lit "u") (CString.lit "r") (CString.lit "n")
            none).sent) := by
  intro h
  have hunderstands := h _ _ _ (List.prefix_refl _) rfl
  have hright := ((understands_init _ rfl).step_iff rfl rfl).2.1 hunderstands
  exact absurd (hright.zero.1 (by decide)) (by decide)

end

end MinervaBot
