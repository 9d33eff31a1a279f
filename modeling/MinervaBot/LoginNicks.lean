import MinervaBot.LoginBounds

/-!
# The answers of a login

What `irc_login` answers over a whole login, however the server cuts its lines: a line with an `O`
in place of its second byte, if that is an `I`; a `NICK` with one underscore more than the last
time; or a `NICK` that does not depend on the nick. `ircLogin_replies` says which lines those of the
first kind are, and that the nicks of the second kind are the nick that was asked for with 1, 2, 3
and so on underscores, none of them longer than 20 characters.
-/

namespace MinervaBot

open Lib

/-- An answer of `irc_login`: a line that was changed, a nick of its own, or `bphsd`. -/
inductive LoginReply where
  | pong (line : CString)
  | retry (nick : CString)
  | bphsd

/-- What is handed to `_net_raws`. -/
def LoginReply.text : LoginReply → CString
  | pong line => netRaw (line ++ CString.lit "\r\n")
  | retry nick => nickLine nick
  | bphsd => netRaw (CString.lit "NICK bphsd\r\n")

/-- The nick that is asked for again. -/
def LoginReply.retry? : LoginReply → Option CString
  | retry nick => some nick
  | pong _ | bphsd => none

/-- The line that was changed. -/
def LoginReply.pong? : LoginReply → Option CString
  | pong line => some line
  | retry _ | bphsd => none

/-- The answer to a line with an `I` as its second byte: all but its last byte, with an `O` instead
and up to the first NUL. The scan leaves out the last byte, and a byte behind a space. -/
def pongOf (frame : List UInt8) : Option CString :=
  if frame[1]? = some 73 ∧ 3 ≤ frame.length ∧ (frame.head? = some 32 → 4 ≤ frame.length) then
    some (CString.ofBytes (frame.dropLast.set 1 79))
  else none

/-- The nick with `k` underscores. -/
def underscored (nick : CString) : Nat → CString
  | 0 => nick
  | k + 1 => underscored nick k ++ CString.lit "_"

/-- The loop of `irc_login`. -/
def loginLoop : List NetRecv → LoginState → LoginState
  | [], s => s
  | r :: rs, s => if (loginRecv s r).2 then (loginRecv s r).1 else loginLoop rs (loginRecv s r).1

/-- The chunks that the loop handles. -/
def loginChunks : List NetRecv → LoginState → List Chunk
  | .data chunk :: rs, s =>
    if chunk.rbuf.length > 2 then
      let res := loginRecv s (.data chunk)
      chunk :: if res.2 then [] else loginChunks rs res.1
    else []
  | _, _ => []

/-- The lines of chunks, as the loop finds them. -/
def linesOf (chunks : List Chunk) : List (List UInt8) :=
  (Framer.init.run 513 (chunks.flatMap fun chunk => chunkMarks none chunk.rbuf)).frames

/-- Behind the lines of the beginning, the answers are these; the nicks among them are those with
one to `k` underscores, and the lines are `pongs`. -/
structure LoginState.Replied (start : List CString) (nick : CString) (s : LoginState)
    (replies : List LoginReply) (k : Nat) (pongs : List CString) : Prop where
  sent : s.sent = start ++ replies.map LoginReply.text
  nick_eq : s.nick = underscored nick k
  retries : replies.filterMap LoginReply.retry? =
    (List.range k).map fun j => underscored nick (j + 1)
  short : k = 0 ∨ nick.length + k ≤ 20
  pongs_eq : replies.filterMap LoginReply.pong? = pongs

/-- What was sent behind the lines of the beginning is answers of this kind. -/
def LoginState.Replies (start : List CString) (nick : CString) (pongs : List CString)
    (s : LoginState) : Prop :=
  ∃ replies k, s.Replied start nick replies k pongs

/-- The length of a nick with underscores. -/
theorem length_underscored (nick : CString) : ∀ k, (underscored nick k).length = nick.length + k
  | 0 => rfl
  | k + 1 => by
    have hone : (CString.lit "_").length = 1 := by decide
    rw [underscored, CString.length_append, length_underscored nick k, hone, Nat.add_assoc]

/-! ## A line -/

section
variable {start pongs : List CString} {nick : CString} {s : LoginState}

/-- What does not change the answers. -/
theorem LoginState.Replies.of_eq {s' : LoginState} (h : s.Replies start nick pongs)
    (hsent : s'.sent = s.sent) (hnick : s'.nick = s.nick) : s'.Replies start nick pongs := by
  obtain ⟨replies, k, h⟩ := h
  exact ⟨replies, k, hsent.trans h.sent, hnick.trans h.nick_eq, h.retries, h.short, h.pongs_eq⟩

/-- A `PONG` is one more answer. -/
theorem LoginState.Replies.pong (h : s.Replies start nick pongs) :
    s.pong.Replies start nick (pongs ++ [bufStr (s.buf.write 1 79) 0]) := by
  obtain ⟨replies, k, h⟩ := h
  refine ⟨replies ++ [.pong (bufStr (s.buf.write 1 79) 0)], k, ?_, h.nick_eq, ?_, h.short, ?_⟩
  · rw [LoginState.pong, h.sent, List.map_append, ← List.append_assoc]
    rfl
  · rw [List.filterMap_append, h.retries]
    exact List.append_nil _
  · rw [List.filterMap_append, h.pongs_eq]
    rfl

/-- A byte behind a space is answered with the next nick, with `bphsd`, or not at all. -/
theorem LoginState.Replies.code (h : s.Replies start nick pongs) (rl : Nat) (i : Int) :
    (s.code rl i).Replies start nick pongs := by
  rw [LoginState.code]
  split
  · exact h.of_eq rfl rfl
  · split
    · obtain ⟨replies, k, h⟩ := h
      split
      · next hused =>
        have hlen := hused.2.2
        rw [h.nick_eq, length_underscored] at hlen
        refine ⟨replies ++ [.retry (underscored nick (k + 1))], k + 1, ?_, ?_, ?_, .inr (by omega), ?_⟩
        · rw [h.sent, h.nick_eq, List.map_append, ← List.append_assoc]
          rfl
        · rw [h.nick_eq]
          rfl
        · rw [List.filterMap_append, h.retries, List.range_succ, List.map_append]
          rfl
        · rw [List.filterMap_append, h.pongs_eq]
          exact List.append_nil _
      · refine ⟨replies ++ [.bphsd], k, ?_, h.nick_eq, ?_, h.short, ?_⟩
        · rw [h.sent, List.map_append, ← List.append_assoc]
          rfl
        · rw [List.filterMap_append, h.retries]
          exact List.append_nil _
        · rw [List.filterMap_append, h.pongs_eq]
          exact List.append_nil _
    · exact h

/-- The scan of a line whose second byte is no `I`. Induction on the indices to go. -/
theorem loginScan_no_pong (rl n : Nat) : ∀ {i : Int} {s : LoginState}, s.buf 1 ≠ 73 →
    s.Replies start nick pongs → (loginScan rl n i s).Replies start nick pongs := by
  induction n with
  | zero => exact fun _ h => h
  | succ n ih =>
    intro i s hsecond h
    rw [loginScan, if_neg hsecond]
    split
    · exact ih (by rwa [LoginState.buf_code]) (h.code rl i)
    · exact ih hsecond h

/-- Behind its `PONG` the second byte of a line is an `O`. -/
theorem loginScan_after_pong (h : s.Replies start nick pongs) (rl n : Nat) (i j : Int) :
    (loginScan rl n j (s.pong.code rl i)).Replies start nick
      (pongs ++ [bufStr (s.buf.write 1 79) 0]) := by
  have hsecond : s.pong.buf 1 = 79 := Mem.write_same s.buf 1 79
  refine loginScan_no_pong rl n ?_ (h.pong.code rl i)
  rw [LoginState.buf_code, hsecond]
  decide

/-- The scan of a line answers with a `PONG` if it meets an `I` at the second byte: not at once if
the first byte is a space. -/
theorem loginScan_replies (h : s.Replies start nick pongs) (rl n : Nat) :
    (loginScan rl n 1 s).Replies start nick (pongs ++
      if s.buf 1 = 73 ∧ 1 ≤ n ∧ (s.buf 0 = 32 → 2 ≤ n) then [bufStr (s.buf.write 1 79) 0]
      else []) := by
  by_cases hsecond : s.buf 1 = 73
  · cases n with
    | zero =>
      rw [if_neg (by omega), List.append_nil]
      exact h
    | succ n =>
      by_cases hspace : s.buf 0 = 32
      · -- the byte behind the space is the `I` itself, which is no code
        have hcode : s.code rl 1 = s := by
          rw [LoginState.code, if_neg (by rw [hsecond]; decide), if_neg (by rw [hsecond]; decide)]
        have hfirst : loginScan rl (n + 1) 1 s = loginScan rl n 2 s := by
          rw [loginScan, show (1 : Int) - 1 = 0 by decide, if_pos hspace, hcode]
          rfl
        rw [hfirst]
        cases n with
        | zero =>
          rw [if_neg (fun hall => absurd (hall.2.2 hspace) (by decide)), List.append_nil]
          exact h
        | succ n =>
          rw [if_pos ⟨hsecond, by omega, fun _ => by omega⟩, loginScan,
            show (2 : Int) - 1 = 1 by decide, if_neg (by rw [hsecond]; decide), if_pos hsecond]
          exact loginScan_after_pong h rl n 2 _
      · rw [if_pos ⟨hsecond, by omega, fun h => absurd h hspace⟩, loginScan,
          show (1 : Int) - 1 = 0 by decide, if_neg hspace, if_pos hsecond]
        exact loginScan_after_pong h rl n 1 _
  · rw [if_neg (fun hall => hsecond hall.1), List.append_nil]
    exact loginScan_no_pong rl n hsecond h

/-! ## The lines of a login -/

/-- `irc_login` holds the frame in progress of a framer, and has answered its frames. -/
structure LoginState.Follows (start : List CString) (nick : CString) (s : LoginState)
    (f : Framer UInt8) : Prop where
  o : s.o = f.pending.length
  room : f.pending.length ≤ 512
  buf : s.buf.HasBytes 0 f.pending
  replies : s.Replies start nick (f.frames.filterMap pongOf)

/-- A byte of a string changed. -/
theorem hasBytes_set {m : Mem} {b : List UInt8} (h : m.HasBytes 0 b) (i : Nat) (c : UInt8) :
    (m.write i c).HasBytes 0 (b.set i c) := by
  intro k hk
  rw [Int.zero_add, List.getElem_set]
  split
  · next heq => rw [heq, Mem.write_same]
  · next hne =>
    have hk' := h k (by simpa using hk)
    rw [Int.zero_add] at hk'
    rw [Mem.write_of_ne m c (by omega), hk']

/-- What the scan finds in `buf` is what the answer to the line looks at. -/
theorem toList_pongOf {m : Mem} {b : List UInt8} (hbuf : m.HasBytes 0 (b ++ [0]))
    (hroom : b.length ≤ 512) (c : UInt8) :
    (pongOf (b ++ [c])).toList =
      if m 1 = 73 ∧ 1 ≤ b.length - 1 ∧ (m 0 = 32 → 2 ≤ b.length - 1) then
        [bufStr (m.write 1 79) 0]
      else [] := by
  rcases b with _ | ⟨x, _ | ⟨y, rest⟩⟩
  · rw [if_neg (by simp), pongOf, if_neg (by simp)]
    rfl
  · rw [if_neg (by simp), pongOf, if_neg (by simp)]
    rfl
  · have hx : m 0 = x := hbuf 0 (by simp)
    have hy : m 1 = y := hbuf 1 (by simp)
    have hstr : bufStr (m.write 1 79) 0 = CString.ofBytes ((x :: y :: rest).set 1 79) :=
      Mem.cstr_ofBytes (hasBytes_set hbuf 1 79) (by simp at hroom ⊢; omega)
    have hiff : ((x :: y :: rest ++ [c])[1]? = some 73 ∧ 3 ≤ (x :: y :: rest ++ [c]).length ∧
        ((x :: y :: rest ++ [c]).head? = some 32 → 4 ≤ (x :: y :: rest ++ [c]).length)) ↔
        y = 73 ∧ 1 ≤ (x :: y :: rest).length - 1 ∧ (x = 32 → 2 ≤ (x :: y :: rest).length - 1) := by
      simp
    rw [hx, hy, hstr, pongOf, List.dropLast_concat]
    simp only [hiff]
    split <;> rfl

/-- A line is answered. -/
theorem LoginState.Follows.line {f : Framer UInt8} (h : s.Follows start nick f) (rl : Nat)
    (c : UInt8) :
    (LoginState.line rl { s with buf := s.buf.write s.o c }).Replies start nick
      ((f.frames ++ [f.pending ++ [c]]).filterMap pongOf) := by
  have hbuf : ((s.buf.write s.o c).write s.o 0).HasBytes 0 (f.pending ++ [0]) := by
    have hsnoc := (h.buf.write c (i := s.o) (.inr (by rw [h.o]; simp))).snoc 0
    rwa [Int.zero_add, ← h.o] at hsnoc
  have hscan := loginScan_replies (s := { s with buf := (s.buf.write s.o c).write s.o 0 })
    (h.replies.of_eq rfl rfl) rl (s.o - 1)
  have hpongs : (f.frames ++ [f.pending ++ [c]]).filterMap pongOf =
      f.frames.filterMap pongOf ++ (pongOf (f.pending ++ [c])).toList := by
    rw [List.filterMap_append]
    cases hpong : pongOf (f.pending ++ [c]) with
    | none => rw [List.filterMap_cons_none hpong]; rfl
    | some line => rw [List.filterMap_cons_some hpong]; rfl
  rw [hpongs, toList_pongOf hbuf h.room c, ← h.o]
  exact hscan.of_eq rfl rfl

/-- A byte is fed to the framer. -/
theorem LoginState.Follows.byte {f : Framer UInt8} (h : s.Follows start nick f) (rl : Nat)
    (prev : Option UInt8) (c : UInt8) :
    (loginByte rl prev c s).Follows start nick
      (f.feed 513 (c, decide (prev = some 13 ∧ c = 10))) := by
  have hmax : s.o = 512 ↔ f.pending.length + 1 = 513 := by
    rw [h.o]
    omega
  unfold loginByte Framer.feed
  simp only [decide_eq_true_eq, hmax]
  split
  · exact ⟨rfl, Nat.zero_le _, fun i hi => absurd hi (Nat.not_lt_zero i), h.line rl c⟩
  · next hend =>
    have hbuf := h.buf.snoc c
    rw [Int.zero_add, ← h.o] at hbuf
    have hroom := h.room
    refine ⟨?_, ?_, hbuf, h.replies.of_eq rfl rfl⟩
    · simp [h.o]
    · simp only [List.length_append, List.length_singleton]
      omega

/-- A chunk is fed to the framer byte by byte. -/
theorem LoginState.Follows.bytes (rl : Nat) (rbuf : List UInt8) : ∀ (prev : Option UInt8)
    {s : LoginState} {f : Framer UInt8}, s.Follows start nick f →
      (loginBytes rl prev rbuf s).Follows start nick (f.run 513 (chunkMarks prev rbuf)) := by
  induction rbuf with
  | nil => exact fun _ _ _ h => h
  | cons c rbuf ih => exact fun prev _ _ h => ih (some c) (h.byte rl prev c)

/-- The loop feeds the chunks that it handles to the framer. Induction on the results of
`net_recv`. -/
theorem LoginState.Follows.loop : ∀ (recvs : List NetRecv) {s : LoginState} {f : Framer UInt8},
    s.Follows start nick f →
      (loginLoop recvs s).Follows start nick (f.run 513
        ((loginChunks recvs s).flatMap fun chunk => chunkMarks none chunk.rbuf))
  | [], _, _, h => h
  | .eof :: _, _, _, h | .error :: _, _, _, h => h
  | .data chunk :: recvs, s, f, h => by
    rw [loginLoop, loginChunks]
    by_cases hlen : chunk.rbuf.length > 2
    · have hrecv : loginRecv s (.data chunk) =
          (loginBytes chunk.rbuf.length none chunk.rbuf s,
            (loginBytes chunk.rbuf.length none chunk.rbuf s).loginSuccess) := if_pos hlen
      have hbytes := h.bytes chunk.rbuf.length chunk.rbuf none
      rw [if_pos hlen, List.flatMap_cons, Framer.run_append, hrecv]
      dsimp only
      split
      · exact hbytes
      · exact LoginState.Follows.loop recvs hbytes
    · have hrecv : loginRecv s (.data chunk) = (s, true) := if_neg hlen
      rw [if_neg hlen, hrecv]
      exact h

end

/-- Whatever `net_recv` returns in a login, all that is sent behind the lines of the beginning is
the lines of the server whose second byte is an `I`, in their order and with an `O` instead,
`NICK bphsd`, and `NICK` lines with the nick and one, two and so on underscores, in this order, as
long as the nick has no more than 20 characters with them. -/
theorem ircLogin_replies (buf : Mem) (user realname nick : CString) (password : Option CString)
    (recvs : List NetRecv) : ∃ (replies : List LoginReply) (k : Nat),
      (loginLoop recvs (.init buf user realname nick password)).sent =
        (LoginState.init buf user realname nick password).sent ++ replies.map LoginReply.text ∧
      replies.filterMap LoginReply.retry? =
        (List.range k).map (fun j => underscored nick (j + 1)) ∧
      (k = 0 ∨ nick.length + k ≤ 20) ∧
      replies.filterMap LoginReply.pong? =
        (linesOf (loginChunks recvs (.init buf user realname nick password))).filterMap pongOf := by
  have hinit : (LoginState.init buf user realname nick password).Follows
      (LoginState.init buf user realname nick password).sent nick .init :=
    ⟨rfl, Nat.zero_le _, fun i hi => absurd hi (Nat.not_lt_zero i),
      [], 0, (List.append_nil _).symm, rfl, rfl, .inl rfl, rfl⟩
  obtain ⟨replies, k, h⟩ := (hinit.loop recvs).replies
  exact ⟨replies, k, h.sent, h.retries, h.short, h.pongs_eq⟩

end MinervaBot
