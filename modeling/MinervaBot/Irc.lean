import MinervaBot.Lib.CString

/-!
# The IRC loop

`irc_loop` of `irc.c`. It fills `buf` from the chunks that `net_recv` leaves in `rbuf`, handles a
line when it sees CR LF inside the current chunk or when `o` reaches 512, and starts over with
`o = -1`. `buf` and `nickbuf` are flat memory, since the terminator of a line may be written outside
the array. `LoopState` also records the lines handled, each with all its bytes, and what was done
for them.

What `modules_check_cmd` writes into its message is left out: it is a NUL inside the line that has
just been handled, and the next line is written over it.
-/

namespace MinervaBot

open Lib

/-- What a positive `net_recv` leaves in `rbuf`: 1 to 512 bytes. -/
structure Chunk where
  rbuf : List UInt8
  nonempty : rbuf ≠ []
  length_le : rbuf.length ≤ 512

/-- A result of `net_recv`. -/
inductive NetRecv where
  | data (chunk : Chunk)
  | eof
  | error

/-- What the loop does for a line, or at its end. -/
inductive IrcAction where
  | netRaws (ptr : CString)
  | modulesCheckCmd (user target message : CString)
  | ircRaw (message : CString)
  deriving DecidableEq

/-- The string at an index of `buf`. -/
def bufStr (buf : Mem) (p : Int) : CString :=
  buf.cstr p (514 - p).toNat

/-- The variables of the scan of a line; pointers into `buf` are indices. -/
structure IrcScan where
  buf : Mem
  wordcount : Nat := 0
  user : Option Int := none
  command : Option Int := none
  where' : Option Int := none
  message : Option Int := none
  start : Int := 0

/-- The `switch` at a space. -/
def IrcScan.word (p : IrcScan) : IrcScan :=
  match p.wordcount with
  | 1 => { p with user := some 1 }
  | 2 => { p with command := some p.start }
  | 3 => { p with where' := some p.start }
  | _ => p

/-- The scan of a line up to index `l`, at index `j` with `n` indices to go. -/
def ircScanLoop (l : Int) : (n : Nat) → (j : Int) → IrcScan → IrcScan
  | 0, _, p => p
  | n + 1, j, p =>
    if p.buf j = 32 then
      let p := { p with buf := p.buf.write j 0, wordcount := p.wordcount + 1 }
      let p := p.word
      if j = l - 1 then ircScanLoop l n (j + 1) p
      else ircScanLoop l n (j + 1) { p with start := j + 1 }
    else if p.buf j = 58 ∧ p.wordcount = 3 then
      if j < l - 1 then { p with message := some (j + 1) } else p
    else ircScanLoop l n (j + 1) p

/-- `where`, or the nick of the user for a private message: `nickbuf` and `target`. -/
def ircTarget (buf nickbuf : Mem) (user where' : Int) : Mem × CString :=
  if buf where' ∈ [35, 38, 43, 33] then (nickbuf, bufStr buf where')
  else
    match (bufStr buf user).strchr 33 with
    | none => (nickbuf, bufStr buf user)
    | some sep =>
      let nickbuf := (nickbuf.copy 0 ((bufStr buf user).bytes.take sep)).write sep 0
      (nickbuf, nickbuf.cstr 0 513)

/-- The command word of a line starts with `s` (`strncmp`). -/
def startsWith (s word : CString) : Prop :=
  word.bytes.take s.length = s.bytes

instance (s word : CString) : Decidable (startsWith s word) :=
  inferInstanceAs (Decidable (_ = _))

/-- What is done for the line in `buf` whose last byte has index `l`: `buf`, `nickbuf` and the
actions. -/
def ircLine (l : Int) (buf nickbuf : Mem) : Mem × Mem × List IrcAction :=
  if startsWith (CString.lit "PING") (bufStr buf 0) then
    let buf := buf.write 1 79
    (buf, nickbuf, [.netRaws (bufStr buf 0), .netRaws (CString.lit "\r\n")])
  else if buf 0 = 58 then
    let p := ircScanLoop l (l - 1).toNat 1 { buf }
    match p.user, p.command with
    | some user, some command =>
      if p.wordcount < 2 then (p.buf, nickbuf, [])
      else if startsWith (CString.lit "PRIVMSG") (bufStr p.buf command) ∨
          startsWith (CString.lit "NOTICE") (bufStr p.buf command) then
        match p.where', p.message with
        | some where', some message =>
          let r := ircTarget p.buf nickbuf user where'
          (p.buf, r.1, [.modulesCheckCmd (bufStr p.buf user) r.2 (bufStr p.buf message)])
        | _, _ => (p.buf, nickbuf, [])
      else (p.buf, nickbuf, [])
    | _, _ => (p.buf, nickbuf, [])
  else (buf, nickbuf, [])

/-- The variables of `irc_loop` that outlive a line, with the lines handled and the actions. -/
structure LoopState where
  o : Int
  buf : Mem
  nickbuf : Mem
  lines : List (List UInt8)
  actions : List IrcAction

/-- The state on entry, with arbitrary bytes in the arrays. -/
def LoopState.init (buf nickbuf : Mem) : LoopState :=
  { o := -1, buf, nickbuf, lines := [], actions := [] }

/-- The bytes `buf[0], …, buf[o]`. -/
def lineBytes (buf : Mem) (o : Int) : List UInt8 :=
  (List.range (o + 1).toNat).map fun i => buf (i : Nat)

/-- The inner loop of `irc_loop` at the byte `rbuf[i]`; `prev` is `rbuf[i - 1]` if `i > 0`. -/
def ircByte (prev : Option UInt8) (c : UInt8) (s : LoopState) : LoopState :=
  let o := s.o + 1
  let buf := s.buf.write o c
  if (prev = some 13 ∧ c = 10) ∨ o = 512 then
    let r := ircLine o (buf.write (if o = 512 then o + 1 else o - 1) 0) s.nickbuf
    { o := -1
      buf := r.1
      nickbuf := r.2.1
      lines := s.lines ++ [lineBytes buf o]
      actions := s.actions ++ r.2.2 }
  else { s with o, buf }

/-- The inner loop of `irc_loop` over the rest of a chunk. -/
def ircBytes : (prev : Option UInt8) → (rbuf : List UInt8) → LoopState → LoopState
  | _, [], s => s
  | prev, c :: rbuf, s => ircBytes (some c) rbuf (ircByte prev c s)

/-- `irc_loop` as far as the given evaluations of its condition take it: the value of `done`, and
the result of `net_recv` if it is called. -/
def ircLoop : List (Bool × NetRecv) → LoopState → LoopState
  | [], s => s
  | (true, _) :: _, s | (false, .eof) :: _, s =>
    { s with actions := s.actions ++ [.ircRaw (CString.lit "QUIT :Gone fishing.")] }
  | (false, .error) :: inputs, s => ircLoop inputs s
  | (false, .data chunk) :: inputs, s => ircLoop inputs (ircBytes none chunk.rbuf s)

/-- The inputs of a connection that delivers these chunks. -/
def received (chunks : List Chunk) : List (Bool × NetRecv) :=
  chunks.map fun chunk => (false, .data chunk)

end MinervaBot
