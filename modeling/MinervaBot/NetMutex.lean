import MinervaBot.Lib.Run
import MinervaBot.Net

/-!
# The outgoing stream

Any number of threads call `net_raw`, which holds `net_mutex` while it formats a line into the
shared `sbuf` and hands it to `_net_raws`. Meanwhile `irc_loop` answers the lines of the server; for
a `PING` it calls `_net_raws` twice, and takes no lock. Each call of `_net_raws` appends its string
to the stream as a whole.

A schedule keeps the lines of the stream whole as long as each step does (`OutState.Ordered.step`,
`OutState.Ordered.breaks`). `unmixed_iff` tells for which lines of the server and which calls of
`net_raw` every schedule does so.
-/

namespace MinervaBot

open Lib

/-! ## State and steps -/

/-- What a server sends: well-formed lines, in chunks that do not separate a CR from its LF. -/
structure ServerStream where
  lines : List ServerLine
  chunks : List Chunk
  short : ∀ line ∈ lines, (withCrLf line.encode.bytes).length ≤ 512
  cut : (chunks.map (·.rbuf)).flatten = lines.flatMap fun line => withCrLf line.encode.bytes
  borders : BordersOutside (chunks.map (·.rbuf))

/-- What `irc_loop` does for the stream, one action after the other. -/
def ServerStream.actions (server : ServerStream) (buf nickbuf : Mem) : List IrcAction :=
  (ircLoop (received server.chunks) (.init buf nickbuf)).actions

/-- Where a thread is in `net_raw`: not in it, behind `pthread_mutex_lock`, behind `vsnprintf`, or
behind `_net_raws`. -/
inductive NetRawPc where
  | idle
  | locked (line : LineText)
  | formatted (line : LineText)
  | written

/-- An append to the stream, by a thread in `net_raw` or by `irc_loop` itself. -/
structure Append (T : Type) where
  thread : Option T
  text : CString

/-- What the threads share, where they are, the lines for which they have still to call `net_raw`,
what `irc_loop` has still to do, and what was appended to the stream; `called` lists the calls that
have got the lock. -/
structure OutState (T : Type) where
  mutex : Option T
  sbuf : CString
  pc : T → NetRawPc
  calls : T → List LineText
  todo : List IrcAction
  stream : List (Append T)
  called : List (T × LineText)

/-- A line with its CR LF. -/
def LineText.sent (line : LineText) : CString :=
  line.text ++ CString.lit "\r\n"

/-- A step of a thread in `net_raw`, or of `irc_loop`. -/
inductive OutAct (T : Type) where
  | lock (t : T)
  | format (t : T)
  | append (t : T)
  | unlock (t : T)
  | loop

section
variable {T : Type} [DecidableEq T]

/-- A thread gets to another place of `net_raw`. -/
def OutState.goto (s : OutState T) (t : T) (pc : NetRawPc) : OutState T :=
  { s with pc := Function.update s.pc t pc }

/-- One step. `irc_loop` does not get to its `irc_raw` while it receives lines. -/
def outStep (s : OutState T) : OutAct T → Option (OutState T × Unit)
  | .lock t =>
    match s.pc t, s.mutex, s.calls t with
    | .idle, none, line :: calls =>
      some ({ s.goto t (.locked line) with
        mutex := some t
        calls := Function.update s.calls t calls
        called := s.called ++ [(t, line)] }, ())
    | _, _, _ => none
  | .format t =>
    match s.pc t with
    | .locked line => some ({ s.goto t (.formatted line) with sbuf := netRaw line.sent }, ())
    | _ => none
  | .append t =>
    match s.pc t with
    | .formatted _ => some ({ s.goto t .written with stream := s.stream ++ [⟨some t, s.sbuf⟩] }, ())
    | _ => none
  | .unlock t =>
    match s.pc t with
    | .written => some ({ s.goto t .idle with mutex := none }, ())
    | _ => none
  | .loop =>
    match s.todo with
    | .netRaws ptr :: todo =>
      some ({ s with todo, stream := s.stream ++ [⟨none, ptr⟩] }, ())
    | .modulesCheckCmd .. :: todo => some ({ s with todo }, ())
    | _ => none

/-- Before any of these steps. -/
def OutState.init (todo : List IrcAction) (calls : T → List LineText) : OutState T where
  mutex := none
  sbuf := CString.lit ""
  pc := fun _ => .idle
  calls := calls
  todo := todo
  stream := []
  called := []

/-! ## Whole lines -/

/-- A line of the stream: the reply to a `PING` with this rest, or the line of a call of `net_raw`.
-/
inductive OutLine (T : Type) where
  | pong (rest : LineText)
  | raw (t : T) (line : LineText)

/-- The first of the two appends of a reply. -/
def pongText (rest : LineText) : CString :=
  CString.lit "PONG" ++ rest.text

/-- The appends that make a line. -/
def OutLine.appends : OutLine T → List (Append T)
  | .pong rest => [⟨none, pongText rest⟩, ⟨none, CString.lit "\r\n"⟩]
  | .raw t line => [⟨some t, line.sent⟩]

/-- The call of `net_raw` behind a line. -/
def OutLine.call : OutLine T → Option (T × LineText)
  | .pong _ => none
  | .raw t line => some (t, line)

/-- The stream is made of whole lines, except for a reply that is not complete yet. The lines of
`net_raw` are those of its calls, in order. -/
def OutState.Unmixed (s : OutState T) : Prop :=
  ∃ lines : List (OutLine T), lines.filterMap OutLine.call <+: s.called ∧
    (s.stream = lines.flatMap OutLine.appends ∨
      ∃ rest, s.stream = lines.flatMap OutLine.appends ++ [⟨none, pongText rest⟩])

/-- A thread that appends finds `irc_loop` not between the two appends of a reply, and its line fits
into `sbuf`. -/
def OutAct.KeepsLines (s : OutState T) : OutAct T → Prop
  | .append t => s.todo.head? ≠ some (.netRaws (CString.lit "\r\n")) ∧
      ∀ line, s.pc t = .formatted line → line.sent.length ≤ 511
  | _ => True

/-! ## The invariant -/

/-- The line that a thread in `net_raw` has not appended yet. -/
def NetRawPc.pending : NetRawPc → Option LineText
  | .locked line => some line
  | .formatted line => some line
  | _ => none

/-- The call that has got the lock and has not appended its line yet. -/
def pendingCall (mutex : Option T) (pc : T → NetRawPc) : List (T × LineText) :=
  match mutex with
  | none => []
  | some t => (pc t).pending.toList.map fun line => (t, line)

/-- What `irc_loop` and the threads have done for whole lines `out`, with the lines of the server
still to be handled. -/
inductive OutState.Progress (s : OutState T) (out : List (OutLine T)) (server : List ServerLine) :
    Prop
  | between (todo : s.todo = server.flatMap ServerLine.meaning)
      (stream : s.stream = out.flatMap OutLine.appends)
  | inReply (rest : LineText)
      (todo : s.todo = .netRaws (CString.lit "\r\n") :: server.flatMap ServerLine.meaning)
      (stream : s.stream = out.flatMap OutLine.appends ++ [⟨none, pongText rest⟩])

/-- The invariant: the lock is held by the thread in `net_raw`, which alone writes `sbuf`, and the
stream is made of whole lines. -/
structure OutState.Ordered (s : OutState T) : Prop where
  owner : ∀ t, s.pc t ≠ .idle ↔ s.mutex = some t
  buffer : ∀ t line, s.pc t = .formatted line → s.sbuf = netRaw line.sent
  lines : ∃ out server, s.called = out.filterMap OutLine.call ++ pendingCall s.mutex s.pc ∧
    s.Progress out server

/-- The steps, each with what it needs and what it leaves. -/
inductive OutStep (s : OutState T) : OutAct T → OutState T → Prop
  | lock : s.pc t = .idle → s.mutex = none → s.calls t = line :: calls →
      OutStep s (.lock t) { s.goto t (.locked line) with
        mutex := some t
        calls := Function.update s.calls t calls
        called := s.called ++ [(t, line)] }
  | format : s.pc t = .locked line →
      OutStep s (.format t) { s.goto t (.formatted line) with sbuf := netRaw line.sent }
  | append : s.pc t = .formatted line →
      OutStep s (.append t) { s.goto t .written with stream := s.stream ++ [⟨some t, s.sbuf⟩] }
  | unlock : s.pc t = .written → OutStep s (.unlock t) { s.goto t .idle with mutex := none }
  | netRaws : s.todo = .netRaws ptr :: todo →
      OutStep s .loop { s with todo, stream := s.stream ++ [⟨none, ptr⟩] }
  | checkCmd : s.todo = .modulesCheckCmd user target message :: todo →
      OutStep s .loop { s with todo }

variable {s s' : OutState T} {u : Unit} {t : T} {line : LineText}

/-- Every step of the function is one of these. -/
theorem outStep_inv {act : OutAct T} (h : outStep s act = some (s', u)) : OutStep s act s' := by
  cases act with
  | lock t =>
    simp only [outStep] at h
    split at h
    · next hpc hmutex hcalls =>
      cases h
      exact .lock hpc hmutex hcalls
    · cases h
  | format t =>
    simp only [outStep] at h
    split at h
    · next hpc =>
      cases h
      exact .format hpc
    · cases h
  | append t =>
    simp only [outStep] at h
    split at h
    · next hpc =>
      cases h
      exact .append hpc
    · cases h
  | unlock t =>
    simp only [outStep] at h
    split at h
    · next hpc =>
      cases h
      exact .unlock hpc
    · cases h
  | loop =>
    simp only [outStep] at h
    split at h
    · next htodo =>
      cases h
      exact .netRaws htodo
    · next htodo =>
      cases h
      exact .checkCmd htodo
    · cases h

omit [DecidableEq T] in
/-- A thread in `net_raw` holds the lock. -/
theorem OutState.Ordered.mutex_eq (h : s.Ordered) (ht : s.pc t ≠ .idle) : s.mutex = some t :=
  (h.owner t).1 ht

/-- A thread gets the lock. -/
theorem OutState.Ordered.lock (h : s.Ordered) {calls : List LineText} (hmutex : s.mutex = none) :
    OutState.Ordered { s.goto t (.locked line) with
      mutex := some t
      calls := Function.update s.calls t calls
      called := s.called ++ [(t, line)] } := by
  obtain ⟨out, server, hcalled, hprogress⟩ := h.lines
  have hidle : ∀ t', s.pc t' = .idle := by
    intro t'
    by_contra ht'
    cases hmutex.symm.trans (h.mutex_eq ht')
  refine ⟨fun t' => ?_, fun t' line' hpc' => ?_, out, server, ?_, ?_⟩
  · show Function.update s.pc t (.locked line) t' ≠ .idle ↔ some t = some t'
    rw [Function.update_apply]
    split
    · next heq => exact ⟨fun _ => congrArg some heq.symm, fun _ => by rintro ⟨⟩⟩
    · next hne =>
      exact ⟨fun hne' => absurd (hidle t') hne', fun heq => absurd (Option.some.inj heq).symm hne⟩
  · replace hpc' : Function.update s.pc t (.locked line) t' = .formatted line' := hpc'
    rw [Function.update_apply] at hpc'
    split at hpc'
    · cases hpc'
    · cases (hidle t').symm.trans hpc'
  · show s.called ++ [(t, line)] = _ ++ pendingCall (some t) (Function.update s.pc t (.locked line))
    rw [hcalled, hmutex, pendingCall, pendingCall, Function.update_self, List.append_nil]
    rfl
  · cases hprogress with
    | between todo stream => exact .between todo stream
    | inReply rest todo stream => exact .inReply rest todo stream

/-- The thread that holds the lock goes on to another place of `net_raw`. -/
theorem OutState.Ordered.owner_goto {pc : NetRawPc} (h : s.Ordered) (ht : s.pc t ≠ .idle)
    (hpc : pc ≠ .idle) (t' : T) : Function.update s.pc t pc t' ≠ .idle ↔ s.mutex = some t' := by
  rw [Function.update_apply]
  split
  · next heq =>
    subst heq
    exact ⟨fun _ => h.mutex_eq ht, fun _ => hpc⟩
  · exact h.owner t'

/-- The line is formatted into `sbuf`. -/
theorem OutState.Ordered.format (h : s.Ordered) (hpc : s.pc t = .locked line) :
    OutState.Ordered { s.goto t (.formatted line) with sbuf := netRaw line.sent } := by
  have hbusy : s.pc t ≠ .idle := by rw [hpc]; rintro ⟨⟩
  obtain ⟨out, server, hcalled, hprogress⟩ := h.lines
  refine ⟨h.owner_goto hbusy (by rintro ⟨⟩), fun t' line' hpc' => ?_, out, server, ?_, ?_⟩
  · replace hpc' : Function.update s.pc t (.formatted line) t' = .formatted line' := hpc'
    rw [Function.update_apply] at hpc'
    split at hpc'
    · cases hpc'
      rfl
    · next hne =>
      -- another thread behind `vsnprintf` would hold the lock as well
      have hother : s.pc t' ≠ .idle := by rw [hpc']; rintro ⟨⟩
      cases (h.mutex_eq hbusy).symm.trans (h.mutex_eq hother)
      exact absurd rfl hne
  · show s.called = _ ++ pendingCall s.mutex (Function.update s.pc t (.formatted line))
    rw [h.mutex_eq hbusy, pendingCall, hpc] at hcalled
    rw [h.mutex_eq hbusy, pendingCall, Function.update_self]
    exact hcalled
  · cases hprogress with
    | between todo stream => exact .between todo stream
    | inReply rest todo stream => exact .inReply rest todo stream

/-- The thread gives the lock back. -/
theorem OutState.Ordered.unlock (h : s.Ordered) (hpc : s.pc t = .written) :
    OutState.Ordered { s.goto t .idle with mutex := none } := by
  have hbusy : s.pc t ≠ .idle := by rw [hpc]; rintro ⟨⟩
  have hall : ∀ t', Function.update s.pc t .idle t' = .idle := by
    intro t'
    rw [Function.update_apply]
    split
    · rfl
    · next hne =>
      by_contra hother
      cases (h.mutex_eq hbusy).symm.trans (h.mutex_eq hother)
      exact hne rfl
  obtain ⟨out, server, hcalled, hprogress⟩ := h.lines
  refine ⟨fun t' => ?_, fun t' line' hpc' => ?_, out, server, ?_, ?_⟩
  · exact ⟨fun hne => absurd (hall t') hne, by rintro ⟨⟩⟩
  · cases (hall t').symm.trans hpc'
  · rw [h.mutex_eq hbusy, pendingCall, hpc] at hcalled
    exact hcalled
  · cases hprogress with
    | between todo stream => exact .between todo stream
    | inReply rest todo stream => exact .inReply rest todo stream

/-- A line that fits into `sbuf` is appended between two lines. -/
theorem OutState.Ordered.append (h : s.Ordered) (hpc : s.pc t = .formatted line)
    (hkeeps : (OutAct.append t).KeepsLines s) :
    OutState.Ordered { s.goto t .written with stream := s.stream ++ [⟨some t, s.sbuf⟩] } := by
  have hbusy : s.pc t ≠ .idle := by rw [hpc]; rintro ⟨⟩
  obtain ⟨hbetween, hfits⟩ := hkeeps
  have hsbuf : s.sbuf = line.sent := by
    rw [h.buffer t line hpc]
    exact CString.ext (List.take_of_length_le (hfits line hpc))
  obtain ⟨out, server, hcalled, hprogress⟩ := h.lines
  refine ⟨h.owner_goto hbusy (by rintro ⟨⟩), fun t' line' hpc' => ?_, out ++ [.raw t line], server,
    ?_, ?_⟩
  · replace hpc' : Function.update s.pc t .written t' = .formatted line' := hpc'
    rw [Function.update_apply] at hpc'
    split at hpc'
    · cases hpc'
    · exact h.buffer t' line' hpc'
  · show s.called = _ ++ pendingCall s.mutex (Function.update s.pc t .written)
    rw [h.mutex_eq hbusy, pendingCall, hpc] at hcalled
    rw [h.mutex_eq hbusy, pendingCall, Function.update_self, List.filterMap_append]
    exact hcalled.trans (List.append_nil _).symm
  · cases hprogress with
    | between todo stream =>
      refine .between todo ?_
      show s.stream ++ _ = _
      rw [stream, List.flatMap_append, hsbuf]
      rfl
    | inReply rest todo stream => exact absurd (by rw [todo]; rfl) hbetween

/-- `irc_loop` goes on. -/
theorem OutState.Ordered.loop (h : s.Ordered) (hstep : OutStep s .loop s') : s'.Ordered := by
  obtain ⟨out, server, hcalled, hprogress⟩ := h.lines
  cases hprogress with
  | between todo stream =>
    cases server with
    | nil =>
      cases hstep with
      | netRaws htodo => cases todo.symm.trans htodo
      | checkCmd htodo => cases todo.symm.trans htodo
    | cons line server =>
      cases line with
      | ping rest =>
        cases hstep with
        | netRaws htodo =>
          cases todo.symm.trans htodo
          exact ⟨h.owner, h.buffer, out, server, hcalled,
            .inReply rest rfl (congrArg (· ++ _) stream)⟩
        | checkCmd htodo => cases todo.symm.trans htodo
      | privmsg user where' message =>
        cases hstep with
        | netRaws htodo => cases todo.symm.trans htodo
        | checkCmd htodo =>
          cases todo.symm.trans htodo
          exact ⟨h.owner, h.buffer, out, server, hcalled, .between rfl stream⟩
      | notice user where' message =>
        cases hstep with
        | netRaws htodo => cases todo.symm.trans htodo
        | checkCmd htodo =>
          cases todo.symm.trans htodo
          exact ⟨h.owner, h.buffer, out, server, hcalled, .between rfl stream⟩
  | inReply rest todo stream =>
    cases hstep with
    | netRaws htodo =>
      cases todo.symm.trans htodo
      refine ⟨h.owner, h.buffer, out ++ [.pong rest], server, ?_, .between rfl ?_⟩
      · rw [List.filterMap_append]
        exact hcalled.trans (congrArg (· ++ _) (List.append_nil _).symm)
      · show s.stream ++ _ = _
        rw [stream, List.flatMap_append, List.append_assoc]
        rfl
    | checkCmd htodo => cases todo.symm.trans htodo

omit [DecidableEq T] in
/-- The invariant gives whole lines. -/
theorem OutState.Ordered.unmixed (h : s.Ordered) : s.Unmixed := by
  obtain ⟨out, server, hcalled, hprogress⟩ := h.lines
  refine ⟨out, ⟨pendingCall s.mutex s.pc, hcalled.symm⟩, ?_⟩
  cases hprogress with
  | between todo stream => exact .inl stream
  | inReply rest todo stream => exact .inr ⟨rest, stream⟩

/-- A step that meets the condition keeps the invariant. -/
theorem OutState.Ordered.step {act : OutAct T} (h : s.Ordered) (hkeeps : act.KeepsLines s)
    (hstep : outStep s act = some (s', u)) : s'.Ordered := by
  have hinv := outStep_inv hstep
  cases hinv with
  | lock hpc hmutex hcalls => exact h.lock hmutex
  | format hpc => exact h.format hpc
  | append hpc => exact h.append hpc hkeeps
  | unlock hpc => exact h.unlock hpc
  | netRaws htodo => exact h.loop (.netRaws htodo)
  | checkCmd htodo => exact h.loop (.checkCmd htodo)

/-! ## Broken lines -/

omit [DecidableEq T] in
/-- In a stream of whole lines, what a thread appends is a line. -/
theorem OutState.Unmixed.line_of_mem (h : s.Unmixed) {x : CString}
    (hmem : ⟨some t, x⟩ ∈ s.stream) : ∃ line : LineText, x = line.sent := by
  obtain ⟨lines, -, hstream⟩ := h
  have hlines : ⟨some t, x⟩ ∈ lines.flatMap OutLine.appends := by
    rcases hstream with hstream | ⟨rest, hstream⟩
    · exact hstream ▸ hmem
    · simpa [hstream] using hmem
  obtain ⟨line, -, hline⟩ := List.mem_flatMap.1 hlines
  cases line with
  | pong rest => simp [OutLine.appends] at hline
  | raw t' line =>
    obtain ⟨-, rfl⟩ : t = t' ∧ x = line.sent := by simpa [OutLine.appends] using hline
    exact ⟨line, rfl⟩

omit [DecidableEq T] in
/-- A stream in which a thread appends behind the first part of a reply is not made of whole lines.
Induction on the lines before the reply. -/
theorem flatMap_appends_ne {rest : LineText} {x : CString} {last : List (Append T)}
    (hlast : last.length ≤ 1) : ∀ lines lines' : List (OutLine T),
      lines.flatMap OutLine.appends ++ [⟨none, pongText rest⟩, ⟨some t, x⟩] ≠
        lines'.flatMap OutLine.appends ++ last
  | lines, [], h => by
    have hlen := congrArg List.length h
    simp only [List.flatMap_nil, List.nil_append, List.length_append, List.length_cons,
      List.length_nil] at hlen
    omega
  | [], .pong rest' :: lines', h => by simp [OutLine.appends] at h
  | [], .raw t' line :: lines', h => by simp [OutLine.appends] at h
  | .pong rest' :: lines, .raw t' line :: lines', h => by simp [OutLine.appends] at h
  | .raw t' line :: lines, .pong rest' :: lines', h => by simp [OutLine.appends] at h
  | .pong rest₁ :: lines, .pong rest₂ :: lines', h => by
    simp only [List.flatMap_cons, OutLine.appends, List.append_assoc] at h
    exact flatMap_appends_ne hlast lines lines' (List.cons.inj (List.cons.inj h).2).2
  | .raw t₁ line₁ :: lines, .raw t₂ line₂ :: lines', h => by
    simp only [List.flatMap_cons, OutLine.appends, List.append_assoc] at h
    exact flatMap_appends_ne hlast lines lines' (List.cons.inj h).2

/-- The lines of the server never ask for a lone CR LF. -/
theorem head?_meaning_ne (server : List ServerLine) :
    (server.flatMap ServerLine.meaning).head? ≠ some (.netRaws (CString.lit "\r\n")) := by
  cases server with
  | nil => rintro ⟨⟩
  | cons line server =>
    cases line with
    | ping rest =>
      intro h
      have hbytes := congrArg CString.bytes (IrcAction.netRaws.inj (Option.some.inj h))
      rw [CString.bytes_append] at hbytes
      have hlen := congrArg List.length hbytes
      have hpong : (CString.lit "PONG").bytes.length = 4 := by decide
      have hcrlf : (CString.lit "\r\n").bytes.length = 2 := by decide
      rw [List.length_append] at hlen
      omega
    | privmsg user where' message => rintro ⟨⟩
    | notice user where' message => rintro ⟨⟩

/-- A line that is too long for `sbuf` is cut, and is no line any more. -/
theorem netRaw_ne_sent {line' : LineText} (hlong : 511 < line.sent.length) :
    netRaw line.sent ≠ line'.sent := by
  have hcrlf : (CString.lit "\r\n").bytes = [13, 10] := by decide
  intro heq
  have hbytes := congrArg CString.bytes heq
  rw [bytes_netRaw, LineText.sent, LineText.sent, CString.bytes_append, CString.bytes_append,
    hcrlf] at hbytes
  have hle := (mem_take_crlf line.noBreak.2).1 (hbytes ▸ List.mem_append_right _ (by decide))
  rw [LineText.sent, CString.length_append, CString.length, CString.length, hcrlf] at hlong
  have htwo : ([13, 10] : List UInt8).length = 2 := rfl
  omega

/-- An append that does not meet the condition breaks a line. -/
theorem OutState.Ordered.breaks {act : OutAct T} (h : s.Ordered) (hbreaks : ¬ act.KeepsLines s)
    (hstep : outStep s act = some (s', u)) : ¬ s'.Unmixed := by
  cases outStep_inv hstep with
  | @append t line hpc =>
    intro hunmixed
    obtain ⟨line', hline'⟩ := hunmixed.line_of_mem (List.mem_append_right _ (.head _))
    have hfits : ∀ line, s.pc t = .formatted line → line.sent.length ≤ 511 := by
      intro line₁ hpc₁
      by_contra hlong
      rw [h.buffer t line₁ hpc₁] at hline'
      exact netRaw_ne_sent (by omega) hline'
    have hreply : s.todo.head? = some (.netRaws (CString.lit "\r\n")) := by
      by_contra hbetween
      exact hbreaks ⟨hbetween, hfits⟩
    obtain ⟨out, server, -, hprogress⟩ := h.lines
    cases hprogress with
    | between todo stream => exact head?_meaning_ne server (todo ▸ hreply)
    | inReply rest todo stream =>
      obtain ⟨lines, -, hstream⟩ := hunmixed
      have hbroken : out.flatMap OutLine.appends ++ [⟨none, pongText rest⟩, ⟨some t, s.sbuf⟩] =
          s.stream ++ [⟨some t, s.sbuf⟩] := by
        rw [stream, List.append_assoc]
        rfl
      rcases hstream with hstream | ⟨rest', hstream⟩
      · have hnone : ([] : List (Append T)).length ≤ 1 := Nat.zero_le 1
        exact flatMap_appends_ne hnone out lines
          (hbroken.trans (hstream.trans (List.append_nil _).symm))
      · have hone : [(⟨none, pongText rest'⟩ : Append T)].length ≤ 1 := Nat.le_refl 1
        exact flatMap_appends_ne hone out lines (hbroken.trans hstream)
  | _ => exact absurd trivial hbreaks

theorem OutState.Ordered.loop_step (h : s.Ordered) (hstep : outStep s .loop = some (s', u)) :
    s'.Ordered :=
  h.loop (outStep_inv hstep)

/-- In every schedule the lines stay whole exactly as long as no thread appends between the two
appends of a reply, or a line that is too long. -/
theorem everyState_unmixed_iff (h : s.Ordered) (acts : List (OutAct T)) :
    EveryState outStep s acts OutState.Unmixed ↔ EachStep outStep s acts OutAct.KeepsLines :=
  everyState_iff_eachStep (fun _ hs => hs.unmixed) (fun _ _ _ _ hs hkeeps => hs.step hkeeps)
    (fun _ _ _ _ hs hbreaks => hs.breaks hbreaks) acts h

/-! ## All schedules -/

/-- Either `irc_loop` has nothing to append or the threads have, and all lines fit into `sbuf`. -/
structure OutState.Separate (s : OutState T) : Prop where
  apart : (∀ ptr, .netRaws ptr ∉ s.todo) ∨ ∀ t, s.calls t = [] ∧ s.pc t = .idle
  calls_fit : ∀ t, ∀ line ∈ s.calls t, line.sent.length ≤ 511
  pending_fits : ∀ t line, (s.pc t).pending = some line → line.sent.length ≤ 511

/-- In such a state every step meets the condition. -/
theorem OutState.Separate.keepsLines (h : s.Separate) {act : OutAct T}
    (hstep : outStep s act = some (s', u)) : act.KeepsLines s := by
  cases outStep_inv hstep with
  | append hpc =>
    refine ⟨fun hreply => ?_, fun line' hpc' => h.pending_fits _ line' (by rw [hpc']; rfl)⟩
    rcases h.apart with hnone | hidle
    · exact hnone _ (List.mem_of_mem_head? hreply)
    · cases (hidle _).2.symm.trans hpc
  | _ => trivial

/-- A thread gets to another place of `net_raw`. -/
theorem OutState.Separate.goto_fits (h : s.Separate) {pc : NetRawPc}
    (hpc : ∀ line, pc.pending = some line → line.sent.length ≤ 511) (t' : T) (line' : LineText)
    (hpending : (Function.update s.pc t pc t').pending = some line') :
    line'.sent.length ≤ 511 := by
  rw [Function.update_apply] at hpending
  split at hpending
  · exact hpc line' hpending
  · exact h.pending_fits t' line' hpending

omit [DecidableEq T] in
/-- Where a thread is in `net_raw`, `irc_loop` has nothing to append. -/
theorem OutState.Separate.no_netRaws (h : s.Separate) (hbusy : s.calls t ≠ [] ∨ s.pc t ≠ .idle) :
    ∀ ptr, .netRaws ptr ∉ s.todo := by
  rcases h.apart with hnone | hidle
  · exact hnone
  · exact hbusy.elim (fun hcalls => absurd (hidle t).1 hcalls) fun hpc => absurd (hidle t).2 hpc

/-- A step leaves such a state. -/
theorem OutState.Separate.step (h : s.Separate) {act : OutAct T}
    (hstep : outStep s act = some (s', u)) : s'.Separate := by
  cases outStep_inv hstep with
  | @lock t line calls hpc hmutex hcalls =>
    have hbusy : s.calls t ≠ [] := by rw [hcalls]; rintro ⟨⟩
    have hfits := h.calls_fit t
    rw [hcalls] at hfits
    refine ⟨.inl (h.no_netRaws (.inl hbusy)), fun t' line' hline' => ?_, h.goto_fits ?_⟩
    · replace hline' : line' ∈ Function.update s.calls t calls t' := hline'
      rw [Function.update_apply] at hline'
      split at hline'
      · exact hfits line' (.tail _ hline')
      · exact h.calls_fit t' line' hline'
    · rintro line' ⟨⟩
      exact hfits line (.head _)
  | @format t line hpc =>
    have hbusy : s.pc t ≠ .idle := by rw [hpc]; rintro ⟨⟩
    refine ⟨.inl (h.no_netRaws (.inr hbusy)), h.calls_fit, h.goto_fits ?_⟩
    rintro line' ⟨⟩
    exact h.pending_fits t line (by rw [hpc]; rfl)
  | @append t line hpc =>
    have hbusy : s.pc t ≠ .idle := by rw [hpc]; rintro ⟨⟩
    exact ⟨.inl (h.no_netRaws (.inr hbusy)), h.calls_fit, h.goto_fits (by rintro line' ⟨⟩)⟩
  | @unlock t hpc =>
    have hbusy : s.pc t ≠ .idle := by rw [hpc]; rintro ⟨⟩
    exact ⟨.inl (h.no_netRaws (.inr hbusy)), h.calls_fit, h.goto_fits (by rintro line' ⟨⟩)⟩
  | @netRaws todo ptr htodo =>
    refine ⟨.inr ?_, h.calls_fit, h.pending_fits⟩
    have hmem : .netRaws ptr ∈ s.todo := by
      rw [htodo]
      exact .head _
    exact h.apart.resolve_left fun hnone => hnone ptr hmem
  | checkCmd htodo =>
    refine ⟨h.apart.imp_left fun hnone ptr hmem => hnone ptr ?_, h.calls_fit, h.pending_fits⟩
    rw [htodo]
    exact .tail _ hmem

/-- From a state with whole lines and nothing to mix them, every schedule keeps them. -/
theorem OutState.Separate.everyState (h : s.Separate) (hs : s.Ordered) (acts : List (OutAct T)) :
    EveryState outStep s acts OutState.Unmixed := by
  have hkeep : ∀ (s : OutState T) act s' u, s.Ordered ∧ s.Separate →
      outStep s act = some (s', u) → s'.Ordered ∧ s'.Separate :=
    fun s act s' u ⟨hs, h⟩ hstep => ⟨hs.step (h.keepsLines hstep) hstep, h.step hstep⟩
  intro pre s' us hpre hrun
  exact (runSteps_preserves hkeep ⟨hs, h⟩ hrun).1.unmixed

/-- Whatever happens, the stream is made of whole lines. -/
def OutState.AlwaysUnmixed (s : OutState T) : Prop :=
  ∀ acts : List (OutAct T), EveryState outStep s acts OutState.Unmixed

theorem OutState.AlwaysUnmixed.step (h : s.AlwaysUnmixed) {act : OutAct T}
    (hstep : outStep s act = some (s', u)) : s'.AlwaysUnmixed :=
  fun acts => (everyState_cons.1 (h (act :: acts))).2 s' u hstep

/-- If whatever happens the lines stay whole, then a thread about to append keeps them whole. -/
theorem OutState.AlwaysUnmixed.keepsLines (h : s.AlwaysUnmixed) (hs : s.Ordered)
    (hpc : s.pc t = .formatted line) : (OutAct.append t).KeepsLines s := by
  by_contra hbreaks
  have hstep : outStep s (.append t) =
      some ({ s.goto t .written with stream := s.stream ++ [⟨some t, s.sbuf⟩] }, ()) := by
    rw [outStep, hpc]
  exact hs.breaks hbreaks hstep (everyState_nil.1 (h.step hstep []))

/-- A call of `net_raw` up to `_net_raws`, in a state in which no thread has the lock. -/
theorem OutState.AlwaysUnmixed.call (h : s.AlwaysUnmixed) (hs : s.Ordered) {calls : List LineText}
    (hmutex : s.mutex = none) (hcalls : s.calls t = line :: calls) :
    ∃ s₁ : OutState T, s₁.AlwaysUnmixed ∧ s₁.Ordered ∧ s₁.pc t = .formatted line ∧
      s₁.todo = s.todo ∧ s₁.calls t = calls := by
  have hpc : s.pc t = .idle := by
    by_contra hbusy
    cases hmutex.symm.trans (hs.mutex_eq hbusy)
  have hlock : outStep s (.lock t) = some ({ s.goto t (.locked line) with
      mutex := some t
      calls := Function.update s.calls t calls
      called := s.called ++ [(t, line)] }, ()) := by
    rw [outStep, hpc, hmutex, hcalls]
  have hkeeps : (OutAct.lock t).KeepsLines s := trivial
  have hs' := hs.step hkeeps hlock
  have h' := h.step hlock
  generalize hs₁ : OutState.mk _ _ _ _ _ _ _ = s₁ at hlock hs' h'
  have hpc₁ : s₁.pc t = .locked line := by
    rw [← hs₁]
    exact Function.update_self ..
  have hformat : outStep s₁ (.format t) =
      some ({ s₁.goto t (.formatted line) with sbuf := netRaw line.sent }, ()) := by
    rw [outStep, hpc₁]
  have hkeeps₁ : (OutAct.format t).KeepsLines s₁ := trivial
  refine ⟨_, h'.step hformat, hs'.step hkeeps₁ hformat, Function.update_self .., ?_, ?_⟩
  · rw [← hs₁]
    rfl
  · rw [← hs₁]
    exact Function.update_self ..

/-- If whatever happens the lines stay whole, then the lines of a thread fit into `sbuf`. Induction
on its calls. -/
theorem OutState.AlwaysUnmixed.calls_fit : ∀ {calls : List LineText} {s : OutState T},
    s.AlwaysUnmixed → s.Ordered → s.mutex = none → s.calls t = calls →
      ∀ line ∈ calls, line.sent.length ≤ 511
  | [], _, _, _, _, _ => by rintro line ⟨⟩
  | line :: calls, s, h, hs, hmutex, hcalls => by
    obtain ⟨s₁, h₁, hs₁, hpc, -, hcalls₁⟩ := h.call hs hmutex hcalls
    have hkeeps := h₁.keepsLines hs₁ hpc
    have happend : outStep s₁ (.append t) =
        some ({ s₁.goto t .written with stream := s₁.stream ++ [⟨some t, s₁.sbuf⟩] }, ()) := by
      rw [outStep, hpc]
    have h₂ := h₁.step happend
    have hs₂ := hs₁.step hkeeps happend
    generalize hs₂' : OutState.mk _ _ _ _ _ _ _ = s₂ at happend h₂ hs₂
    have hpc₂ : s₂.pc t = .written := by
      rw [← hs₂']
      exact Function.update_self ..
    have hunlock : outStep s₂ (.unlock t) = some ({ s₂.goto t .idle with mutex := none }, ()) := by
      rw [outStep, hpc₂]
    have hcalls₂ : s₂.calls t = calls := by
      rw [← hs₂']
      exact hcalls₁
    have hkeeps₂ : (OutAct.unlock t).KeepsLines s₂ := trivial
    have hrest := calls_fit (h₂.step hunlock) (hs₂.step hkeeps₂ hunlock) rfl hcalls₂
    intro line' hline'
    rcases List.mem_cons.1 hline' with rfl | hline'
    · exact hkeeps.2 line' hpc
    · exact hrest line' hline'

/-- If whatever happens the lines stay whole, and some thread is to call `net_raw`, then the server
sends no `PING`. Induction on its lines. -/
theorem OutState.AlwaysUnmixed.no_ping {calls : List LineText} :
    ∀ {server : List ServerLine} {s : OutState T}, s.AlwaysUnmixed → s.Ordered → s.mutex = none →
      s.calls t = line :: calls → s.todo = server.flatMap ServerLine.meaning →
      ∀ rest, .ping rest ∉ server
  | [], _, _, _, _, _, _, rest => by rintro ⟨⟩
  | .ping rest₁ :: server, s, h, hs, hmutex, hcalls, htodo, _ => by
    have hloop : outStep s .loop =
        some ({ s with
          todo := .netRaws (CString.lit "\r\n") :: server.flatMap ServerLine.meaning
          stream := s.stream ++ [⟨none, pongText rest₁⟩] }, ()) := by
      rw [outStep, htodo]
      rfl
    obtain ⟨s₁, h₁, hs₁, hpc, htodo₁, -⟩ := (h.step hloop).call (hs.loop_step hloop) hmutex hcalls
    exact absurd (by rw [htodo₁]; rfl) (h₁.keepsLines hs₁ hpc).1
  | .privmsg user where' message :: server, s, h, hs, hmutex, hcalls, htodo, rest => by
    have hloop : outStep s .loop =
        some ({ s with todo := server.flatMap ServerLine.meaning }, ()) := by
      rw [outStep, htodo]
      rfl
    have hrest := no_ping (h.step hloop) (hs.loop_step hloop) hmutex hcalls rfl rest
    simpa using hrest
  | .notice user where' message :: server, s, h, hs, hmutex, hcalls, htodo, rest => by
    have hloop : outStep s .loop =
        some ({ s with todo := server.flatMap ServerLine.meaning }, ()) := by
      rw [outStep, htodo]
      rfl
    have hrest := no_ping (h.step hloop) (hs.loop_step hloop) hmutex hcalls rfl rest
    simpa using hrest

/-- What `irc_loop` does for well-formed lines is what they ask for. -/
theorem ServerStream.actions_eq (server : ServerStream) (buf nickbuf : Mem) :
    server.actions buf nickbuf = server.lines.flatMap ServerLine.meaning :=
  ircLoop_roundTrip buf nickbuf server.short server.cut server.borders

omit [DecidableEq T] in
theorem ordered_init (server : List ServerLine) (calls : T → List LineText) :
    (OutState.init (server.flatMap ServerLine.meaning) calls).Ordered where
  owner t := ⟨fun h => absurd rfl h, by rintro ⟨⟩⟩
  buffer t line := by rintro ⟨⟩
  lines := ⟨[], server, rfl, .between rfl rfl⟩

/-- The lines of the outgoing stream stay whole in every schedule of `irc_loop` and the calls of
`net_raw`, if and only if the server sends no `PING` or no thread calls `net_raw`, and every line of
`net_raw` takes at most 511 bytes. -/
theorem unmixed_iff (server : ServerStream) (buf nickbuf : Mem) (calls : T → List LineText) :
    (∀ acts : List (OutAct T),
        EveryState outStep (.init (server.actions buf nickbuf) calls) acts OutState.Unmixed) ↔
      ((∀ rest, .ping rest ∉ server.lines) ∨ ∀ t, calls t = []) ∧
        ∀ t, ∀ line ∈ calls t, line.sent.length ≤ 511 := by
  rw [server.actions_eq]
  have hs := ordered_init server.lines calls
  constructor
  · intro h
    have halways : OutState.AlwaysUnmixed _ := h
    refine ⟨?_, fun t => halways.calls_fit hs rfl rfl⟩
    by_cases hcalls : ∀ t, calls t = []
    · exact .inr hcalls
    · obtain ⟨t, ht⟩ := not_forall.1 hcalls
      obtain ⟨line, rest, hline⟩ := List.exists_cons_of_ne_nil ht
      exact .inl (halways.no_ping hs rfl hline rfl)
  · rintro ⟨hapart, hfits⟩ acts
    refine OutState.Separate.everyState ⟨?_, hfits, by rintro t line ⟨⟩⟩ hs acts
    refine hapart.imp (fun hnone ptr hmem => ?_) fun hcalls t => ⟨hcalls t, rfl⟩
    obtain ⟨line, hline, hmeaning⟩ := List.mem_flatMap.1 hmem
    cases line with
    | ping rest => exact hnone rest hline
    | privmsg user where' message => simp [ServerLine.meaning] at hmeaning
    | notice user where' message => simp [ServerLine.meaning] at hmeaning

end

/-- A server that sends `PING x` once. -/
def pingStream : ServerStream where
  lines := [.ping ⟨CString.lit " x", by decide⟩]
  chunks := [⟨(CString.lit "PING x\r\n").bytes, by decide, by decide⟩]
  short := by decide
  cut := by decide
  borders := by
    unfold BordersOutside
    decide

/-- A thread sends a message while `irc_loop` is between `PONG x` and its CR LF. -/
theorem not_unmixed :
    ¬ ∀ acts : List (OutAct Unit),
        EveryState outStep
          (.init (pingStream.actions (fun _ => 0) fun _ => 0)
            fun _ => [⟨CString.lit "PRIVMSG #a :hi", by decide⟩])
          acts OutState.Unmixed := by
  intro h
  rw [pingStream.actions_eq] at h
  obtain ⟨lines, -, hstream⟩ :=
    h [.loop, .lock (), .format (), .append ()] _ _ _ (List.prefix_refl _) rfl
  have hbroken := @flatMap_appends_ne Unit () ⟨CString.lit " x", by decide⟩
    (CString.lit "PRIVMSG #a :hi\r\n")
  rcases hstream with hstream | ⟨rest, hstream⟩
  · have hnone : ([] : List (Append Unit)).length ≤ 1 := Nat.zero_le 1
    exact hbroken hnone [] lines (hstream.trans (List.append_nil _).symm)
  · have hone : [(⟨none, pongText rest⟩ : Append Unit)].length ≤ 1 := Nat.le_refl 1
    exact hbroken hone [] lines hstream

end MinervaBot
