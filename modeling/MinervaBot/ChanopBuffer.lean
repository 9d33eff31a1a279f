import MinervaBot.ChanopLevels
import MinervaBot.CmdBlock
import MinervaBot.Commands
import MinervaBot.IrcActions

/-!
# The buffer of `bot_chanop`

`handle_cmd` of `bot_chanop` copies its arguments behind a mode of three bytes into `cmd_buf`, which
has 513, and checks nothing. For a line of at most 512 bytes `irc_loop` calls `modules_check_cmd`
with a message of at most 510 (`length_message_le`), of which a byte of the prefix, the command word
and what ends it are no arguments (`length_args_le`); so the copy and its terminator fit
(`cmdBuf_inBounds`).
-/

namespace MinervaBot

open Lib

/-! ## The copies -/

/-- The indices of `cmd_buf` that a mode and `memcpy(cmd_buf + 3, args, len + 1)` write. -/
def modeWrites (args : CString) : List Nat :=
  [0, 1, 2] ++ List.range' 3 (args.length + 1)

/-- The indices of `cmd_buf` that `handle_cmd` writes. -/
def cmdBufWrites (level : Int) (cmdname args : CString) : List Nat :=
  if level < permsHop then []
  else
    (match cmdname.bytes.head? with
      | some 118 => modeWrites args
      | _ => []) ++
    if level < permsOp then []
    else
      match cmdname.bytes.head? with
      | some 98 | some 111 => modeWrites args
      | _ => []

/-- The string at an address as the thread for a queued command hands it to the handler, in a memory
`later` than the call of `threadpool_queue_cmd`. -/
def QueueCall.seen {t : CmdStrings} (call : QueueCall t) (later : Mem) (p : Int) : CString :=
  (ircParsesenderAt call.len later call.arg.from).2.cstr p call.len

/-- Wherever the strings of a queued command stand, and whatever is written outside its block after
the call, `handle_cmd` writes within the 513 bytes of `cmd_buf`, for a sender of any level. -/
def CopiesFit (q : QueueCmd CommandHandler) : Prop :=
  ∀ (call : QueueCall ⟨q.cmdname, q.sender, q.target, q.args⟩) (later : Mem),
    Mem.SameOn ⟨call.queued.block, call.queued.size⟩ call.queued.mem later →
      ∀ level, ∀ i ∈ cmdBufWrites level (call.seen later call.arg.cmdname)
        (call.seen later call.arg.args), i < 513

section
variable {l : Int} {buf nickbuf : Mem} {line : List UInt8}
  {cmdPrefix sender target message : CString}

/-- What `handle_cmd` writes is what a mode and its arguments take. -/
theorem mem_modeWrites {level : Int} {cmdname args : CString} {i : Nat}
    (h : i ∈ cmdBufWrites level cmdname args) : i ∈ modeWrites args := by
  unfold cmdBufWrites at h
  grind

/-- A mode and its arguments take three bytes, those of the arguments and the terminator. -/
theorem lt_of_mem_modeWrites {args : CString} {i : Nat} (h : i ∈ modeWrites args) :
    i < 3 + (args.length + 1) := by
  simp only [modeWrites, List.mem_append, List.mem_cons, List.not_mem_nil, or_false,
    List.mem_range'_1] at h
  omega

/-! ## The message -/

/-- The message of a call is where the scan found it. -/
theorem exists_message_of_mem_ircLine
    (h : .modulesCheckCmd sender target message ∈ (ircLine l buf nickbuf).2.2) :
    ∃ i, (ircScanLoop l (l - 1).toNat 1 { buf }).message = some i ∧
      message = bufStr (ircScanLoop l (l - 1).toNat 1 { buf }).buf i := by
  unfold ircLine at h
  split at h
  · simp at h
  split at h
  · simp only at h
    generalize ircScanLoop l (l - 1).toNat 1 { buf } = p at h ⊢
    split at h
    · split at h
      · cases h
      · split at h
        · split at h
          · next i _ hi =>
            simp only [List.mem_singleton, IrcAction.modulesCheckCmd.injEq] at h
            exact ⟨i, hi, h.2.2⟩
          · cases h
        · cases h
    · cases h
  · cases h

/-- The message of a line of at most 512 bytes has at most 510. -/
theorem length_message_le (hlen : line.length ≤ 512)
    (h : .modulesCheckCmd sender target message ∈ lineActions line) : message.length ≤ 510 := by
  obtain ⟨i, hi, rfl⟩ := exists_message_of_mem_ircLine h
  have hterm : terminator (line.length - 1) = line.length - 2 := by
    rw [terminator, if_neg (by omega)]
    omega
  rw [hterm] at hi ⊢
  by_cases hl : (1 : Int) ≤ line.length - 1
  · have hwithin := ircScan_within (t := line.length - 2) hl (by omega)
      (Mem.write_same (Mem.copy (fun _ => 0) 0 line) (line.length - 2) 0)
    have hmessage := hwithin.message i hi
    refine (length_bufStr_le hwithin.nul hmessage.2 (by omega)).trans ?_
    omega
  · rw [show ((line.length : Int) - 1 - 1).toNat = 0 by omega] at hi
    cases hi

/-! ## The arguments -/

/-- The arguments of a command are shorter than its message by two bytes at least. -/
theorem length_args_le {H : Type} {cmds : CommandTree H} {q : QueueCmd H}
    (h : modulesCheckCmd cmdPrefix cmds sender target message = some q) :
    q.args.length ≤ message.length - 2 := by
  unfold modulesCheckCmd at h
  split at h
  · cases h
  split at h
  · cases h
  obtain ⟨r, hr, rfl⟩ := Option.map_eq_some_iff.1 h
  rw [modulesCheckCmdWalk_eq] at hr
  obtain ⟨handler, -, rfl⟩ := Option.map_eq_some_iff.1 hr
  simp only [afterWord, CString.length_drop]
  omega

/-- With arguments of at most 509 bytes `handle_cmd` returns, for any command word and sender. -/
theorem chanopHandleCmd_returns {args : CString} (h : args.length ≤ 509) (cmdname : CString)
    (who : CommandSender) (where' : CString) :
    (chanopHandleCmd cmdname who where' args).Returns := by
  have hbuf : ∀ mode : CString, mode.length = 3 → (cmdBuf mode args).Returns := fun mode hmode b =>
    ⟨_, _, cmdBuf_fits hmode (by omega)⟩
  have hcall : ∀ call, (coreCall call).Returns := fun _ => .modify _
  have hfirst : (chanopHopCmd cmdname where' args).Returns := by
    unfold chanopHopCmd
    split
    · split <;> exact hcall _
    · exact .bind (hbuf _ (by decide)) fun _ => hcall _
    · exact .pure ()
  have hsecond : (chanopOpCmd cmdname where' args).Returns := by
    unfold chanopOpCmd
    split
    · exact hcall _
    · exact .bind (hbuf _ (by decide)) fun _ => .bind (hcall _) fun _ => hcall _
    · exact .bind (hbuf _ (by decide)) fun _ => hcall _
    · exact .pure ()
  have hrefuse : (refuse who where').Returns := .bind (hcall _) fun _ => .pure 0
  unfold chanopHandleCmd
  split
  · exact hrefuse
  · refine .bind hfirst fun _ => ?_
    split
    · exact hrefuse
    · exact .bind hsecond fun _ => .pure 0

/-- Whatever `irc_loop` receives, a line of at most 512 bytes that makes `modules_check_cmd` queue
the `handle_cmd` of `bot_chanop` makes it write within `cmd_buf`, and so it is defined. -/
theorem cmdBuf_inBounds (buf nickbuf : Mem) (chunks : List Chunk) :
    ∀ line ∈ (ircLoop (received chunks) (.init buf nickbuf)).lines, line.length ≤ 512 →
      ∀ sender target message, .modulesCheckCmd sender target message ∈ lineActions line →
        ∀ (cmdPrefix : CString) (cmds : CommandTree CommandHandler) (q : QueueCmd CommandHandler),
          modulesCheckCmd cmdPrefix cmds sender target message = some q →
            q.handler = chanopHandleCmd →
              CopiesFit q ∧ ∀ who b, (q.handler q.cmdname who q.target q.args b).1 ≠ .undefined := by
  intro line _ hlen sender target message hcall cmdPrefix cmds q hq hhandler
  have hmessage := length_message_le hlen hcall
  have hargs := length_args_le hq
  refine ⟨fun call later hlater level i hi => ?_, fun who b => ?_⟩
  · obtain ⟨-, -, hseen⟩ := cstr_afterParsesender (call.holds_of_sameOn hlater)
      (List.pairwise_cons.1 call.regions_pairwise.1).2 call.toList_lt
    have hlt := lt_of_mem_modeWrites (mem_modeWrites hi)
    rw [QueueCall.seen, hseen] at hlt
    simp only at hlt
    omega
  · rw [hhandler]
    exact (chanopHandleCmd_returns (by omega) _ _ _).ne_undefined b

end

/-- A line with a command for `bot_chanop`. -/
def voiceLine : Chunk where
  rbuf := (CString.lit ":n!u@h PRIVMSG #c :!voice bob\r\n").bytes
  nonempty := by decide
  length_le := by decide

/-- The tree with the command `voice` of `bot_chanop`. -/
def voiceTree : CommandTree CommandHandler :=
  (modulesRegisterCmd (fun _ => true) cmdsInit (CString.lit "voice") (some chanopHandleCmd)).2

/-- `!voice bob` in a line of 31 bytes. -/
theorem cmdBuf_inBounds_voice :
    CopiesFit ⟨chanopHandleCmd, CString.lit "voice", CString.lit "n!u@h", CString.lit "#c",
        CString.lit "bob"⟩ ∧
      ∀ who b, (chanopHandleCmd (CString.lit "voice") who (CString.lit "#c") (CString.lit "bob") b).1 ≠
        .undefined := by
  have hmessage : CString.lit "!voice bob" = CString.lit "!" ++ CString.lit "voice bob" := by decide
  have hword : lowercase (firstWord ((CString.lit "!" ++ CString.lit "voice bob").drop 1)).bytes =
      some [21, 14, 8, 2, 4] := by decide
  have hbound : voiceTree.find [21, 14, 8, 2, 4] = some chanopHandleCmd := rfl
  have hqueues := modulesCheckCmd_of_find (by decide) hword hbound (CString.lit "n!u@h")
    (CString.lit "#c")
  have hfirst : firstWord ((CString.lit "!" ++ CString.lit "voice bob").drop 1) =
      CString.lit "voice" := by decide
  have hargs : afterWord ((CString.lit "!" ++ CString.lit "voice bob").drop 1) =
      CString.lit "bob" := by decide
  rw [hfirst, hargs, ← hmessage] at hqueues
  exact cmdBuf_inBounds (fun _ => 0) (fun _ => 0) [voiceLine] voiceLine.rbuf (by decide +kernel)
    (by decide) _ _ _ (by decide +kernel) _ _ _ hqueues rfl

end MinervaBot
