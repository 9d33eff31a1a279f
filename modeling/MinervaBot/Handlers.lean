import MinervaBot.Threadpool

/-!
# The handlers of `bot_admin`, `bot_chanop` and `bot_perms`

Each handler compares the level of the sender with its thresholds before it calls into the core.
`CoreCall.Allowed` states what a level allows, call by call. `Handler.run_preserves` is the rule for
the handlers: it says once which calls a handler makes, for which levels and words.

The handlers do not keep to what is allowed: `voice` puts its arguments behind `+v ` as they are, so
that a sender with `PERMS_HOP` sets any mode with a second word (`+v ann +o ann`). `mediated_iff`
says that nothing else goes wrong, through `threadpool_wrapper_cmd`, where the level comes from
`permissions_get`.
-/

namespace MinervaBot

open Lib

/-! ## `bot_admin` -/

/-- The refusal shared by `bot_admin` and `bot_chanop`. -/
def refuse (who : CommandSender) (where' : CString) : Exec Bot Int := do
  coreCall (.msgva where' (.insufficient who.nick))
  return 0

/-- `handle_reload` of `bot_admin`. -/
def handleReload : CommandHandler := fun _ who where' _ =>
  if who.permissionLevel < permsOwner then refuse who where'
  else do
    coreCall (.msg where' (CString.lit "Oops, not 100% implemented yet."))
    coreCall .raiseUsr1
    return 0

/-- `handle_cmd` of `bot_admin`. -/
def adminHandleCmd : CommandHandler := fun cmdname who where' args =>
  if who.permissionLevel < permsAdmin then refuse who where'
  else do
    match cmdname.bytes.head? with
    | some 106 => coreCall (.join args)
    | some 112 => coreCall (.part args (CString.lit "You're gonna miss me when I'm gone!"))
    | _ => pure ()
    return 0

/-- `handle_raw` of `bot_admin`. -/
def handleRaw : CommandHandler := fun _ who where' args =>
  if who.permissionLevel < permsOwner then refuse who where'
  else do
    coreCall (.raw args)
    return 0

/-! ## `bot_chanop` -/

/-- `cmd_buf` with a mode and the arguments behind it; undefined if they do not fit into its 513
bytes. -/
def cmdBuf (mode args : CString) : Exec Bot CString :=
  Exec.ofOption (if mode.length + (args.length + 1) ≤ 513 then some (mode ++ args) else none)

/-- The first `switch` of `handle_cmd` of `bot_chanop`. -/
def chanopHopCmd (cmdname where' args : CString) : Exec Bot Unit :=
  match cmdname.bytes.head? with
  | some 107 =>
    match args.strchr 32 with
    | some p => coreCall (.kick where' (args.take p) (some (args.drop (p + 1))))
    | none => coreCall (.kick where' args none)
  | some 118 => do
    let modes ← cmdBuf (CString.lit "+v ") args
    coreCall (.chmode where' modes)
  | _ => pure ()

/-- The second `switch` of `handle_cmd` of `bot_chanop`. -/
def chanopOpCmd (cmdname where' args : CString) : Exec Bot Unit :=
  match cmdname.bytes.head? with
  | some 109 => coreCall (.chmode where' args)
  | some 98 => do
    let modes ← cmdBuf (CString.lit "+b ") args
    coreCall (.chmode where' modes)
    coreCall (.rawVa (CString.lit "REMOVE " ++ where' ++ CString.lit " " ++ args ++
      CString.lit " :Banned.\r\n"))
  | some 111 => do
    let modes ← cmdBuf (CString.lit "+o ") args
    coreCall (.chmode where' modes)
  | _ => pure ()

/-- `handle_cmd` of `bot_chanop`. -/
def chanopHandleCmd : CommandHandler := fun cmdname who where' args =>
  if who.permissionLevel < permsHop then refuse who where'
  else do
    chanopHopCmd cmdname where' args
    if who.permissionLevel < permsOp then refuse who where'
    else do
      chanopOpCmd cmdname where' args
      return 0

/-! ## `bot_perms` -/

/-- `setp` in `handle_cmd` of `bot_perms`. -/
def handleSetp (alloc : Alloc) (who : CommandSender) (where' args : CString) : Exec Bot Unit :=
  match args.strchr 32 with
  | none => coreCall (.msgva where' (.invalidUsage who.nick))
  | some i =>
    let t := args.drop (i + 1)
    let permLevel := CString.atoi (args.take i)
    if who.permissionLevel ≥ permsOp ∧ permLevel < who.permissionLevel then do
      ctxSetperms alloc t permLevel
      coreCall (.msgva where' (.levelSet who.nick t permLevel))
    else coreCall (.msgva where' (.lackPermission who.nick t permLevel))

/-- `getp` in `handle_cmd` of `bot_perms`. -/
def handleGetp (who : CommandSender) (where' args : CString) : Exec Bot Unit :=
  if args.length > 0 ∧ who.permissionLevel ≥ permsHop then do
    let permLevel ← ctxGetperms args
    coreCall (.msgva where' (.hostLevel who.nick args permLevel))
  else coreCall (.msgva where' (.ownLevel who.nick who.permissionLevel))

/-- `handle_cmd` of `bot_perms`. -/
def permsHandleCmd (alloc : Alloc) : CommandHandler := fun cmdname who where' args => do
  match cmdname.bytes.head? with
  | some 115 => handleSetp alloc who where' args
  | some 103 => handleGetp who where' args
  | _ => pure ()
  return 0

/-- The handlers of the three modules. -/
inductive Handler where
  | reload
  | admin
  | raw
  | chanop
  | perms (alloc : Alloc)
  deriving DecidableEq

/-- The function behind a handler. -/
def Handler.run : Handler → CommandHandler
  | .reload => handleReload
  | .admin => adminHandleCmd
  | .raw => handleRaw
  | .chanop => chanopHandleCmd
  | .perms alloc => permsHandleCmd alloc

/-! ## What the calls do -/

/-- A call into the core, and what comes after it. -/
@[simp] theorem coreCall_bind {α : Type} (call : CoreCall) (f : Unit → Exec Bot α) (b : Bot) :
    (coreCall call >>= f) b = f () { b with calls := b.calls ++ [call] } := rfl

/-- A value, and what comes after it. -/
theorem pure_apply_bind {α β : Type} (a : α) (f : α → Exec Bot β) (b : Bot) :
    ((pure a : Exec Bot α) >>= f) b = f a b := rfl

/-- A refusal is a message. -/
theorem refuse_apply (who : CommandSender) (where' : CString) (b : Bot) :
    refuse who where' b =
      (.returned 0, { b with calls := b.calls ++ [.msgva where' (.insufficient who.nick)] }) := rfl

/-- A text put together in `buf`, and what comes after it: undefined where the text is too long. -/
theorem cmdBuf_bind {α : Type} (mode args : CString) (f : CString → Exec Bot α) (b : Bot) :
    (cmdBuf mode args >>= f) b =
      if mode.length + (args.length + 1) ≤ 513 then f (mode ++ args) b else (.undefined, b) := by
  unfold cmdBuf
  split
  · rfl
  · rfl

/-! ## What a level allows -/

/-- A message other than one that reports another host's level. -/
def CoreCall.IsNotice : CoreCall → Prop
  | .msgva _ (.hostLevel ..) => False
  | .msgva .. => True
  | _ => False

/-- At most one word, with any blanks around it. -/
def OneWord (s : CString) : Prop :=
  ∀ c ∈ (s.bytes.dropWhile (· == 32)).dropWhile (· != 32), c = 32

/-- The modes give one voice and nothing else. -/
def IsVoice (modes : CString) : Prop :=
  ∃ nick, modes = CString.lit "+v " ++ nick ∧ OneWord nick

/-- The calls that a command word may cause for a sender with this level. -/
def CoreCall.Allowed (level : Int) (cmdname : CString) : CoreCall → Prop
  | .kick .. | .getperms .. | .msgva _ (.hostLevel ..) => permsHop ≤ level
  | .chmode _ modes =>
    permsHop ≤ level ∧ cmdname.bytes.head? = some 118 ∧ IsVoice modes ∨ permsOp ≤ level
  | .rawVa .. => permsOp ≤ level
  | .setperms _ newLevel => permsOp ≤ level ∧ newLevel < level
  | .join .. | .part .. => permsAdmin ≤ level
  | .raw .. | .raiseUsr1 | .msg .. => permsOwner ≤ level
  | .msgva .. => True

/-- With a level below `PERMS_OP`, `voice` sets modes that only `PERMS_OP` allows: its arguments are
more than one word, and they fit into `cmd_buf`. -/
structure Handler.Smuggles (handler : Handler) (level : Int) (cmdname args : CString) : Prop where
  chanop : handler = .chanop
  voice : cmdname.bytes.head? = some 118
  hop_le : permsHop ≤ level
  lt_op : level < permsOp
  words : ¬ OneWord args
  fits : 3 + (args.length + 1) ≤ 513

/-- The call is allowed, or the modes of such a `voice`. -/
def CoreCall.Checked (handler : Handler) (level : Int) (cmdname args : CString) (call : CoreCall) :
    Prop :=
  call.Allowed level cmdname ∨
    handler.Smuggles level cmdname args ∧ ∃ chan, call = .chmode chan (CString.lit "+v " ++ args)

/-- Below `PERMS_HOP`, only notices are allowed. -/
theorem CoreCall.Allowed.isNotice {level : Int} {cmdname : CString} {call : CoreCall}
    (h : call.Allowed level cmdname) (hlevel : level < permsHop) : call.IsNotice := by
  simp only [permsHop] at hlevel
  rcases call with _ | _ | _ | ⟨_, reply⟩ | _ | _ | _ | _ | _ | _ | _
  case msgva =>
    cases reply with
    | hostLevel => simp only [Allowed, permsHop] at h; omega
    | _ => trivial
  all_goals
    simp only [Allowed, permsHop, permsOp, permsAdmin, permsOwner] at h
    omega

/-- Below `PERMS_HOP`, only notices are sent. -/
theorem CoreCall.Checked.isNotice {handler : Handler} {level : Int} {cmdname args : CString}
    {call : CoreCall} (h : call.Checked handler level cmdname args) (hlevel : level < permsHop) :
    call.IsNotice := by
  rcases h with hallowed | ⟨hsmuggles, -⟩
  · exact hallowed.isNotice hlevel
  · exact absurd hsmuggles.hop_le (Int.not_le.2 hlevel)

/-- The modes of `voice` are allowed below `PERMS_OP` if the arguments are one word. -/
theorem CoreCall.allowed_voice_iff {level : Int} {cmdname where' args : CString}
    (hlevel : level < permsOp) :
    (CoreCall.chmode where' (CString.lit "+v " ++ args)).Allowed level cmdname ↔
      permsHop ≤ level ∧ cmdname.bytes.head? = some 118 ∧ OneWord args := by
  constructor
  · rintro (⟨hhop, hword, nick, hmodes, hnick⟩ | hop)
    · obtain rfl : args = nick := CString.ext (List.append_cancel_left (congrArg (·.bytes) hmodes))
      exact ⟨hhop, hword, hnick⟩
    · exact absurd hop (Int.not_le.2 hlevel)
  · rintro ⟨hhop, hword, hargs⟩
    exact .inl ⟨hhop, hword, args, rfl, hargs⟩

/-! ## The calls of a handler -/

/-- The call speaks to the channel, if it is one that does. -/
def CoreCall.At (where' : CString) : CoreCall → Prop
  | .msg chan _ | .msgva chan _ | .chmode chan _ | .kick chan _ _ => chan = where'
  | .rawVa message => ∃ rest, message = CString.lit "REMOVE " ++ where' ++ rest
  | _ => True

/-- The arguments of `setp` give the level to the host. -/
def Names (args host : CString) (level : Int) : Prop :=
  ∃ i, args.strchr 32 = some i ∧ host = args.drop (i + 1) ∧ level = CString.atoi (args.take i)

section
variable {Q : Bot → Prop} {cmdname where' args : CString} {who : CommandSender}

/-- What a refusal preserves. -/
theorem refuse_preserves
    (hcall : ∀ call : CoreCall, call.At where' → call.Allowed who.permissionLevel cmdname →
      Exec.Preserves Q (coreCall call)) :
    Exec.Preserves Q (refuse who where') :=
  Exec.Preserves.bind (hcall (.msgva where' _) rfl trivial) fun _ => .pure 0

/-- What the handler of `reload` preserves. -/
theorem handleReload_preserves
    (hcall : ∀ call : CoreCall, call.At where' → call.Allowed who.permissionLevel cmdname →
      Exec.Preserves Q (coreCall call)) :
    Exec.Preserves Q (handleReload cmdname who where' args) := by
  unfold handleReload
  split
  · exact refuse_preserves hcall
  · next h =>
    have hlevel : permsOwner ≤ who.permissionLevel := Int.not_lt.1 h
    exact Exec.Preserves.bind (hcall (.msg where' _) rfl hlevel) fun _ =>
      Exec.Preserves.bind (hcall .raiseUsr1 trivial hlevel) fun _ => .pure 0

/-- What the handler of `join` and `part` preserves. -/
theorem adminHandleCmd_preserves
    (hcall : ∀ call : CoreCall, call.At where' → call.Allowed who.permissionLevel cmdname →
      Exec.Preserves Q (coreCall call)) :
    Exec.Preserves Q (adminHandleCmd cmdname who where' args) := by
  unfold adminHandleCmd
  split
  · exact refuse_preserves hcall
  · next h =>
    have hlevel : permsAdmin ≤ who.permissionLevel := Int.not_lt.1 h
    split
    · exact Exec.Preserves.bind (hcall (.join args) trivial hlevel) fun _ => .pure 0
    · exact Exec.Preserves.bind (hcall (.part args _) trivial hlevel) fun _ => .pure 0
    · exact Exec.Preserves.bind (.pure ()) fun _ => .pure 0

/-- What the handler of `raw` preserves. -/
theorem handleRaw_preserves
    (hcall : ∀ call : CoreCall, call.At where' → call.Allowed who.permissionLevel cmdname →
      Exec.Preserves Q (coreCall call)) :
    Exec.Preserves Q (handleRaw cmdname who where' args) := by
  unfold handleRaw
  split
  · exact refuse_preserves hcall
  · next h =>
    have hlevel : permsOwner ≤ who.permissionLevel := Int.not_lt.1 h
    exact Exec.Preserves.bind (hcall (.raw args) trivial hlevel) fun _ => .pure 0

/-- What the use of `cmd_buf` preserves. -/
theorem cmdBuf_preserves {mode : CString} {next : CString → Exec Bot Unit}
    (hnext : mode.length + (args.length + 1) ≤ 513 → Exec.Preserves Q (next (mode ++ args))) :
    Exec.Preserves Q (cmdBuf mode args >>= next) := by
  intro b hb
  rw [cmdBuf_bind]
  split
  · next hfits => exact hnext hfits b hb
  · exact hb

/-- What the first `switch` of `bot_chanop` preserves. -/
theorem chanopHopCmd_preserves {level : Int} (hlevel : permsHop ≤ level)
    (hcall : ∀ call : CoreCall, call.At where' → call.Checked .chanop level cmdname args →
      Exec.Preserves Q (coreCall call)) :
    Exec.Preserves Q (chanopHopCmd cmdname where' args) := by
  unfold chanopHopCmd
  split
  · split
    · exact hcall (.kick where' _ _) rfl (.inl hlevel)
    · exact hcall (.kick where' _ _) rfl (.inl hlevel)
  · next hword =>
    refine cmdBuf_preserves fun hfits => hcall (.chmode where' _) rfl ?_
    -- from `PERMS_OP` on any modes are allowed, below it one voice
    rcases Int.lt_or_le level permsOp with hop | hop
    · by_cases hwords : OneWord args
      · exact .inl ((CoreCall.allowed_voice_iff hop).2 ⟨hlevel, hword, hwords⟩)
      · exact .inr ⟨⟨rfl, hword, hlevel, hop, hwords, hfits⟩, where', rfl⟩
    · exact .inl (.inr hop)
  · exact .pure ()

/-- What the second `switch` of `bot_chanop` preserves. -/
theorem chanopOpCmd_preserves {level : Int} (hlevel : permsOp ≤ level)
    (hcall : ∀ call : CoreCall, call.At where' → call.Allowed level cmdname →
      Exec.Preserves Q (coreCall call)) :
    Exec.Preserves Q (chanopOpCmd cmdname where' args) := by
  have hmode : ∀ modes, Exec.Preserves Q (coreCall (.chmode where' modes)) := fun modes =>
    hcall (.chmode where' modes) rfl (.inr hlevel)
  unfold chanopOpCmd
  split
  · exact hmode args
  · refine cmdBuf_preserves fun _ => (hmode _).bind fun _ => hcall _ ?_ hlevel
    refine ⟨CString.lit " " ++ args ++ CString.lit " :Banned.\r\n", ?_⟩
    simp only [CString.ext_iff, CString.bytes_append, List.append_assoc]
  · exact cmdBuf_preserves fun _ => hmode _
  · exact .pure ()

/-- What the handler of `bot_chanop` preserves. -/
theorem chanopHandleCmd_preserves
    (hcall : ∀ call : CoreCall, call.At where' →
      call.Checked .chanop who.permissionLevel cmdname args → Exec.Preserves Q (coreCall call)) :
    Exec.Preserves Q (chanopHandleCmd cmdname who where' args) := by
  unfold chanopHandleCmd
  split
  · exact refuse_preserves fun call hat h => hcall call hat (.inl h)
  · next h =>
    refine (chanopHopCmd_preserves (Int.not_lt.1 h) hcall).bind fun _ => ?_
    split
    · exact refuse_preserves fun call hat h => hcall call hat (.inl h)
    · next h' =>
      refine Exec.Preserves.bind (chanopOpCmd_preserves (Int.not_lt.1 h') ?_) fun _ => .pure 0
      exact fun call hat h => hcall call hat (.inl h)

/-- What `setp` preserves. -/
theorem handleSetp_preserves {alloc : Alloc}
    (hcall : ∀ call : CoreCall, call.At where' → call.Allowed who.permissionLevel cmdname →
      Exec.Preserves Q (coreCall call))
    (hset : ∀ host level, Names args host level → permsOp ≤ who.permissionLevel →
      level < who.permissionLevel → Exec.Preserves Q (onPerms (permissionsSet alloc host level))) :
    Exec.Preserves Q (handleSetp alloc who where' args) := by
  unfold handleSetp
  split
  · exact hcall (.msgva where' _) rfl trivial
  · next i hi =>
    dsimp only
    split
    · next h =>
      have hctx := Exec.Preserves.bind (hcall (.setperms (args.drop (i + 1))
        (CString.atoi (args.take i))) trivial h) fun _ => hset _ _ ⟨i, hi, rfl, rfl⟩ h.1 h.2
      exact hctx.bind fun _ => hcall (.msgva where' _) rfl trivial
    · exact hcall (.msgva where' _) rfl trivial

/-- What `getp` preserves. -/
theorem handleGetp_preserves
    (hcall : ∀ call : CoreCall, call.At where' → call.Allowed who.permissionLevel cmdname →
      Exec.Preserves Q (coreCall call))
    (hget : ∀ host, Exec.Preserves Q (onPerms (permissionsGet host))) :
    Exec.Preserves Q (handleGetp who where' args) := by
  unfold handleGetp
  split
  · next h =>
    have hctx := Exec.Preserves.bind (hcall (.getperms args) trivial h.2) fun _ => hget (some args)
    exact hctx.bind fun _ => hcall (.msgva where' _) rfl h.2
  · exact hcall (.msgva where' _) rfl trivial

/-- The rule for the handlers: they preserve what calls that speak to `where` and are allowed (or
the modes of a `voice` with more than one word), lookups of levels, and the `permissions_set` that
the arguments name and the level allows preserve. -/
theorem Handler.run_preserves (handler : Handler)
    (hcall : ∀ call : CoreCall, call.At where' →
      call.Checked handler who.permissionLevel cmdname args → Exec.Preserves Q (coreCall call))
    (hget : ∀ host, Exec.Preserves Q (onPerms (permissionsGet host)))
    (hset : ∀ alloc host level, handler = .perms alloc → cmdname.bytes.head? = some 115 →
      Names args host level → permsOp ≤ who.permissionLevel → level < who.permissionLevel →
      Exec.Preserves Q (onPerms (permissionsSet alloc host level))) :
    Exec.Preserves Q (handler.run cmdname who where' args) := by
  have hallowed : ∀ call : CoreCall, call.At where' → call.Allowed who.permissionLevel cmdname →
      Exec.Preserves Q (coreCall call) := fun call hat h => hcall call hat (.inl h)
  cases handler with
  | reload => exact @handleReload_preserves Q cmdname where' args who hallowed
  | admin => exact @adminHandleCmd_preserves Q cmdname where' args who hallowed
  | raw => exact @handleRaw_preserves Q cmdname where' args who hallowed
  | chanop => exact chanopHandleCmd_preserves hcall
  | perms alloc =>
    show Exec.Preserves Q (permsHandleCmd alloc cmdname who where' args)
    unfold permsHandleCmd
    split
    · next hword =>
      have hsetp := handleSetp_preserves hallowed fun host level => hset alloc host level rfl hword
      exact hsetp.bind fun _ => .pure 0
    · exact (handleGetp_preserves hallowed hget).bind fun _ => .pure 0
    · exact Exec.Preserves.bind (.pure ()) fun _ => .pure 0

/-- Since the calls `old`, only calls with `P` have been made. -/
def Extends (old : List CoreCall) (P : CoreCall → Prop) (b : Bot) : Prop :=
  ∃ new, b.calls = old ++ new ∧ ∀ call ∈ new, P call

/-- No call yet. -/
theorem Extends.refl (P : CoreCall → Prop) (b : Bot) : Extends b.calls P b :=
  ⟨[], (List.append_nil _).symm, List.forall_mem_nil P⟩

/-- One more call. -/
theorem coreCall_extends {old : List CoreCall} {P : CoreCall → Prop} {call : CoreCall}
    (h : P call) : Exec.Preserves (Extends old P) (coreCall call) := by
  rintro b ⟨new, hnew, hall⟩
  refine ⟨new ++ [call], by simp [hnew], fun c hc => ?_⟩
  rcases List.mem_append.1 hc with hc | hc
  · exact hall c hc
  · rwa [List.mem_singleton.1 hc]

/-- The calls of a handler speak to `where`, and they are allowed or the modes of a `voice`. -/
theorem Handler.run_extends (handler : Handler) (cmdname : CString) (who : CommandSender)
    (where' args : CString) (old : List CoreCall) :
    Exec.Preserves (Extends old fun call =>
      call.At where' ∧ call.Checked handler who.permissionLevel cmdname args)
      (handler.run cmdname who where' args) :=
  handler.run_preserves (fun _ hat hchecked => coreCall_extends ⟨hat, hchecked⟩)
    (fun _ => Exec.Preserves.zoom _ fun _ _ h => h)
    fun _ _ _ _ _ _ _ _ => Exec.Preserves.zoom _ fun _ _ h => h

end

/-! ## Mediation -/

/-- The fault handler of `threadpool_wrapper_cmd` adds nothing. -/
theorem threadpoolWrapperCmd_state (handler : CommandHandler) (cmdname sender where' args : CString)
    (b : Bot) : (threadpoolWrapperCmd handler cmdname sender where' args b).2 =
      (runCommand handler cmdname sender where' args b).2 :=
  Exec.catchSegv_pure_snd _ _ _

/-- The level that `permissions_get` returns at the start of a command. -/
def Bot.LevelOf (b : Bot) (sender : CString) (level : Int) : Prop :=
  (permissionsGet (ircParsesender sender).host b.perms).1 = .returned level

/-- Every call that the command causes is allowed for its word and the level that `permissions_get`
returned for the sender's host, and it causes none if `permissions_get` does not return. -/
def Mediated (handler : Handler) (cmdname sender where' args : CString) (b : Bot) : Prop :=
  ∃ new, (threadpoolWrapperCmd handler.run cmdname sender where' args b).2.calls =
      b.calls ++ new ∧
    (new = [] ∨ ∃ level, b.LevelOf sender level ∧
      (∀ call ∈ new, call.Allowed level cmdname) ∧
      (level < permsHop → ∀ call ∈ new, call.IsNotice))

section
variable {handler : Handler} {cmdname sender where' args : CString} {b : Bot} {level : Int}

/-- A command whose `permissions_get` returns goes on with its handler. -/
theorem runCommand_state (hlevel : b.LevelOf sender level) :
    (threadpoolWrapperCmd handler.run cmdname sender where' args b).2 =
      (handler.run cmdname { ircParsesender sender with permissionLevel := level } where' args
        { b with perms := (permissionsGet (ircParsesender sender).host b.perms).2 }).2 := by
  have hcheck : onPerms (permissionsGet (ircParsesender sender).host) b = (.returned level,
      { b with perms := (permissionsGet (ircParsesender sender).host b.perms).2 }) :=
    Prod.ext hlevel rfl
  rw [threadpoolWrapperCmd_state, runCommand, Exec.bind_returned hcheck, Exec.bind_pure_snd]

/-- A command whose `permissions_get` does not return causes no call. -/
theorem runCommand_calls (h : ∀ level, ¬ b.LevelOf sender level) :
    (threadpoolWrapperCmd handler.run cmdname sender where' args b).2.calls = b.calls := by
  have hcheck : onPerms (permissionsGet (ircParsesender sender).host) b =
      ((permissionsGet (ircParsesender sender).host b.perms).1,
        { b with perms := (permissionsGet (ircParsesender sender).host b.perms).2 }) := rfl
  rw [threadpoolWrapperCmd_state, runCommand]
  unfold Bot.LevelOf at h
  generalize permissionsGet (ircParsesender sender).host b.perms = r at hcheck h
  obtain ⟨outcome, s⟩ := r
  cases outcome with
  | returned level => exact absurd rfl (h level)
  | segv => rw [Exec.bind_segv hcheck]
  | undefined => rw [Exec.bind_undefined hcheck]
  | blocked => rw [Exec.bind_blocked hcheck]

/-- Below `PERMS_OP`, `voice` sets its modes and is refused. -/
theorem chanopHandleCmd_voice (who : CommandSender) (where' : CString)
    (h : Handler.Smuggles .chanop who.permissionLevel cmdname args) (b : Bot) :
    (chanopHandleCmd cmdname who where' args b).2.calls = b.calls ++
      [.chmode where' (CString.lit "+v " ++ args), .msgva where' (.insufficient who.nick)] := by
  have hhop : chanopHopCmd cmdname where' args b = (.returned (),
      { b with calls := b.calls ++ [.chmode where' (CString.lit "+v " ++ args)] }) := by
    have hmatch : chanopHopCmd cmdname where' args =
        cmdBuf (CString.lit "+v ") args >>= fun modes => coreCall (.chmode where' modes) := by
      rw [chanopHopCmd, h.voice]
      rfl
    have hfits : (CString.lit "+v ").length + (args.length + 1) ≤ 513 := h.fits
    rw [hmatch, cmdBuf_bind, if_pos hfits]
    rfl
  rw [chanopHandleCmd, if_neg (Int.not_lt.2 h.hop_le), Exec.bind_returned hhop, if_pos h.lt_op,
    refuse_apply]
  simp

/-- Modes that `voice` has smuggled are not allowed. -/
theorem Handler.Smuggles.not_mediated (hlevel : b.LevelOf sender level)
    (h : handler.Smuggles level cmdname args) :
    ¬ Mediated handler cmdname sender where' args b := by
  obtain rfl := h.chanop
  rintro ⟨new, hnew, hcases⟩
  rw [runCommand_state hlevel] at hnew
  have hvoice := chanopHandleCmd_voice { ircParsesender sender with permissionLevel := level } where' h
    { b with perms := (permissionsGet (ircParsesender sender).host b.perms).2 }
  obtain rfl := List.append_cancel_left (hnew.symm.trans hvoice)
  rcases hcases with hnil | ⟨level', hlevel', hallowed, -⟩
  · cases hnil
  · obtain rfl : level' = level := Outcome.returned.inj (hlevel'.symm.trans hlevel)
    exact h.words ((CoreCall.allowed_voice_iff h.lt_op).1 (hallowed _ (.head _))).2.2

/-- Complete mediation: a command of these modules causes only calls that are allowed for its word
and the level of its sender, and nothing but notices below `PERMS_HOP`, unless a sender with a level
from `PERMS_HOP` to below `PERMS_OP` says `voice` with more than one word. -/
theorem mediated_iff (handler : Handler) (cmdname sender where' args : CString) (b : Bot) :
    Mediated handler cmdname sender where' args b ↔
      ¬ ∃ level, b.LevelOf sender level ∧ handler.Smuggles level cmdname args := by
  constructor
  · rintro hmediated ⟨level, hlevel, hsmuggles⟩
    exact hsmuggles.not_mediated hlevel hmediated
  · intro h
    by_cases hreturns : ∃ level, b.LevelOf sender level
    · obtain ⟨level, hlevel⟩ := hreturns
      obtain ⟨new, hnew, hall⟩ := handler.run_extends cmdname
        { ircParsesender sender with permissionLevel := level } where' args b.calls
        { b with perms := (permissionsGet (ircParsesender sender).host b.perms).2 }
        (.refl _ _)
      refine ⟨new, (congrArg (·.calls) (runCommand_state hlevel)).trans hnew,
        .inr ⟨level, hlevel, fun call hcall => ?_, fun hlow call hcall =>
          (hall call hcall).2.isNotice hlow⟩⟩
      rcases (hall call hcall).2 with hallowed | ⟨hsmuggles, -⟩
      · exact hallowed
      · exact absurd ⟨level, hlevel, hsmuggles⟩ h
    · rw [not_exists] at hreturns
      exact ⟨[], (runCommand_calls hreturns).trans (List.append_nil _).symm, .inl rfl⟩

end

/-- A half-operator voices `ann`, and makes an operator of `ann` as well. -/
theorem not_mediated_voice : ∃ m, hashmapNew true = some m ∧ ∃ perms,
    permissionsSet .ok (CString.lit "host") 25000 (PermState.ofMap m) = (.returned (), perms) ∧
    (threadpoolWrapperCmd chanopHandleCmd (CString.lit "voice") (CString.lit "bob!b@host")
      (CString.lit "#chan") (CString.lit "ann +o ann") ⟨perms, []⟩).2.calls =
        [.chmode (CString.lit "#chan") (CString.lit "+v ann +o ann"),
          .msgva (CString.lit "#chan") (.insufficient (CString.lit "bob"))] ∧
    ¬ Mediated .chanop (CString.lit "voice") (CString.lit "bob!b@host") (CString.lit "#chan")
      (CString.lit "ann +o ann") ⟨perms, []⟩ := by
  refine ⟨_, rfl, _, rfl, by decide +kernel, ?_⟩
  have hwords : ¬ OneWord (CString.lit "ann +o ann") := by
    unfold OneWord
    decide
  refine Handler.Smuggles.not_mediated (show Bot.LevelOf _ _ 25000 from ?_)
    ⟨rfl, rfl, by decide, by decide, hwords, by decide⟩
  show Prod.fst _ = _
  decide +kernel

end MinervaBot
