import MinervaBot.PermissionsGet

/-!
# Running a command

A worker thread of the pool (`threadpool_wrapper_cmd`) splits the sender of a command, asks for the
level of the sender's host and calls the handler; a fault on the way jumps to its end. Handlers act
through the functions of `core_ctx`, which are logged as `CoreCall`s. `Bot` is the state of the
permissions with this log.
-/

namespace MinervaBot

open Lib

/-- `struct command_sender`; `none` for `NULL`. -/
structure CommandSender where
  nick : CString
  ident : Option CString
  host : Option CString
  permissionLevel : Int
  deriving DecidableEq

/-- `irc_parsesender` on a sender with level `0`. -/
def ircParsesender (str : CString) : CommandSender :=
  match str.strchr 33 with
  | none => { nick := str, ident := none, host := none, permissionLevel := 0 }
  | some i =>
    let ident := str.drop (i + 1)
    match ident.strchr 64 with
    | none => { nick := str.take i, ident := some ident, host := none, permissionLevel := 0 }
    | some j =>
      { nick := str.take i
        ident := some (ident.take j)
        host := some (ident.drop (j + 1))
        permissionLevel := 0 }

/-- The messages that the permission checks and `bot_perms` format. -/
inductive Reply where
  | insufficient (nick : CString)
  | invalidUsage (nick : CString)
  | levelSet (nick host : CString) (level : Int)
  | lackPermission (nick host : CString) (level : Int)
  | hostLevel (nick host : CString) (level : Int)
  | ownLevel (nick : CString) (level : Int)
  deriving DecidableEq

/-- The text of a message. -/
def Reply.text : Reply → CString
  | .insufficient nick => nick ++ CString.lit ": Insufficient permissions"
  | .invalidUsage nick => nick ++ CString.lit ": Invalid usage of command!"
  | .levelSet nick host level =>
    nick ++ CString.lit ": Set permission level for " ++ host ++ CString.lit " to " ++
      CString.ofInt level ++ CString.lit "!"
  | .lackPermission nick host level =>
    nick ++ CString.lit ": You lack sufficient permission to give " ++ host ++
      CString.lit " permission level " ++ CString.ofInt level ++ CString.lit "."
  | .hostLevel nick host level =>
    nick ++ CString.lit ": " ++ host ++ CString.lit " has permission level " ++
      CString.ofInt level
  | .ownLevel nick level =>
    nick ++ CString.lit ": you have permission level " ++ CString.ofInt level

/-- A call of a function of `core_ctx`, or the `raise` of `handle_reload`. -/
inductive CoreCall where
  | setperms (host : CString) (level : Int)
  | getperms (host : CString)
  | msg (chan message : CString)
  | msgva (chan : CString) (reply : Reply)
  | join (chan : CString)
  | part (chan message : CString)
  | chmode (chan modes : CString)
  | kick (chan nick : CString) (reason : Option CString)
  | raw (message : CString)
  | rawVa (message : CString)
  | raiseUsr1
  deriving DecidableEq

/-- What the threads of the bot share: the permissions, and the calls into the core so far. -/
structure Bot where
  perms : PermState
  calls : List CoreCall

/-- A call of a function of the permissions. -/
def onPerms {α : Type} (x : Exec PermState α) : Exec Bot α :=
  x.zoom (·.perms) fun b s => { b with perms := s }

/-- A call into the core. -/
def coreCall (call : CoreCall) : Exec Bot Unit :=
  Exec.modify fun b => { b with calls := b.calls ++ [call] }

@[simp] theorem coreCall_apply (call : CoreCall) (b : Bot) :
    coreCall call b = (.returned (), { b with calls := b.calls ++ [call] }) := rfl

/-- `ctx->setperms`. -/
def ctxSetperms (alloc : Alloc) (host : CString) (level : Int) : Exec Bot Unit := do
  coreCall (.setperms host level)
  onPerms (permissionsSet alloc host level)

/-- `ctx->getperms`. -/
def ctxGetperms (host : CString) : Exec Bot Int := do
  coreCall (.getperms host)
  onPerms (permissionsGet (some host))

/-- `command_handler`: the handler of a command word, with the sender, `where` and `args`. -/
abbrev CommandHandler :=
  (cmdname : CString) → (who : CommandSender) → (where' args : CString) → Exec Bot Int

/-- What `threadpool_wrapper_cmd` does under its fault handler. -/
def runCommand (handler : CommandHandler) (cmdname sender where' args : CString) :
    Exec Bot Unit := do
  let who := ircParsesender sender
  let level ← onPerms (permissionsGet who.host)
  let _ ← handler cmdname { who with permissionLevel := level } where' args

/-- `threadpool_wrapper_cmd`, without the bookkeeping of the pool. -/
def threadpoolWrapperCmd (handler : CommandHandler) (cmdname sender where' args : CString) :
    Exec Bot Unit :=
  Exec.catchSegv (runCommand handler cmdname sender where' args) (pure ())

/-! ## Senders -/

/-- The host of a sender is what stands behind the first `@` behind the first `!`. -/
theorem ircParsesender_host_eq_some_iff {str host : CString} :
    (ircParsesender str).host = some host ↔
      ∃ nick ident : List UInt8, str.bytes = nick ++ 33 :: (ident ++ 64 :: host.bytes) ∧
        33 ∉ nick ∧ 64 ∉ ident := by
  constructor
  · intro h
    unfold ircParsesender at h
    split at h
    · cases h
    · next i hi =>
      simp only at h
      split at h
      · cases h
      · next j hj =>
        cases h
        obtain ⟨nick, rest, hstr, hnick, rfl⟩ := CString.strchr_eq_some_iff.1 hi
        obtain ⟨ident, post, hrest, hident, rfl⟩ := CString.strchr_eq_some_iff.1 hj
        have hdrop : (str.drop (nick.length + 1)).bytes = rest := by
          simp [hstr, ← List.drop_drop]
        rw [hdrop] at hrest
        refine ⟨nick, ident, ?_, hnick, hident⟩
        rw [hstr, CString.bytes_drop, hdrop, hrest]
        simp [← List.drop_drop]
  · rintro ⟨nick, ident, hstr, hnick, hident⟩
    have hi : str.strchr 33 = some nick.length :=
      CString.strchr_eq_some_iff.2 ⟨nick, _, hstr, hnick, rfl⟩
    have hdrop : (str.drop (nick.length + 1)).bytes = ident ++ 64 :: host.bytes := by
      simp [hstr, ← List.drop_drop]
    have hj : (str.drop (nick.length + 1)).strchr 64 = some ident.length :=
      CString.strchr_eq_some_iff.2 ⟨ident, _, hdrop, hident, rfl⟩
    simp only [ircParsesender, hi, hj]
    refine congrArg some (CString.ext ?_)
    rw [CString.bytes_drop, hdrop]
    simp [← List.drop_drop]

end MinervaBot
