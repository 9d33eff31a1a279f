import MinervaBot.Cryptocurrency
import MinervaBot.Handlers

/-!
# The letter case of commands

`modules_check_cmd` walks the tree with every letter converted to lower case, and queues the word as
it was typed. The handlers of `bot_chanop`, `bot_admin` and `bot_perms` compare the first byte of
that word with lower case letters; the handler of `bot_cryptocurrency` converts the word first.
`ModuleHandler.Acts` says when the comparison decides what a handler does, and `sameCalls_iff` tells
for which two messages with two spellings of one command the bot does the same.
-/

namespace MinervaBot

open Lib

/-- The handlers of the four modules. -/
inductive ModuleHandler where
  | core (handler : Handler)
  | crypto

/-- The bot with the calls of the modules that make requests. -/
structure WebBot where
  bot : Bot
  web : List WebCall

/-- A call on the bot. -/
def onBot {α : Type} (x : Exec Bot α) : Exec WebBot α :=
  x.zoom (·.bot) fun s bot => { s with bot }

/-- A call on the web. -/
def onWeb {α : Type} (x : Exec (List WebCall) α) : Exec WebBot α :=
  x.zoom (·.web) fun s web => { s with web }

/-- The function behind a handler. -/
def ModuleHandler.run (env : CryptoEnv) (handler : ModuleHandler) (cmdname : CString)
    (who : CommandSender) (where' args : CString) : Exec WebBot Int :=
  match handler with
  | .core h => onBot (h.run cmdname who where' args)
  | .crypto => onWeb (cryptoHandleCmd env cmdname who where' args)

/-- `threadpool_wrapper_cmd`, without the bookkeeping of the pool. -/
def threadpoolWrapperModuleCmd (env : CryptoEnv) (q : QueueCmd ModuleHandler) :
    Exec WebBot Unit :=
  Exec.catchSegv
    (do
      let who := ircParsesender q.sender
      let level ← onBot (onPerms (permissionsGet who.host))
      let _ ← q.handler.run env q.cmdname { who with permissionLevel := level } q.target q.args)
    (pure ())

/-- A message dispatched: what `modules_check_cmd` queues is run. -/
def dispatchCmd (env : CryptoEnv) (cmdPrefix : CString) (cmds : CommandTree ModuleHandler)
    (sender target message : CString) : Exec WebBot Unit :=
  match modulesCheckCmd cmdPrefix cmds sender target message with
  | none => pure ()
  | some q => threadpoolWrapperModuleCmd env q

/-- The messages carry the command prefix, and behind their first byte, where the walk begins, two
spellings of the word `w` with the same arguments. -/
structure TwoSpellings (cmdPrefix message message' : CString) (w : Word) : Prop where
  addressed : ∃ text, message = cmdPrefix ++ text ∧ text.length ≠ 0
  addressed' : ∃ text, message' = cmdPrefix ++ text ∧ text.length ≠ 0
  word : lowercase (firstWord (message.drop 1)).bytes = some w
  word' : lowercase (firstWord (message'.drop 1)).bytes = some w
  args : afterWord (message.drop 1) = afterWord (message'.drop 1)

/-- Two runs have made the same calls, and both or neither are defined. -/
structure SameCalls (r r' : Outcome Unit × WebBot) : Prop where
  core : r.2.bot.calls = r'.2.bot.calls
  web : r.2.web = r'.2.web
  defined : r.1 = .undefined ↔ r'.1 = .undefined

/-- At this level the handler compares the first byte of its command word with a letter, and finds
it: the letters of `kick` and `voice`, of `mode`, `ban` and `op`, of `join` and `part`, and of
`setp` and `getp`. -/
def ModuleHandler.Acts (level : Int) : ModuleHandler → (first : Option UInt8) → Prop
  | .core .chanop, some first =>
    (first = 107 ∨ first = 118) ∧ permsHop ≤ level ∨
      (first = 109 ∨ first = 98 ∨ first = 111) ∧ permsOp ≤ level
  | .core .admin, some first => (first = 106 ∨ first = 112) ∧ permsAdmin ≤ level
  | .core (.perms _), some first => first = 115 ∨ first = 103
  | _, _ => False

/-! ## The dispatcher -/

/-- Both messages are walked to the same handler. -/
theorem TwoSpellings.modulesCheckCmd_eq {cmdPrefix message message' : CString} {w : Word}
    (h : TwoSpellings cmdPrefix message message' w) {cmds : CommandTree ModuleHandler}
    {handler : ModuleHandler} (hbound : cmds.find w = some handler) (sender target : CString) :
    modulesCheckCmd cmdPrefix cmds sender target message =
        some ⟨handler, firstWord (message.drop 1), sender, target, afterWord (message.drop 1)⟩ ∧
      modulesCheckCmd cmdPrefix cmds sender target message' =
        some ⟨handler, firstWord (message'.drop 1), sender, target, afterWord (message.drop 1)⟩ := by
  have hwalk : ∀ {m : CString}, (∃ text, m = cmdPrefix ++ text ∧ text.length ≠ 0) →
      lowercase (firstWord (m.drop 1)).bytes = some w →
      modulesCheckCmd cmdPrefix cmds sender target m =
        some ⟨handler, firstWord (m.drop 1), sender, target, afterWord (m.drop 1)⟩ := by
    rintro m ⟨text, rfl, hlen⟩ hword
    exact modulesCheckCmd_of_find hlen hword hbound sender target
  refine ⟨hwalk h.addressed h.word, ?_⟩
  rw [hwalk h.addressed' h.word', h.args]

/-! ## The handlers -/

section
variable {cmdname where' args : CString} {who : CommandSender} {b : Bot}

/-- The run differs from another one that is defined: in its calls, or by being undefined. -/
def Differs (r r' : Outcome Int × Bot) : Prop :=
  r.2.calls ≠ r'.2.calls ∨ r.1 = .undefined ∧ r'.1 ≠ .undefined

/-- The empty word has no first byte. -/
theorem head?_empty : (CString.lit "").bytes.head? = none := by
  decide

/-- Where the first byte decides nothing, a handler does what it does on the empty word. -/
theorem Handler.run_of_not_acts {handler : Handler}
    (h : ¬ ModuleHandler.Acts who.permissionLevel (.core handler) cmdname.bytes.head?) :
    handler.run cmdname who where' args = handler.run (CString.lit "") who where' args := by
  cases handler with
  | reload | raw => rfl
  | admin =>
    simp only [run, adminHandleCmd, head?_empty]
    by_cases hlevel : who.permissionLevel < permsAdmin
    · simp only [if_pos hlevel]
    · simp only [if_neg hlevel]
      split
      · next hc => rw [hc] at h; exact absurd ⟨.inl rfl, by omega⟩ h
      · next hc => rw [hc] at h; exact absurd ⟨.inr rfl, by omega⟩ h
      · rfl
  | chanop =>
    simp only [run, chanopHandleCmd]
    by_cases hhop : who.permissionLevel < permsHop
    · simp only [if_pos hhop]
    · have hhopCmd : chanopHopCmd cmdname where' args =
          chanopHopCmd (CString.lit "") where' args := by
        unfold chanopHopCmd
        split
        · next hc => rw [hc] at h; exact absurd (.inl ⟨.inl rfl, by omega⟩) h
        · next hc => rw [hc] at h; exact absurd (.inl ⟨.inr rfl, by omega⟩) h
        · simp only [head?_empty]
      simp only [if_neg hhop, hhopCmd]
      by_cases hop : who.permissionLevel < permsOp
      · simp only [if_pos hop]
      · have hopCmd : chanopOpCmd cmdname where' args =
            chanopOpCmd (CString.lit "") where' args := by
          unfold chanopOpCmd
          split
          · next hc => rw [hc] at h; exact absurd (.inr ⟨.inl rfl, by omega⟩) h
          · next hc => rw [hc] at h; exact absurd (.inr ⟨.inr (.inl rfl), by omega⟩) h
          · next hc => rw [hc] at h; exact absurd (.inr ⟨.inr (.inr rfl), by omega⟩) h
          · simp only [head?_empty]
        simp only [if_neg hop, hopCmd]
  | perms alloc =>
    simp only [run, permsHandleCmd, head?_empty]
    split
    · next hc => rw [hc] at h; exact absurd (.inl rfl) h
    · next hc => rw [hc] at h; exact absurd (.inr rfl) h
    · rfl

/-- More than `n` calls have been made. -/
def Grown (n : Nat) (b : Bot) : Prop :=
  n < b.calls.length

/-- A call into the core is kept. -/
theorem coreCall_grown (n : Nat) (call : CoreCall) : Exec.Preserves (Grown n) (coreCall call) := by
  intro b hb
  simp only [Grown, coreCall_apply, List.length_append] at hb ⊢
  omega

/-- A call of the permissions keeps the calls into the core. -/
theorem onPerms_grown {α : Type} (n : Nat) (x : Exec PermState α) :
    Exec.Preserves (Grown n) (onPerms x) :=
  Exec.Preserves.zoom x fun _ _ h => h

/-- A run that begins with a call has made one more, however it goes on. -/
theorem grown_of_coreCall {α : Type} {call : CoreCall} {f : Unit → Exec Bot α}
    (hf : ∀ n, Exec.Preserves (Grown n) (f ())) (b : Bot) :
    Grown b.calls.length ((coreCall call >>= f) b).2 := by
  rw [coreCall_bind]
  exact hf _ _ (by simp [Grown])

/-- `setp` and `getp` always make a call. -/
theorem permsHandleCmd_grown (alloc : Alloc) {first : UInt8} (hc : cmdname.bytes.head? = some first)
    (hletter : first = 115 ∨ first = 103) (b : Bot) :
    Grown b.calls.length (permsHandleCmd alloc cmdname who where' args b).2 := by
  have hend : ∀ n, Exec.Preserves (Grown n) (pure 0 : Exec Bot Int) := fun n => .pure 0
  unfold permsHandleCmd
  rcases hletter with rfl | rfl
  · simp only [hc, handleSetp]
    split
    · exact grown_of_coreCall hend b
    · split
      · simp only [ctxSetperms, bind_assoc]
        exact grown_of_coreCall (fun n => .bind (onPerms_grown n _) fun _ =>
          .bind (coreCall_grown n _) fun _ => hend n) b
      · exact grown_of_coreCall hend b
  · simp only [hc, handleGetp]
    split
    · simp only [ctxGetperms, bind_assoc]
      exact grown_of_coreCall (fun n => .bind (onPerms_grown n _) fun _ =>
        .bind (coreCall_grown n _) fun _ => hend n) b
    · exact grown_of_coreCall hend b

/-- `join` and `part` make a call that the empty word does not. -/
theorem adminHandleCmd_differs {first : UInt8} (hc : cmdname.bytes.head? = some first)
    (hletter : first = 106 ∨ first = 112) (hlevel : permsAdmin ≤ who.permissionLevel) :
    Differs (adminHandleCmd cmdname who where' args b)
      (adminHandleCmd (CString.lit "") who where' args b) := by
  simp only [adminHandleCmd, if_neg (Int.not_lt.2 hlevel), hc, head?_empty]
  rcases hletter with rfl | rfl
  · exact .inl (by simp)
  · exact .inl (by simp)

/-- `kick` and `voice` make one call more than the empty word, or `voice` overflows its buffer. -/
theorem chanopHandleCmd_differs_hop {first : UInt8} (hc : cmdname.bytes.head? = some first)
    (hletter : first = 107 ∨ first = 118) (hlevel : permsHop ≤ who.permissionLevel) :
    Differs (chanopHandleCmd cmdname who where' args b)
      (chanopHandleCmd (CString.lit "") who where' args b) := by
  simp only [chanopHandleCmd, if_neg (Int.not_lt.2 hlevel), chanopHopCmd, chanopOpCmd, hc,
    head?_empty]
  rcases hletter with rfl | rfl
  · cases args.strchr 32
    · simp only [coreCall_bind, pure_apply_bind]
      split
      · exact .inl (by simp [refuse_apply])
      · exact .inl (by simp)
    · simp only [coreCall_bind, pure_apply_bind]
      split
      · exact .inl (by simp [refuse_apply])
      · exact .inl (by simp)
  · simp only [bind_assoc, cmdBuf_bind, coreCall_bind, pure_apply_bind]
    split
    · split
      · exact .inl (by simp [refuse_apply])
      · exact .inl (by simp)
    · split
      · exact .inr (by simp [refuse_apply])
      · exact .inr (by simp)

/-- `mode`, `ban` and `op` make a call that the empty word does not, or overflow their buffer. -/
theorem chanopHandleCmd_differs_op {first : UInt8} (hc : cmdname.bytes.head? = some first)
    (hletter : first = 109 ∨ first = 98 ∨ first = 111) (hlevel : permsOp ≤ who.permissionLevel) :
    Differs (chanopHandleCmd cmdname who where' args b)
      (chanopHandleCmd (CString.lit "") who where' args b) := by
  have hhop : ¬ who.permissionLevel < permsHop := by
    simp only [permsHop, permsOp] at hlevel ⊢
    omega
  have hidle : chanopHopCmd cmdname where' args = pure () := by
    rcases hletter with rfl | rfl | rfl <;> simp [chanopHopCmd, hc]
  have hempty : chanopHopCmd (CString.lit "") where' args = pure () := by
    simp [chanopHopCmd, head?_empty]
  simp only [chanopHandleCmd, if_neg hhop, if_neg (Int.not_lt.2 hlevel), hidle, hempty,
    pure_apply_bind, chanopOpCmd, hc, head?_empty]
  rcases hletter with rfl | rfl | rfl
  · exact .inl (by simp only [coreCall_bind]; simp)
  · simp only [bind_assoc, cmdBuf_bind, coreCall_bind]
    split
    · exact .inl (by simp)
    · exact .inr (by simp)
  · simp only [bind_assoc, cmdBuf_bind, coreCall_bind]
    split
    · exact .inl (by simp)
    · exact .inr (by simp)

/-- `setp` and `getp` make a call, and the empty word makes none. -/
theorem permsHandleCmd_differs (alloc : Alloc) {first : UInt8}
    (hc : cmdname.bytes.head? = some first) (hletter : first = 115 ∨ first = 103) :
    Differs (permsHandleCmd alloc cmdname who where' args b)
      (permsHandleCmd alloc (CString.lit "") who where' args b) := by
  have hgrown : Grown b.calls.length (permsHandleCmd alloc cmdname who where' args b).2 :=
    permsHandleCmd_grown alloc hc hletter b
  have hidle : permsHandleCmd alloc (CString.lit "") who where' args b = (.returned 0, b) := by
    simp only [permsHandleCmd, head?_empty]
    rfl
  rw [hidle]
  exact .inl fun heq => absurd (congrArg List.length heq) (Nat.ne_of_gt hgrown)

/-- Where the first byte decides, a handler differs from what it does on the empty word. -/
theorem Handler.differs_of_acts {handler : Handler}
    (h : ModuleHandler.Acts who.permissionLevel (.core handler) cmdname.bytes.head?) :
    Differs (handler.run cmdname who where' args b)
      (handler.run (CString.lit "") who where' args b) := by
  cases hc : cmdname.bytes.head? with
  | none => rw [hc] at h; cases handler <;> exact h.elim
  | some first =>
    rw [hc] at h
    cases handler with
    | reload | raw => exact h.elim
    | admin => exact adminHandleCmd_differs hc h.1 h.2
    | chanop =>
      rcases h with ⟨hletter, hlevel⟩ | ⟨hletter, hlevel⟩
      · exact chanopHandleCmd_differs_hop hc hletter hlevel
      · exact chanopHandleCmd_differs_op hc hletter hlevel
    | perms alloc => exact permsHandleCmd_differs alloc hc h

/-- A handler reads only the first byte of its word. -/
theorem Handler.run_congr (handler : Handler) {cmdname' : CString}
    (h : cmdname.bytes.head? = cmdname'.bytes.head?) :
    handler.run cmdname = handler.run cmdname' := by
  funext who where' args
  cases handler with
  | reload | raw => rfl
  | admin => simp only [run, adminHandleCmd, h]
  | chanop => simp only [run, chanopHandleCmd, chanopHopCmd, chanopOpCmd, h]
  | perms alloc => simp only [run, permsHandleCmd, h]

end

/-! ## Two spellings -/

/-- The letters that handlers look for are lower case. -/
theorem ModuleHandler.Acts.lower {handler : ModuleHandler} {level : Int} {first : Option UInt8}
    (h : handler.Acts level first) : ∃ c, first = some c ∧ 97 ≤ c := by
  cases first with
  | none =>
    rcases handler with (_ | _ | _ | _ | _) | _ <;> exact h.elim
  | some c =>
    refine ⟨c, rfl, ?_⟩
    rcases handler with (_ | _ | _ | _ | _) | _
    · exact h.elim
    · rcases h.1 with rfl | rfl <;> decide
    · exact h.elim
    · rcases h with ⟨rfl | rfl, -⟩ | ⟨rfl | rfl | rfl, -⟩ <;> decide
    · rcases h with rfl | rfl <;> decide
    · exact h.elim

/-- Two spellings that both begin with a lower case letter begin with the same. -/
theorem head_eq_of_lower {word word' : CString} {w : Word} (hw : lowercase word.bytes = some w)
    (hw' : lowercase word'.bytes = some w) {c c' : UInt8} (hc : word.bytes.head? = some c)
    (hc' : word'.bytes.head? = some c') (hlo : 97 ≤ c) (hlo' : 97 ≤ c') : c = c' := by
  have hlower : ∀ {c : UInt8}, 97 ≤ c → toLower c = c := by
    intro c hlo
    have hnot : ¬ c ≤ 90 := by
      rw [UInt8.le_iff_toNat_le] at hlo ⊢
      simp at hlo ⊢
      omega
    simp [toLower, hnot]
  obtain ⟨-, hmap⟩ := lowercase_eq_some_iff.1 hw
  obtain ⟨-, hmap'⟩ := lowercase_eq_some_iff.1 hw'
  have hhead := congrArg List.head? (hmap.trans hmap'.symm)
  rw [List.head?_map, List.head?_map, hc, hc', Option.map_some, Option.map_some, hlower hlo,
    hlower hlo'] at hhead
  exact Option.some.inj hhead

/-- What `threadpool_wrapper_cmd` makes of the end of a handler. -/
def wrapperEnd : Outcome Int × WebBot → Outcome Unit × WebBot
  | (.returned _, s) => (.returned (), s)
  | (.segv, s) => (.returned (), s)
  | (.undefined, s) => (.undefined, s)
  | (.blocked, s) => (.blocked, s)

/-- The end of the wrapper leaves the state. -/
theorem wrapperEnd_snd (r : Outcome Int × WebBot) : (wrapperEnd r).2 = r.2 := by
  rcases r with ⟨_ | _ | _ | _, s⟩ <;> rfl

/-- The end of the wrapper is undefined where the handler was. -/
theorem wrapperEnd_undefined (r : Outcome Int × WebBot) :
    (wrapperEnd r).1 = .undefined ↔ r.1 = .undefined := by
  rcases r with ⟨_ | _ | _ | _, s⟩ <;> simp [wrapperEnd]

section
variable {env : CryptoEnv} {handler : ModuleHandler} {word word' where' args : CString} {w : Word}
  {who : CommandSender} {s : WebBot}

/-- A run that differs from that of the empty word is not the same as one that does not. -/
theorem not_sameCalls_of_acts (hacts : handler.Acts who.permissionLevel word.bytes.head?)
    (hnot : ¬ handler.Acts who.permissionLevel word'.bytes.head?) :
    ¬ SameCalls (wrapperEnd (handler.run env word who where' args s))
        (wrapperEnd (handler.run env word' who where' args s)) ∧
      ¬ SameCalls (wrapperEnd (handler.run env word' who where' args s))
        (wrapperEnd (handler.run env word who where' args s)) := by
  cases handler with
  | crypto => rcases h : word.bytes.head? with _ | _ <;> rw [h] at hacts <;> exact hacts.elim
  | core h =>
    have hdiffers : Differs (h.run word who where' args s.bot)
        (h.run (CString.lit "") who where' args s.bot) := Handler.differs_of_acts hacts
    rw [← Handler.run_of_not_acts hnot] at hdiffers
    have hrun : ∀ v, ModuleHandler.run env (.core h) v who where' args s =
        ((h.run v who where' args s.bot).1,
          { s with bot := (h.run v who where' args s.bot).2 }) := fun v => rfl
    rcases hdiffers with hcalls | ⟨hundef, hdef⟩
    · refine ⟨fun hsame => hcalls ?_, fun hsame => hcalls ?_⟩
      · simpa only [wrapperEnd_snd, hrun] using hsame.core
      · simpa only [wrapperEnd_snd, hrun] using hsame.core.symm
    · refine ⟨fun hsame => hdef ?_, fun hsame => hdef ?_⟩
      · simpa only [wrapperEnd_undefined, hrun, hundef, true_iff] using hsame.defined
      · simpa only [wrapperEnd_undefined, hrun, hundef, iff_true] using hsame.defined

/-- Run by a handler, two spellings do the same exactly if they begin alike or the handler looks for
neither first byte. -/
theorem sameCalls_run_iff (hw : lowercase word.bytes = some w)
    (hw' : lowercase word'.bytes = some w) :
    SameCalls (wrapperEnd (handler.run env word who where' args s))
        (wrapperEnd (handler.run env word' who where' args s)) ↔
      word.bytes.head? = word'.bytes.head? ∨
        ¬ handler.Acts who.permissionLevel word.bytes.head? ∧
          ¬ handler.Acts who.permissionLevel word'.bytes.head? := by
  have hrefl : ∀ r : Outcome Unit × WebBot, SameCalls r r := fun r => ⟨rfl, rfl, Iff.rfl⟩
  constructor
  · intro hsame
    by_cases hacts : handler.Acts who.permissionLevel word.bytes.head?
    · by_cases hacts' : handler.Acts who.permissionLevel word'.bytes.head?
      · obtain ⟨c, hc, hlo⟩ := hacts.lower
        obtain ⟨c', hc', hlo'⟩ := hacts'.lower
        left
        rw [hc, hc', head_eq_of_lower hw hw' hc hc' hlo hlo']
      · exact absurd hsame (not_sameCalls_of_acts hacts hacts').1
    · by_cases hacts' : handler.Acts who.permissionLevel word'.bytes.head?
      · exact absurd hsame (not_sameCalls_of_acts hacts' hacts).2
      · exact .inr ⟨hacts, hacts'⟩
  · intro hcond
    have hrun : handler.run env word who where' args = handler.run env word' who where' args := by
      cases handler with
      | crypto => simp only [ModuleHandler.run, cryptoHandleCmd_congr hw hw' env]
      | core h =>
        rcases hcond with hhead | ⟨hnot, hnot'⟩
        · simp only [ModuleHandler.run, h.run_congr hhead]
        · simp only [ModuleHandler.run, Handler.run_of_not_acts hnot, Handler.run_of_not_acts hnot']
    rw [hrun]
    exact hrefl _

end

/-- A command whose sender has a level ends as its handler does. -/
theorem threadpoolWrapperModuleCmd_returned (env : CryptoEnv) (q : QueueCmd ModuleHandler)
    (s : WebBot) {level : Int} {perms : PermState}
    (h : permissionsGet (ircParsesender q.sender).host s.bot.perms = (.returned level, perms)) :
    threadpoolWrapperModuleCmd env q s =
      wrapperEnd (q.handler.run env q.cmdname
        { ircParsesender q.sender with permissionLevel := level } q.target q.args
        { s with bot := { s.bot with perms } }) := by
  have hcheck : onBot (onPerms (permissionsGet (ircParsesender q.sender).host)) s =
      (.returned level, { s with bot := { s.bot with perms } }) := by
    simp only [onBot, onPerms, Exec.zoom, h]
  simp only [threadpoolWrapperModuleCmd, Exec.catchSegv]
  rw [Exec.bind_returned hcheck]
  generalize hr : q.handler.run env q.cmdname
    { ircParsesender q.sender with permissionLevel := level } q.target q.args
    { s with bot := { s.bot with perms } } = r
  rcases r with ⟨_ | _ | _ | _, s'⟩
  · rw [Exec.bind_returned hr]; rfl
  · rw [Exec.bind_segv hr]; rfl
  · rw [Exec.bind_undefined hr]; rfl
  · rw [Exec.bind_blocked hr]; rfl

/-- A command whose sender gets no level does nothing but ask for it. -/
theorem threadpoolWrapperModuleCmd_of_not_returned (env : CryptoEnv) (q : QueueCmd ModuleHandler)
    (s : WebBot) (word : CString)
    (h : ∀ level, (permissionsGet (ircParsesender q.sender).host s.bot.perms).1 ≠ .returned level) :
    threadpoolWrapperModuleCmd env { q with cmdname := word } s =
      threadpoolWrapperModuleCmd env q s := by
  have hcheck : onBot (onPerms (permissionsGet (ircParsesender q.sender).host)) s =
      ((permissionsGet (ircParsesender q.sender).host s.bot.perms).1,
        { s with bot := { s.bot with
          perms := (permissionsGet (ircParsesender q.sender).host s.bot.perms).2 } }) := rfl
  simp only [threadpoolWrapperModuleCmd, Exec.catchSegv]
  generalize permissionsGet (ircParsesender q.sender).host s.bot.perms = r at h hcheck
  obtain ⟨_ | _ | _ | _, perms⟩ := r
  · exact absurd rfl (h _)
  · rw [Exec.bind_segv hcheck, Exec.bind_segv hcheck]
  · rw [Exec.bind_undefined hcheck, Exec.bind_undefined hcheck]
  · rw [Exec.bind_blocked hcheck, Exec.bind_blocked hcheck]

/-- Two messages with two spellings of a command, from any sender in any state, do the same exactly
if the spellings begin with the same byte, or the sender has no level at which the handler finds the
first byte of one of them. For the handlers of `reload` and `raw` and that of `bot_cryptocurrency`
there is no such level. -/
theorem sameCalls_iff (env : CryptoEnv) {cmdPrefix message message' : CString} {w : Word}
    (h : TwoSpellings cmdPrefix message message' w) {cmds : CommandTree ModuleHandler}
    {handler : ModuleHandler} (hbound : cmds.find w = some handler) (sender target : CString)
    (s : WebBot) :
    SameCalls (dispatchCmd env cmdPrefix cmds sender target message s)
        (dispatchCmd env cmdPrefix cmds sender target message' s) ↔
      (firstWord (message.drop 1)).bytes.head? = (firstWord (message'.drop 1)).bytes.head? ∨
        ∀ level, (permissionsGet (ircParsesender sender).host s.bot.perms).1 = .returned level →
          ¬ handler.Acts level (firstWord (message.drop 1)).bytes.head? ∧
            ¬ handler.Acts level (firstWord (message'.drop 1)).bytes.head? := by
  obtain ⟨hqueue, hqueue'⟩ := h.modulesCheckCmd_eq hbound sender target
  simp only [dispatchCmd, hqueue, hqueue']
  by_cases hlevel : ∃ level,
      (permissionsGet (ircParsesender sender).host s.bot.perms).1 = .returned level
  · obtain ⟨level, hlevel⟩ := hlevel
    have hget : permissionsGet (ircParsesender sender).host s.bot.perms =
        (.returned level, (permissionsGet (ircParsesender sender).host s.bot.perms).2) :=
      Prod.ext hlevel rfl
    rw [threadpoolWrapperModuleCmd_returned env _ s hget,
      threadpoolWrapperModuleCmd_returned env _ s hget, sameCalls_run_iff h.word h.word']
    refine or_congr_right ⟨fun hnot level' hlevel' => ?_, fun hnot => hnot level hlevel⟩
    cases hlevel.symm.trans hlevel'
    exact hnot
  · have hnone : ∀ level,
        (permissionsGet (ircParsesender sender).host s.bot.perms).1 ≠ .returned level :=
      fun level hl => hlevel ⟨level, hl⟩
    refine ⟨fun _ => .inr fun level hl => absurd hl (hnone level), fun _ => ?_⟩
    rw [← threadpoolWrapperModuleCmd_of_not_returned env
      ⟨handler, firstWord (message.drop 1), sender, target, afterWord (message.drop 1)⟩ s
      (firstWord (message'.drop 1)) hnone]
    exact ⟨rfl, rfl, Iff.rfl⟩

/-- An environment in which every request fails. -/
def offline : CryptoEnv where
  server := fun _ => ⟨true, [], false⟩
  jsmnParse := fun _ _ => (0, fun _ => none)
  Double := Int
  one := 1
  atof := CString.atoi
  mul := (· * ·)
  lf := CString.ofInt
  lf2 := CString.ofInt

/-- The tree with `getp` registered by `bot_perms`. -/
def getpTree : CommandTree ModuleHandler :=
  (modulesRegisterCmd (fun _ => true) cmdsInit (CString.lit "getp")
    (some (.core (.perms .ok)))).2

/-- The bot with an empty map of permissions and no calls made. -/
def freshWebBot : WebBot where
  bot := ⟨.ofMap ⟨0, 256, fun _ => {}⟩, []⟩
  web := []

/-- `,gEtp` and `,gETP` do the same. -/
theorem sameCalls_iff_getp :
    SameCalls
      (dispatchCmd offline (CString.lit ",") getpTree (CString.lit "n!u@h") (CString.lit "#c")
        (CString.lit ",gEtp") freshWebBot)
      (dispatchCmd offline (CString.lit ",") getpTree (CString.lit "n!u@h") (CString.lit "#c")
        (CString.lit ",gETP") freshWebBot) :=
  (sameCalls_iff (w := [6, 4, 19, 15]) offline
    ⟨⟨CString.lit "gEtp", by decide, by decide⟩, ⟨CString.lit "gETP", by decide, by decide⟩,
      by decide, by decide, by decide⟩ (by rfl) _ _ _).2 (.inl (by decide))

/-- `,getp` gets an answer and `,Getp` none. -/
theorem not_sameCalls_getp :
    TwoSpellings (CString.lit ",") (CString.lit ",getp") (CString.lit ",Getp") [6, 4, 19, 15] ∧
      getpTree.find [6, 4, 19, 15] = some (.core (.perms .ok)) ∧
      ¬ SameCalls
        (dispatchCmd offline (CString.lit ",") getpTree (CString.lit "n!u@h") (CString.lit "#c")
          (CString.lit ",getp") freshWebBot)
        (dispatchCmd offline (CString.lit ",") getpTree (CString.lit "n!u@h") (CString.lit "#c")
          (CString.lit ",Getp") freshWebBot) := by
  refine ⟨⟨⟨CString.lit "getp", by decide, by decide⟩, ⟨CString.lit "Getp", by decide, by decide⟩,
    by decide, by decide, by decide⟩, by rfl, fun h => ?_⟩
  have hcore := h.core
  revert hcore
  decide +kernel

end MinervaBot
