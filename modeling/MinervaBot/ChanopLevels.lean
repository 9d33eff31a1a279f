import MinervaBot.Handlers

/-!
# The levels of `bot_chanop`

`handle_cmd` of `bot_chanop` compares the level with `PERMS_HOP`, switches over `kick` and `voice`,
compares it with `PERMS_OP` and switches over `mode`, `ban` and `op`, and does not return in
between. So a half-operator, whose level lies between the two, kicks or voices and is told that they
may not (`actsOrRefuses_iff`).
-/

namespace MinervaBot

open Lib

/-- The commands that `bot_chanop` registers. -/
inductive ChanopCmd where
  | mode
  | ban
  | kick
  | op
  | voice
  deriving DecidableEq

namespace ChanopCmd

/-- `MODECMD`, `BANCMD`, `KICKCMD`, `OPCMD` and `VOICECMD`. -/
def cmdname : ChanopCmd → CString
  | mode => CString.lit "mode"
  | ban => CString.lit "ban"
  | kick => CString.lit "kick"
  | op => CString.lit "op"
  | voice => CString.lit "voice"

/-- The level that a command asks for. -/
def level : ChanopCmd → Int
  | kick | voice => permsHop
  | mode | ban | op => permsOp

/-- The channel action of a command. -/
def action (where' args : CString) : ChanopCmd → List CoreCall
  | mode => [.chmode where' args]
  | ban => [.chmode where' (CString.lit "+b " ++ args),
      .rawVa (CString.lit "REMOVE " ++ where' ++ CString.lit " " ++ args ++
        CString.lit " :Banned.\r\n")]
  | kick =>
    match args.strchr 32 with
    | some p => [.kick where' (args.take p) (some (args.drop (p + 1)))]
    | none => [.kick where' args none]
  | op => [.chmode where' (CString.lit "+o " ++ args)]
  | voice => [.chmode where' (CString.lit "+v " ++ args)]

/-- The arguments fit into `cmd_buf` behind the mode, if the command copies them there. -/
def Fits (args : CString) : ChanopCmd → Prop
  | ban | op | voice => 3 + (args.length + 1) ≤ 513
  | mode | kick => True

end ChanopCmd

/-- `handle_cmd` does the action of the command, for a sender of its level, or sends one refusal,
for others; and nothing else. -/
def ActsOrRefuses (cmd : ChanopCmd) (who : CommandSender) (where' args : CString) (b : Bot) : Prop :=
  ∃ r calls, chanopHandleCmd cmd.cmdname who where' args b =
      (.returned r, { b with calls := b.calls ++ calls }) ∧
    (calls = cmd.action where' args ∧ cmd.level ≤ who.permissionLevel ∨
      calls = [.msgva where' (.insufficient who.nick)] ∧ who.permissionLevel < cmd.level)

section
variable {cmd : ChanopCmd} {who : CommandSender} {where' args : CString} {b : Bot}

/-- Behind a mode of three bytes, arguments that fit are copied. -/
theorem cmdBuf_fits {mode : CString} (hmode : mode.length = 3) (h : 3 + (args.length + 1) ≤ 513) :
    cmdBuf mode args b = (.returned (mode ++ args), b) := by
  rw [cmdBuf, hmode, if_pos h]
  rfl

/-- Others are not. -/
theorem cmdBuf_not_fits {mode : CString} (hmode : mode.length = 3)
    (h : ¬ 3 + (args.length + 1) ≤ 513) : cmdBuf mode args b = (.undefined, b) := by
  rw [cmdBuf, hmode, if_neg h]
  rfl

/-- The first `switch` does the actions that ask for `PERMS_HOP`. -/
theorem chanopHopCmd_apply (where' : CString) (b : Bot) (h : cmd.level = permsHop → cmd.Fits args) :
    chanopHopCmd cmd.cmdname where' args b =
      (.returned (), { b with calls := b.calls ++
        if cmd.level = permsHop then cmd.action where' args else [] }) := by
  cases cmd with
  | mode | ban | op => exact congrArg _ (by simp [ChanopCmd.level, permsHop, permsOp])
  | kick =>
    have hmatch : chanopHopCmd ChanopCmd.kick.cmdname where' args b =
        (.returned (), { b with calls := b.calls ++ ChanopCmd.action where' args .kick }) := by
      simp only [chanopHopCmd, ChanopCmd.action]
      cases args.strchr 32 <;> rfl
    exact hmatch
  | voice => exact Exec.bind_returned (cmdBuf_fits rfl (h rfl)) _

/-- It goes wrong where the arguments of such a command do not fit. -/
theorem chanopHopCmd_undefined (hlevel : cmd.level = permsHop) (hfits : ¬ cmd.Fits args) :
    chanopHopCmd cmd.cmdname where' args b = (.undefined, b) := by
  cases cmd with
  | mode | kick => exact absurd trivial hfits
  | ban | op => exact absurd hlevel (by decide)
  | voice => exact Exec.bind_undefined (cmdBuf_not_fits rfl hfits) _

/-- The second `switch` does the actions that ask for `PERMS_OP`. -/
theorem chanopOpCmd_apply (where' : CString) (b : Bot) (h : cmd.level = permsOp → cmd.Fits args) :
    chanopOpCmd cmd.cmdname where' args b =
      (.returned (), { b with calls := b.calls ++
        if cmd.level = permsOp then cmd.action where' args else [] }) := by
  cases cmd with
  | kick | voice => exact congrArg _ (by simp [ChanopCmd.level, permsHop, permsOp])
  | mode => rfl
  | ban =>
    refine (Exec.bind_returned (cmdBuf_fits rfl (h rfl)) _).trans ?_
    simp [ChanopCmd.action, ChanopCmd.level]
  | op => exact Exec.bind_returned (cmdBuf_fits rfl (h rfl)) _

/-- It goes wrong where the arguments of such a command do not fit. -/
theorem chanopOpCmd_undefined (hlevel : cmd.level = permsOp) (hfits : ¬ cmd.Fits args) :
    chanopOpCmd cmd.cmdname where' args b = (.undefined, b) := by
  cases cmd with
  | mode | kick => exact absurd trivial hfits
  | voice => exact absurd hlevel (by decide)
  | ban | op => exact Exec.bind_undefined (cmdBuf_not_fits rfl hfits) _

/-- A command asks for one of the two levels. -/
theorem ChanopCmd.level_eq (cmd : ChanopCmd) : cmd.level = permsHop ∨ cmd.level = permsOp := by
  cases cmd <;> first | exact .inl rfl | exact .inr rfl

/-- Below `PERMS_HOP` every command is refused. -/
theorem actsOrRefuses_low (h : who.permissionLevel < permsHop) :
    ActsOrRefuses cmd who where' args b := by
  have hlow : who.permissionLevel < cmd.level := by
    rcases cmd.level_eq with hlevel | hlevel <;> rw [hlevel]
    · exact h
    · exact h.trans (by decide)
  refine ⟨0, _, ?_, .inr ⟨rfl, hlow⟩⟩
  rw [chanopHandleCmd, if_pos h, refuse_apply]

/-- Between the two levels a command is done right if it asks for `PERMS_OP`: the others are done
and refused. -/
theorem actsOrRefuses_halfOp (hhop : permsHop ≤ who.permissionLevel)
    (hop : who.permissionLevel < permsOp) :
    ActsOrRefuses cmd who where' args b ↔ cmd.level ≠ permsHop := by
  by_cases hlevel : cmd.level = permsHop
  · refine iff_of_false ?_ (not_not.2 hlevel)
    rintro ⟨r, calls, hrun, hcalls⟩
    by_cases hfits : cmd.Fits args
    · have hfirst := chanopHopCmd_apply where' b fun _ => hfits
      rw [chanopHandleCmd, if_neg (Int.not_lt.2 hhop), Exec.bind_returned hfirst, if_pos hop,
        refuse_apply, if_pos hlevel] at hrun
      obtain rfl : cmd.action where' args ++ [.msgva where' (.insufficient who.nick)] = calls := by
        simpa using congrArg (·.2.calls) hrun
      rcases hcalls with ⟨heq, -⟩ | ⟨-, hlow⟩
      · simp at heq
      · omega
    · rw [chanopHandleCmd, if_neg (Int.not_lt.2 hhop),
        Exec.bind_undefined (chanopHopCmd_undefined hlevel hfits)] at hrun
      cases hrun
  · refine iff_of_true ⟨0, _, ?_, .inr ⟨rfl, ?_⟩⟩ hlevel
    · have hnot : cmd.level = permsHop → cmd.Fits args := fun h => absurd h hlevel
      have hfirst := chanopHopCmd_apply where' b hnot
      rw [chanopHandleCmd, if_neg (Int.not_lt.2 hhop), Exec.bind_returned hfirst, if_pos hop,
        refuse_apply, if_neg hlevel, List.append_nil]
    · rwa [cmd.level_eq.resolve_left hlevel]

/-- From `PERMS_OP` on every command is done whose arguments fit. -/
theorem actsOrRefuses_op (h : permsOp ≤ who.permissionLevel) :
    ActsOrRefuses cmd who where' args b ↔ cmd.Fits args := by
  have hhop : ¬ who.permissionLevel < permsHop := by
    simp only [permsHop, permsOp] at h ⊢
    omega
  have hne : permsHop ≠ permsOp := by decide
  by_cases hfits : cmd.Fits args
  · refine iff_of_true ⟨0, _, ?_, .inl ⟨rfl, ?_⟩⟩ hfits
    · have hfirst := chanopHopCmd_apply where' b fun _ => hfits
      rw [chanopHandleCmd, if_neg hhop, Exec.bind_returned hfirst, if_neg (Int.not_lt.2 h),
        Exec.bind_returned (chanopOpCmd_apply where' _ fun _ => hfits)]
      rcases cmd.level_eq with hlevel | hlevel
      · simp [hlevel, hne]
      · simp [hlevel, hne.symm]
    · rcases cmd.level_eq with hlevel | hlevel <;> omega
  · refine iff_of_false ?_ hfits
    rintro ⟨r, calls, hrun, -⟩
    rcases cmd.level_eq with hlevel | hlevel
    · rw [chanopHandleCmd, if_neg hhop,
        Exec.bind_undefined (chanopHopCmd_undefined hlevel hfits)] at hrun
      cases hrun
    · have hnot : cmd.level = permsHop → cmd.Fits args := fun h => absurd (h.symm.trans hlevel) hne
      have hfirst := chanopHopCmd_apply where' b hnot
      rw [chanopHandleCmd, if_neg hhop, Exec.bind_returned hfirst, if_neg (Int.not_lt.2 h),
        Exec.bind_undefined (chanopOpCmd_undefined hlevel hfits)] at hrun
      cases hrun

/-- `handle_cmd` does the action of the command or refuses it, by the level of the sender, unless a
half-operator kicks or voices, or the arguments of a `voice`, `ban` or `op` that is allowed do not
fit into `cmd_buf`. -/
theorem actsOrRefuses_iff : ActsOrRefuses cmd who where' args b ↔
    ¬ (cmd.level = permsHop ∧ permsHop ≤ who.permissionLevel ∧ who.permissionLevel < permsOp) ∧
      (cmd.level ≤ who.permissionLevel → cmd.Fits args) := by
  by_cases hlow : who.permissionLevel < permsHop
  · refine iff_of_true (actsOrRefuses_low hlow) ⟨by omega, fun h => ?_⟩
    rcases cmd.level_eq with hlevel | hlevel
    · omega
    · simp only [permsHop, permsOp] at hlow hlevel
      omega
  by_cases hop : who.permissionLevel < permsOp
  · rw [actsOrRefuses_halfOp (Int.not_lt.1 hlow) hop]
    constructor
    · intro hlevel
      refine ⟨fun h => hlevel h.1, fun h => ?_⟩
      rw [cmd.level_eq.resolve_left hlevel] at h
      omega
    · exact fun h hlevel => h.1 ⟨hlevel, Int.not_lt.1 hlow, hop⟩
  · rw [actsOrRefuses_op (Int.not_lt.1 hop)]
    have hlevel : cmd.level ≤ who.permissionLevel := by
      rcases cmd.level_eq with hlevel | hlevel <;> omega
    exact ⟨fun h => ⟨by omega, fun _ => h⟩, fun h => h.2 hlevel⟩

end

/-- A half-operator kicks `ann`, and is told that they may not. -/
theorem not_actsOrRefuses : ∃ m, hashmapNew true = some m ∧ ¬ ActsOrRefuses .kick
    ⟨CString.lit "bob", some (CString.lit "~bob"), some (CString.lit "host"), 25000⟩
    (CString.lit "#chan") (CString.lit "ann") ⟨PermState.ofMap m, []⟩ := by
  refine ⟨_, rfl, ?_⟩
  rintro ⟨r, calls, hrun, hcalls⟩
  obtain rfl : [.kick (CString.lit "#chan") (CString.lit "ann") none,
      .msgva (CString.lit "#chan") (.insufficient (CString.lit "bob"))] = calls :=
    congrArg (·.2.calls) hrun
  revert hcalls
  decide

end MinervaBot
