import MinervaBot.LoaderCallsSpec

/-!
# Cleaning the command tree

`modules_cmds_clean(&cmds, 0)` frees every node below the root once and cuts them off, but leaves
the handler of the root, that of the empty name. A message reaches the root if a blank or nothing
stands behind its first byte, as it does behind a command prefix of one byte. So with a handler for
the empty name a message still queues a command, unless the prefix has a second byte which is no
blank (`cleansUp_iff`).
-/

namespace MinervaBot

open Lib

variable {H : Type}

/-! ## What a clean should do -/

/-- No message queues a command. -/
def Silent (cmdPrefix : CString) (cmds : CommandTree H) : Prop :=
  ∀ sender target message, modulesCheckCmd cmdPrefix cmds sender target message = none

/-- Two trees behave alike: after every history of registrations and removals, whose calls return
the same, every message queues the same. -/
def BehavesAs (cmdPrefix : CString) (cmds cmds' : CommandTree H) : Prop :=
  ∀ ops, ∃ t t' rets, runSteps commandStep cmds ops = some (t, rets) ∧
    runSteps commandStep cmds' ops = some (t', rets) ∧
      ∀ sender target message, modulesCheckCmd cmdPrefix t sender target message =
        modulesCheckCmd cmdPrefix t' sender target message

/-- Between two points of a call every node below the root was freed once, no message queues a
command any more, and the tree behaves as a new one. -/
structure Cleaned (cmdPrefix : CString) (c c' : Caller H) : Prop where
  freed : ∃ ws : List Word, c'.freedNodes = c.freedNodes ++ ws ∧ ws.Nodup ∧
    ∀ w, w ∈ ws ↔ w ≠ [] ∧ c.loader.cmds.sub w ≠ .null
  silent : Silent cmdPrefix c'.loader.cmds
  fresh : BehavesAs cmdPrefix c'.loader.cmds cmdsInit

/-- The prefix has a second byte, which is no blank. -/
def SecondByte (cmdPrefix : CString) : Prop :=
  ∃ b, cmdPrefix.bytes[1]? = some b ∧ b ≠ 32

section
variable {cmdPrefix : CString} {cmds cmds' : CommandTree H} {c : Caller H}

/-! ## Messages -/

/-- With a second byte in the prefix the first word of a command is not empty. -/
theorem SecondByte.firstWord_ne_nil (h : SecondByte cmdPrefix) (text : CString) :
    (firstWord ((cmdPrefix ++ text).drop 1)).bytes ≠ [] := by
  obtain ⟨b, hb, hblank⟩ := h
  rw [bytes_firstWord, CString.bytes_drop, CString.bytes_append]
  match hbytes : cmdPrefix.bytes with
  | [] | [_] => simp [hbytes] at hb
  | _ :: b' :: rest =>
    obtain rfl : b' = b := by simpa [hbytes] using hb
    simp [hblank]

/-- Without one, the first word of a command is empty if a blank stands behind the prefix. -/
theorem firstWord_blank (h : ¬ SecondByte cmdPrefix) :
    (firstWord ((cmdPrefix ++ CString.lit " ").drop 1)).bytes = [] := by
  rw [bytes_firstWord, CString.bytes_drop, CString.bytes_append]
  match hbytes : cmdPrefix.bytes with
  | [] | [_] => rfl
  | _ :: b :: rest =>
    have hb : b = 32 := by
      by_contra hb
      exact h ⟨b, by simp [hbytes], hb⟩
    simp [hb]

/-- Two trees with the same commands queue the same, and with a second byte in the prefix the
command for the empty name does not matter. -/
theorem modulesCheckCmd_congr
    (h : ∀ w, (SecondByte cmdPrefix → w ≠ []) → cmds.find w = cmds'.find w)
    (sender target message : CString) :
    modulesCheckCmd cmdPrefix cmds sender target message =
      modulesCheckCmd cmdPrefix cmds' sender target message := by
  by_cases hprefix : cmdPrefix.bytes = message.bytes.take cmdPrefix.length
  · obtain ⟨text, rfl⟩ := prefix_iff.1 hprefix
    have hdispatch : CommandMap.dispatch cmds.find ((cmdPrefix ++ text).drop 1) =
        CommandMap.dispatch cmds'.find ((cmdPrefix ++ text).drop 1) := by
      rw [CommandMap.dispatch, CommandMap.dispatch]
      congr 1
      cases hw : lowercase (firstWord ((cmdPrefix ++ text).drop 1)).bytes with
      | none => rfl
      | some w =>
        refine h w fun hsecond hnil => hsecond.firstWord_ne_nil text ?_
        rw [hnil] at hw
        simpa [Word.bytes] using (lowercase_eq_some_iff.1 hw).2
    rw [modulesCheckCmd_append, modulesCheckCmd_append, hdispatch]
  · simp only [modulesCheckCmd, if_pos hprefix]

/-- No command is registered in a new tree. -/
theorem silent_cmdsInit (cmdPrefix : CString) : Silent (H := H) cmdPrefix cmdsInit := by
  intro sender target message
  by_cases hprefix : cmdPrefix.bytes = message.bytes.take cmdPrefix.length
  · obtain ⟨text, rfl⟩ := prefix_iff.1 hprefix
    rw [modulesCheckCmd_append, cmdsInit, Trie.find_empty, CommandMap.dispatch]
    simp
  · simp only [modulesCheckCmd, if_pos hprefix, ite_self]

/-! ## Histories -/

/-- Two nodes with the same children. -/
inductive SameChildren : CommandTree H → CommandTree H → Prop
  | node (value value' : Option H) (children : Fin 26 → CommandTree H) :
    SameChildren (.node value children) (.node value' children)

/-- Two nodes with the same children have the same commands but for the empty name. -/
theorem SameChildren.find_eq (h : SameChildren cmds cmds') {w : Word} (hw : w ≠ []) :
    cmds.find w = cmds'.find w := by
  obtain ⟨value, value', children⟩ := h
  obtain ⟨i, w, rfl⟩ := List.exists_cons_of_ne_nil hw
  rfl

theorem SameChildren.ne_null (h : SameChildren cmds cmds') : cmds ≠ .null := by
  obtain ⟨value, value', children⟩ := h
  exact fun h => nomatch h

theorem sameChildren_self (h : cmds ≠ .null) : SameChildren cmds cmds := by
  cases cmds with
  | null => exact absurd rfl h
  | node value children => exact .node value value children

/-- A cleaned tree has the children of a new one. -/
theorem sameChildren_cut (h : cmds ≠ .null) : SameChildren cmds.cut cmdsInit := by
  cases cmds with
  | null => exact absurd rfl h
  | node value children => exact .node value none fun _ => .null

/-- A call returns the same on two nodes with the same children, and leaves such nodes. -/
theorem commandStep_sameChildren (h : SameChildren cmds cmds') (op : CommandOp H) :
    ∃ t t' ret, commandStep cmds op = some (t, ret) ∧ commandStep cmds' op = some (t', ret) ∧
      SameChildren t t' := by
  obtain ⟨value, value', children⟩ := h
  cases op with
  | register calloc cmdname handler =>
    simp only [commandStep, modulesRegisterCmd]
    cases cmdname.bytes with
    | nil => exact ⟨_, _, _, rfl, rfl, .node handler handler children⟩
    | cons real rest =>
      simp only [modulesRegisterCmdLoop]
      cases childIndex real with
      | none => exact ⟨_, _, _, rfl, rfl, .node value value' children⟩
      | some i => exact ⟨_, _, _, rfl, rfl, .node value value' _⟩
  | unregister cmdname =>
    simp only [commandStep, modulesUnregisterCmd]
    cases cmdname.bytes with
    | nil => exact ⟨_, _, _, rfl, rfl, .node none none children⟩
    | cons real rest =>
      simp only [modulesUnregisterCmdLoop]
      cases childIndex real with
      | none => exact ⟨_, _, _, rfl, rfl, .node value value' children⟩
      | some i => exact ⟨_, _, _, rfl, rfl, .node value value' _⟩

/-- The root of a tree stays a node. -/
theorem runSteps_ne_null {ops : List (CommandOp H)} {rets : List Int}
    (h : runSteps commandStep cmdsInit ops = some (cmds, rets)) : cmds ≠ .null := by
  refine runSteps_preserves (P := (· ≠ .null)) (fun s op s' ret hs hstep => ?_) cmdsInit_ne_null h
  obtain ⟨t, t', _, hleft, -, hsame⟩ := commandStep_sameChildren (sameChildren_self hs) op
  cases hleft.symm.trans hstep
  exact hsame.ne_null

/-- A cleaned tree behaves as a new one, if the command for the empty name is gone or does not
matter. -/
theorem behavesAs_cut (hroot : cmds ≠ .null)
    (h : cmds.find [] = none ∨ SecondByte cmdPrefix) :
    BehavesAs cmdPrefix cmds.cut cmdsInit := by
  intro ops
  by_cases hsecond : SecondByte cmdPrefix
  · obtain ⟨t, t', rets, hrun, hrun', hsame⟩ :=
      lockstep_runSteps (fun _ _ op h => commandStep_sameChildren h op) ops (sameChildren_cut hroot)
    exact ⟨t, t', rets, hrun, hrun', modulesCheckCmd_congr fun w hw => hsame.find_eq (hw hsecond)⟩
  · have hcut : cmds.cut = cmdsInit := by
      have hnone := h.resolve_right hsecond
      cases cmds with
      | null => exact absurd rfl hroot
      | node value children =>
        obtain rfl : value = none := hnone
        rfl
    obtain ⟨t, t, rets, hrun, hrun', -⟩ := lockstep_runSteps (R := SameChildren)
      (fun _ _ op h => commandStep_sameChildren h op) ops (sameChildren_cut hroot)
    rw [hcut] at hrun ⊢
    exact ⟨_, _, rets, hrun, hrun, fun _ _ _ => rfl⟩

/-! ## The clean -/

/-- A cleaned tree is silent exactly if the command for the empty name was not there or does not
matter. -/
theorem silent_cut_iff :
    Silent cmdPrefix cmds.cut ↔ cmds.find [] = none ∨ SecondByte cmdPrefix := by
  constructor
  · intro hsilent
    by_contra hboth
    obtain ⟨hfind, hsecond⟩ := not_or.1 hboth
    obtain ⟨handler, hhandler⟩ := Option.ne_none_iff_exists'.1 hfind
    have hword := congrArg lowercase (firstWord_blank hsecond)
    have hbound := cmds.find_cut_nil.trans hhandler
    have hqueues := modulesCheckCmd_of_find (by decide) (hword.trans lowercase_nil) hbound
      (CString.lit "") (CString.lit "")
    cases hqueues.symm.trans (hsilent _ _ _)
  · intro h sender target message
    have hfind : ∀ w, (SecondByte cmdPrefix → w ≠ []) → cmds.cut.find w = cmdsInit.find w := by
      intro w hw
      rw [cmdsInit, Trie.find_empty]
      by_cases hnil : w = []
      · rw [hnil, Trie.find_cut_nil]
        exact h.resolve_right fun hsecond => hw hsecond hnil
      · exact Trie.find_cut_of_ne_nil cmds hnil
    rw [modulesCheckCmd_congr hfind, silent_cmdsInit]

/-- What a clean frees: every node below the root, once. -/
theorem freedBelow_root (cmds : CommandTree H) : (Caller.freedBelow [] cmds).Nodup ∧
    ∀ w, w ∈ Caller.freedBelow [] cmds ↔ w ≠ [] ∧ cmds.sub w ≠ .null := by
  have hmap : Caller.freedBelow [] cmds = cmds.descendants (List.finRange 26) := by
    simp [Caller.freedBelow]
  rw [hmap]
  exact ⟨Trie.nodup_descendants (List.nodup_finRange 26) cmds,
    fun _ => Trie.mem_descendants List.mem_finRange cmds⟩

/-- Whatever was registered and unregistered, a clean frees every node below the root once, silences
every message and leaves a tree that behaves as a new one, exactly if no handler is registered for
the empty name or the prefix has a second byte, which is no blank. -/
theorem cleansUp_iff (ops : List (CommandOp H)) {rets : List Int} (cmdPrefix : CString)
    (hrun : runSteps commandStep cmdsInit ops = some (c.loader.cmds, rets))
    (hfree : c.held .cmds = false) :
    (∃ t c', (Caller.modulesCmdsClean 0 [] c.loader.cmds).run c = .ok t c' ∧
      Cleaned cmdPrefix c c') ↔ c.loader.cmds.find [] = none ∨ SecondByte cmdPrefix := by
  have hroot := runSteps_ne_null hrun
  rw [Caller.run_modulesCmdsClean hfree hroot]
  constructor
  · rintro ⟨_, c', hok, hcleaned⟩
    cases hok
    exact silent_cut_iff.1 hcleaned.silent
  · intro h
    refine ⟨_, _, rfl, ?_⟩
    exact {
      freed := ⟨_, rfl, freedBelow_root c.loader.cmds⟩
      silent := silent_cut_iff.2 h
      fresh := behavesAs_cut hroot h }

end

/-- A thread with the tree in which one name is registered. -/
def callerWith (cmdname : CString) (handler : H) : Caller H :=
  callerInit { loaderInit with
    cmds := (modulesRegisterCmd (fun _ => true) cmdsInit cmdname (some handler)).2 }

/-- The command `op` is registered. -/
theorem cleansUp_iff_op : ∃ t c', (Caller.modulesCmdsClean 0 []
      (callerWith (CString.lit "op") 7).loader.cmds).run (callerWith (CString.lit "op") 7) = .ok t c' ∧
    Cleaned (CString.lit "!") (callerWith (CString.lit "op") 7) c' :=
  (cleansUp_iff [.register (fun _ => true) (CString.lit "op") (some 7)] (CString.lit "!")
    (c := callerWith (CString.lit "op") 7) rfl rfl).2 (.inl rfl)

/-- The empty name is registered: after the clean the message `! x` still queues its handler. -/
theorem not_cleansUp : ¬ ∀ (cmdPrefix : CString) (ops : List (CommandOp Nat)) (c : Caller Nat)
    (rets : List Int), runSteps commandStep cmdsInit ops = some (c.loader.cmds, rets) →
      c.held .cmds = false →
        ∃ t c', (Caller.modulesCmdsClean 0 [] c.loader.cmds).run c = .ok t c' ∧
          Cleaned cmdPrefix c c' := by
  intro h
  have hops : runSteps commandStep cmdsInit [.register (fun _ => true) (CString.lit "") (some 7)] =
      some ((callerWith (CString.lit "") 7).loader.cmds, [0]) := rfl
  obtain ⟨t, c', hrun, hcleaned⟩ := h (CString.lit "!") _ _ _ hops rfl
  rw [Caller.run_modulesCmdsClean rfl (runSteps_ne_null hops)] at hrun
  cases hrun
  have hnone := hcleaned.silent (CString.lit "ann!a@b") (CString.lit "#chan") (CString.lit "! x")
  exact absurd hnone (by decide)

end MinervaBot
