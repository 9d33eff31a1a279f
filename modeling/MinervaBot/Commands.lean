import MinervaBot.Lib.CString
import MinervaBot.Lib.QueueTable
import MinervaBot.Lib.Trie
import Mathlib.Data.Fin.VecNotation

/-!
# The command tree

`modules_register_cmd`, `modules_unregister_cmd` and `modules_check_cmd` of `modules.c` walk a tree
with a child per letter. Each of the three runs with `modules_cmds_mutex` held from its first to its
last access to the tree, so a call is one step here. The root `cmds` is a static node; a child is
`NULL` until a registration allocates it, and an allocation may fail. A handler is of an arbitrary
type `H`, and `none` for `NULL`.

Read as a partial map from words (`Trie.find`), the tree decides what the walk of
`modules_check_cmd` makes of a text (`modulesCheckCmdWalk_eq`).
-/

namespace MinervaBot

open Lib

variable {H : Type}

/-- `struct command_tree`, as a pointer: handler and children. -/
abbrev CommandTree (H : Type) := Trie (Fin 26) H

/-- `cmds` before the first registration. -/
def cmdsInit : CommandTree H :=
  .empty

/-- The letter as the walks convert it to lower case. -/
def toLower (real : UInt8) : UInt8 :=
  if 65 ≤ real && real ≤ 90 then real + 32 else real

/-- The index of the child for a character, the same in the three walks; `none` for an invalid
character. -/
def childIndex (real : UInt8) : Option (Fin 26) :=
  if h : 97 ≤ (toLower real).toNat ∧ (toLower real).toNat ≤ 122 then
    some ⟨(toLower real).toNat - 97, by omega⟩
  else none

/-- The loop of `modules_register_cmd`: its return value and the tree at `ptr` afterwards. `calloc`
tells for each character of the name whether an allocation there succeeds. -/
def modulesRegisterCmdLoop (handler : Option H) :
    (calloc : Nat → Bool) → (ptr : CommandTree H) → (cmdname : List UInt8) → Int × CommandTree H
  | _, .null, _ => (-2, .null)
  | _, .node _ children, [] => (0, .node handler children)
  | calloc, .node value children, real :: cmdname =>
    match childIndex real with
    | none => (-1, .node value children)
    | some i =>
      let r := modulesRegisterCmdLoop handler (fun n => calloc (n + 1))
        ((children i).grow (calloc 0)) cmdname
      (r.1, .node value (Function.update children i r.2))

/-- `modules_register_cmd`. -/
def modulesRegisterCmd (calloc : Nat → Bool) (cmds : CommandTree H) (cmdname : CString)
    (handler : Option H) : Int × CommandTree H :=
  modulesRegisterCmdLoop handler calloc cmds cmdname.bytes

/-- The loop of `modules_unregister_cmd`. -/
def modulesUnregisterCmdLoop : (ptr : CommandTree H) → (cmdname : List UInt8) → Int × CommandTree H
  | .null, _ => (-3, .null)
  | .node _ children, [] => (0, .node none children)
  | .node value children, real :: cmdname =>
    match childIndex real with
    | none => (-1, .node value children)
    | some i =>
      let r := modulesUnregisterCmdLoop (children i) cmdname
      (r.1, .node value (Function.update children i r.2))

/-- `modules_unregister_cmd`. -/
def modulesUnregisterCmd (cmds : CommandTree H) (cmdname : CString) : Int × CommandTree H :=
  modulesUnregisterCmdLoop cmds cmdname.bytes

/-- The arguments of a call of `threadpool_queue_cmd`. -/
structure QueueCmd (H : Type) where
  handler : H
  cmdname : CString
  sender : CString
  target : CString
  args : CString
  deriving DecidableEq

/-- The loop of `modules_check_cmd` with `message` pointing `n` bytes behind `message_orig`: the
handler, `cmdname` and `args` it queues. The NUL written over the space ends `cmdname`. -/
def modulesCheckCmdLoop (messageOrig : CString) :
    (ptr : CommandTree H) → (n : Nat) → (message : List UInt8) → Option (H × CString × CString)
  | .null, _, _ => none
  | .node value _, n, [] =>
    value.map fun handler => (handler, messageOrig.take n, messageOrig.drop n)
  | .node value children, n, real :: message =>
    if real = 32 then
      value.map fun handler => (handler, messageOrig.take n, messageOrig.drop (n + 1))
    else
      match childIndex real with
      | none => none
      | some i => modulesCheckCmdLoop messageOrig (children i) (n + 1) message

/-- The walk of `modules_check_cmd` over the text behind the command prefix. -/
def modulesCheckCmdWalk (cmds : CommandTree H) (text : CString) : Option (H × CString × CString) :=
  modulesCheckCmdLoop text cmds 0 text.bytes

/-- `modules_check_cmd`. -/
def modulesCheckCmd (cmdPrefix : CString) (cmds : CommandTree H) (sender target message : CString) :
    Option (QueueCmd H) :=
  if cmdPrefix.length + 1 > message.length then none
  else if cmdPrefix.bytes ≠ message.bytes.take cmdPrefix.length then none
  else
    (modulesCheckCmdWalk cmds (message.drop 1)).map fun r => ⟨r.1, r.2.1, sender, target, r.2.2⟩

/-! ## Words -/

/-- A lower case word: the letters `a`, `b`, … as `0`, `1`, …. -/
abbrev Word := List (Fin 26)

/-- The bytes of a word. -/
def Word.bytes (w : Word) : List UInt8 :=
  w.map fun i => 97 + .ofNat i

/-- The lower case form of a text of ASCII letters, `none` for a text with any other byte. -/
def lowercase (text : List UInt8) : Option Word :=
  text.mapM childIndex

/-- An ASCII letter. -/
def IsLetter (c : UInt8) : Prop :=
  65 ≤ c ∧ c ≤ 90 ∨ 97 ≤ c ∧ c ≤ 122

instance (c : UInt8) : Decidable (IsLetter c) :=
  inferInstanceAs (Decidable (_ ∨ _))

/-- The children are indexed by the lower case letters. -/
theorem childIndex_eq_some_iff {c : UInt8} {i : Fin 26} :
    childIndex c = some i ↔ IsLetter c ∧ toLower c = 97 + .ofNat i := by
  have hbytes : ∀ c, (childIndex c).isSome = decide (IsLetter c) ∧
      ∀ i ∈ childIndex c, toLower c = 97 + .ofNat i :=
    forall_byte (by decide +kernel)
  have hinj : ∀ i j : Fin 26, (97 + .ofNat i : UInt8) = 97 + .ofNat j → i = j := by
    decide +kernel
  obtain ⟨hletter, hlower⟩ := hbytes c
  constructor
  · intro hi
    exact ⟨by simpa [hi] using hletter, hlower i hi⟩
  · rintro ⟨h, hi⟩
    obtain ⟨j, hj⟩ := Option.isSome_iff_exists.1 (hletter.trans (decide_eq_true h))
    rw [hj, hinj j i ((hlower j hj).symm.trans hi)]

theorem lowercase_nil : lowercase [] = some [] := by
  simp [lowercase]

theorem lowercase_cons (c : UInt8) (text : List UInt8) :
    lowercase (c :: text) =
      (childIndex c).bind fun i => (lowercase text).map fun w => i :: w := by
  simp only [lowercase, List.mapM_cons]
  cases childIndex c with
  | none => rfl
  | some i => cases List.mapM childIndex text <;> rfl

/-- A text has a lower case form if it consists of letters. -/
theorem lowercase_eq_some_iff {text : List UInt8} {w : Word} :
    lowercase text = some w ↔ (∀ c ∈ text, IsLetter c) ∧ text.map toLower = Word.bytes w := by
  induction text generalizing w with
  | nil => cases w <;> simp [lowercase, Word.bytes]
  | cons c text ih =>
    rw [lowercase_cons]
    constructor
    · intro h
      obtain ⟨i, hi, hw⟩ := Option.bind_eq_some_iff.1 h
      obtain ⟨w', hw', rfl⟩ := Option.map_eq_some_iff.1 hw
      obtain ⟨hletter, hlower⟩ := childIndex_eq_some_iff.1 hi
      obtain ⟨hletters, hlowers⟩ := ih.1 hw'
      refine ⟨by simpa using ⟨hletter, hletters⟩, ?_⟩
      rw [List.map_cons, hlower, hlowers]
      rfl
    · rintro ⟨hletters, hlowers⟩
      cases w with
      | nil => cases hlowers
      | cons i w =>
        obtain ⟨hlower, hlowers⟩ := List.cons.inj hlowers
        have hi := childIndex_eq_some_iff.2 ⟨hletters c (.head _), hlower⟩
        have hw := ih.2 ⟨fun c hc => hletters c (.tail _ hc), hlowers⟩
        simp [hi, hw]

/-! ## The map of the commands -/

/-- A partial map from lower case words to handlers. -/
abbrev CommandMap (H : Type) := Word → Option H

/-- Whatever `modules_unregister_cmd` returns, a word it is called for is not bound afterwards:
where the walk ends early there is no node for the word. -/
theorem modulesUnregisterCmdLoop_unbinds {cmdname : List UInt8} :
    ∀ {w : Word} (ptr : CommandTree H), lowercase cmdname = some w →
      (modulesUnregisterCmdLoop ptr cmdname).2.find w = none := by
  induction cmdname with
  | nil =>
    intro w ptr hw
    obtain rfl : [] = w := by simpa [lowercase_nil] using hw
    cases ptr with
    | null => rw [modulesUnregisterCmdLoop, Trie.find_null]
    | node value children => rfl
  | cons real cmdname ih =>
    intro w ptr hw
    rw [lowercase_cons] at hw
    obtain ⟨i, hi, hw⟩ := Option.bind_eq_some_iff.1 hw
    obtain ⟨w', hw', rfl⟩ := Option.map_eq_some_iff.1 hw
    cases ptr with
    | null => rw [modulesUnregisterCmdLoop, Trie.find_null]
    | node value children =>
      have hchild := ih (children i) hw'
      simpa [modulesUnregisterCmdLoop, hi, Trie.find] using hchild

/-! ## Dispatch -/

/-- The text up to the first space or the end. -/
def firstWord (text : CString) : CString :=
  text.take (text.bytes.takeWhile (· != 32)).length

/-- The text after the first space, empty when there is none. -/
def afterWord (text : CString) : CString :=
  text.drop ((firstWord text).length + 1)

/-- What a text queues by the map: the handler its first word is bound to. -/
def CommandMap.dispatch (m : CommandMap H) (text : CString) : Option (H × CString × CString) :=
  ((lowercase (firstWord text).bytes).bind m).map fun handler =>
    (handler, firstWord text, afterWord text)

/-- The bytes of the first word. -/
theorem bytes_firstWord (text : CString) :
    (firstWord text).bytes = text.bytes.takeWhile (· != 32) := by
  rw [firstWord, CString.bytes_take]
  exact (List.prefix_iff_eq_take.1 (List.takeWhile_prefix _)).symm

/-- The loop of `modules_check_cmd`, `n` bytes into the text. Induction on the bytes to go. -/
theorem modulesCheckCmdLoop_eq (text : CString) (message : List UInt8) :
    ∀ (ptr : CommandTree H) (n : Nat), text.bytes.drop n = message →
      modulesCheckCmdLoop text ptr n message =
        ((lowercase (message.takeWhile (· != 32))).bind ptr.find).map fun handler =>
          (handler, text.take (n + (message.takeWhile (· != 32)).length),
            text.drop (n + (message.takeWhile (· != 32)).length + 1)) := by
  induction message with
  | nil =>
    intro ptr n hdrop
    cases ptr with
    | null => simp [modulesCheckCmdLoop]
    | node value children =>
      have hend : text.drop n = text.drop (n + 1) :=
        CString.ext (by simp [hdrop, ← List.drop_drop])
      simp [modulesCheckCmdLoop, lowercase, Trie.find, hend]
  | cons real message ih =>
    intro ptr n hdrop
    have hdrop' : text.bytes.drop (n + 1) = message := by
      rw [← List.drop_drop, hdrop, List.drop_one, List.tail_cons]
    cases ptr with
    | null => simp [modulesCheckCmdLoop]
    | node value children =>
      rw [modulesCheckCmdLoop]
      by_cases hspace : real = 32
      · simp [hspace, lowercase, Trie.find]
      · rw [if_neg hspace, List.takeWhile_cons_of_pos (by simpa using hspace), lowercase_cons]
        cases hi : childIndex real with
        | none => simp
        | some i =>
          show modulesCheckCmdLoop text (children i) (n + 1) message = _
          rw [ih _ _ hdrop']
          cases lowercase (message.takeWhile (· != 32)) with
          | none => rfl
          | some w =>
            simp only [Option.bind_some, Option.map_some, Trie.find, List.length_cons]
            rw [show n + 1 + (message.takeWhile (· != 32)).length =
              n + ((message.takeWhile (· != 32)).length + 1) by omega]

/-- The walk of `modules_check_cmd` dispatches by the map of the tree. -/
theorem modulesCheckCmdWalk_eq (cmds : CommandTree H) (text : CString) :
    modulesCheckCmdWalk cmds text = CommandMap.dispatch cmds.find text := by
  rw [modulesCheckCmdWalk, modulesCheckCmdLoop_eq text text.bytes cmds 0 rfl,
    CommandMap.dispatch, afterWord, CString.length, bytes_firstWord, firstWord, Nat.zero_add]

/-- The message starts with the prefix. -/
theorem prefix_iff {cmdPrefix message : CString} :
    cmdPrefix.bytes = message.bytes.take cmdPrefix.length ↔
      ∃ text, message = cmdPrefix ++ text := by
  constructor
  · intro h
    refine ⟨message.drop cmdPrefix.length, CString.ext ?_⟩
    rw [CString.bytes_append, CString.bytes_drop]
    exact (List.take_append_drop cmdPrefix.length message.bytes).symm.trans (by rw [← h])
  · rintro ⟨text, rfl⟩
    simp [CString.length]

/-- `modules_check_cmd` of a message that starts with the prefix: it walks what stands behind
the first byte, unless nothing stands behind the prefix. -/
theorem modulesCheckCmd_append (cmdPrefix : CString) (cmds : CommandTree H)
    (sender target text : CString) :
    modulesCheckCmd cmdPrefix cmds sender target (cmdPrefix ++ text) =
      if text.length = 0 then none
      else (CommandMap.dispatch cmds.find ((cmdPrefix ++ text).drop 1)).map fun r =>
        ⟨r.1, r.2.1, sender, target, r.2.2⟩ := by
  rw [modulesCheckCmd, if_neg (not_not.2 (prefix_iff.2 ⟨text, rfl⟩)), modulesCheckCmdWalk_eq,
    CString.length_append]
  cases text.length with
  | zero => rw [if_pos (by omega), if_pos rfl]
  | succ n => rw [if_neg (by omega), if_neg (by omega)]

/-- A message whose command word is bound queues its handler. -/
theorem modulesCheckCmd_of_find {cmdPrefix text : CString} {cmds : CommandTree H} {w : Word}
    {handler : H} (hlen : text.length ≠ 0)
    (hword : lowercase (firstWord ((cmdPrefix ++ text).drop 1)).bytes = some w)
    (hbound : cmds.find w = some handler) (sender target : CString) :
    modulesCheckCmd cmdPrefix cmds sender target (cmdPrefix ++ text) =
      some ⟨handler, firstWord ((cmdPrefix ++ text).drop 1), sender, target,
        afterWord ((cmdPrefix ++ text).drop 1)⟩ := by
  rw [modulesCheckCmd_append, if_neg hlen, CommandMap.dispatch, hword, Option.bind_some, hbound]
  rfl

/-- Behind a prefix of one byte stands the text. -/
theorem drop_append_text {cmdPrefix : CString} (hone : cmdPrefix.length = 1) (text : CString) :
    (cmdPrefix ++ text).drop 1 = text := by
  refine CString.ext ?_
  rw [CString.bytes_drop, CString.bytes_append, ← hone]
  exact List.drop_left

/-! ## Calls -/

/-- A call that changes the tree. -/
inductive CommandOp (H : Type) where
  | register (calloc : Nat → Bool) (cmdname : CString) (handler : Option H)
  | unregister (cmdname : CString)

/-- One call. -/
def commandStep (cmds : CommandTree H) : CommandOp H → Option (CommandTree H × Int)
  | .register calloc cmdname handler =>
    let r := modulesRegisterCmd calloc cmds cmdname handler
    some (r.2, r.1)
  | .unregister cmdname =>
    let r := modulesUnregisterCmd cmds cmdname
    some (r.2, r.1)

end MinervaBot
