import MinervaBot.Commands

/-!
# The command prefix

`modules_check_cmd` compares `cmdprefix_len` bytes of the message with the command prefix and then
skips one byte of it. `QueuesBound` says what the prefix is for: a message is a command when the
prefix and a bound word open it. `queuesBound_iff` gives the messages the code treats so, for every
prefix and every tree, and the configurations in which it treats every message so: with a prefix of
one byte and no command of the empty name, or with no command at all.
-/

namespace MinervaBot

open Lib

variable {H : Type}

/-- The message is the command prefix, then `word`, then a space or the end. -/
def Invokes (cmdPrefix word message : CString) : Prop :=
  ∃ rest, message.bytes = cmdPrefix.bytes ++ (word.bytes ++ rest) ∧
    (rest = [] ∨ rest.head? = some 32)

/-- For a message, `modules_check_cmd` queues a command exactly when the message invokes a bound
word, and the queued `cmdname` is that word. -/
structure QueuesBound (cmdPrefix : CString) (cmds : CommandTree H) (message : CString) : Prop where
  complete : ∀ word w handler, Invokes cmdPrefix word message → lowercase word.bytes = some w →
    cmds.find w = some handler → ∀ sender target,
    (modulesCheckCmd cmdPrefix cmds sender target message).isSome
  sound : ∀ sender target q, modulesCheckCmd cmdPrefix cmds sender target message = some q →
    Invokes cmdPrefix q.cmdname message ∧
      ∃ w, lowercase q.cmdname.bytes = some w ∧ cmds.find w = some q.handler

/-- The first word of a text is bound. -/
def CommandMap.Binds (m : CommandMap H) (text : CString) : Prop :=
  ∃ w handler, lowercase (firstWord text).bytes = some w ∧ m w = some handler

/-- Behind the whole prefix and behind the first byte of the message stands the same word, or
neither word is bound; and an empty text behind the prefix is no command. -/
def SkipsPrefix (cmdPrefix : CString) (cmds : CommandTree H) (message : CString) : Prop :=
  ∀ text, message = cmdPrefix ++ text →
    if text.length = 0 then cmds.find [] = none
    else firstWord (message.drop 1) = firstWord text ∨
      ¬ CommandMap.Binds cmds.find (message.drop 1) ∧ ¬ CommandMap.Binds cmds.find text

/-! ## Words behind a prefix -/

/-- A text with a lower case form has no space. -/
theorem space_notMem_of_lowercase {text : List UInt8} {w : Word} (h : lowercase text = some w) :
    32 ∉ text := by
  intro hmem
  have hletter := (lowercase_eq_some_iff.1 h).1 32 hmem
  revert hletter
  decide

/-- The first word is what stands before a space or the end. -/
theorem firstWord_eq_iff {text word : CString} (hword : 32 ∉ word.bytes) :
    firstWord text = word ↔
      ∃ rest, text.bytes = word.bytes ++ rest ∧ (rest = [] ∨ rest.head? = some 32) := by
  constructor
  · rintro rfl
    refine ⟨text.bytes.dropWhile (· != 32), ?_, ?_⟩
    · rw [bytes_firstWord, List.takeWhile_append_dropWhile]
    · cases hrest : text.bytes.dropWhile (· != 32) with
      | nil => exact .inl rfl
      | cons c rest =>
        have hc := List.head_dropWhile_not (· != 32) (l := text.bytes) (by simp [hrest])
        simp only [hrest, List.head_cons] at hc
        exact .inr (by simpa using hc)
  · rintro ⟨rest, htext, hrest⟩
    have hall : ∀ c ∈ word.bytes, (c != 32) = true := fun c hc => by
      simpa using ne_of_mem_of_not_mem hc hword
    have hstop : rest.takeWhile (· != 32) = [] := by
      cases rest with
      | nil => rfl
      | cons c rest => simpa using hrest
    refine CString.ext ?_
    rw [bytes_firstWord, htext, List.takeWhile_append_of_pos hall, hstop, List.append_nil]

/-- An invocation of a word without spaces: the word is the first of the text behind the prefix. -/
theorem invokes_iff {cmdPrefix word message : CString} (hword : 32 ∉ word.bytes) :
    Invokes cmdPrefix word message ↔
      ∃ text, message = cmdPrefix ++ text ∧ firstWord text = word := by
  constructor
  · rintro ⟨rest, hmessage, hrest⟩
    have hnul : 0 ∉ word.bytes ++ rest := fun h =>
      message.noNul (hmessage ▸ List.mem_append_right _ h)
    exact ⟨⟨word.bytes ++ rest, hnul⟩, CString.ext hmessage,
      (firstWord_eq_iff hword).2 ⟨rest, rfl, hrest⟩⟩
  · rintro ⟨text, rfl, hfirst⟩
    obtain ⟨rest, htext, hrest⟩ := (firstWord_eq_iff hword).1 hfirst
    exact ⟨rest, by rw [CString.bytes_append, htext], hrest⟩

/-- What a prefix leaves is determined. -/
theorem append_text_inj {cmdPrefix text text' : CString} (h : cmdPrefix ++ text = cmdPrefix ++ text') :
    text = text' :=
  CString.ext (List.append_cancel_left (congrArg CString.bytes h))

/-- A text dispatches if its first word is bound. -/
theorem dispatch_isSome_iff {m : CommandMap H} {text : CString} :
    (CommandMap.dispatch m text).isSome ↔ m.Binds text := by
  rw [CommandMap.dispatch, Option.isSome_map, Option.isSome_iff_exists]
  simp only [Option.bind_eq_some_iff, CommandMap.Binds]
  exact exists_comm

/-! ## The messages the code treats so -/

/-- A message without the prefix queues nothing. -/
theorem modulesCheckCmd_eq_none {cmdPrefix message : CString} (cmds : CommandTree H)
    (sender target : CString) (h : ∀ text, message ≠ cmdPrefix ++ text) :
    modulesCheckCmd cmdPrefix cmds sender target message = none := by
  rw [modulesCheckCmd]
  split
  · rfl
  · rw [if_pos fun heq => (prefix_iff.1 heq).elim h]

/-- An empty text has the empty first word. -/
theorem bytes_firstWord_of_length {text : CString} (h : text.length = 0) :
    (firstWord text).bytes = [] := by
  rw [bytes_firstWord, List.length_eq_zero_iff.1 h, List.takeWhile_nil]

/-- An empty text is bound if the empty word is. -/
theorem binds_iff_of_length {m : CommandMap H} {text : CString} (h : text.length = 0) :
    m.Binds text ↔ ∃ handler, m [] = some handler := by
  simp [CommandMap.Binds, bytes_firstWord_of_length h, lowercase_nil]

/-- A message behind the prefix queues a command if its text is not empty and the word that
`modules_check_cmd` walks is bound. -/
theorem modulesCheckCmd_isSome_iff {cmdPrefix sender target text : CString} {cmds : CommandTree H} :
    (modulesCheckCmd cmdPrefix cmds sender target (cmdPrefix ++ text)).isSome ↔
      text.length ≠ 0 ∧ CommandMap.Binds cmds.find ((cmdPrefix ++ text).drop 1) := by
  rw [modulesCheckCmd_append, ← dispatch_isSome_iff]
  split
  · next hlen => simp [hlen]
  · next hlen =>
    rw [Option.isSome_map]
    exact (and_iff_right hlen).symm

/-- What it queues carries the word it walks and the handler of that word. -/
theorem modulesCheckCmd_queued {cmdPrefix sender target text : CString} {cmds : CommandTree H}
    {q : QueueCmd H}
    (h : modulesCheckCmd cmdPrefix cmds sender target (cmdPrefix ++ text) = some q) :
    q.cmdname = firstWord ((cmdPrefix ++ text).drop 1) ∧
      ∃ w, lowercase q.cmdname.bytes = some w ∧ cmds.find w = some q.handler := by
  rw [modulesCheckCmd_append] at h
  split at h
  · cases h
  · obtain ⟨r, hr, rfl⟩ := Option.map_eq_some_iff.1 h
    obtain ⟨handler, hbound, rfl⟩ := Option.map_eq_some_iff.1 hr
    exact ⟨rfl, Option.bind_eq_some_iff.1 hbound⟩

/-- Where a message is treated as a command exactly when a bound word follows the prefix, the word
the code walks is the word behind the prefix, or neither is bound. -/
theorem QueuesBound.skipsPrefix {cmdPrefix : CString} {cmds : CommandTree H} {message : CString}
    (h : QueuesBound cmdPrefix cmds message) : SkipsPrefix cmdPrefix cmds message := by
  obtain ⟨complete, sound⟩ := h
  rintro text rfl
  have hqueued : CommandMap.Binds cmds.find text →
      text.length ≠ 0 ∧ CommandMap.Binds cmds.find ((cmdPrefix ++ text).drop 1) := by
    rintro ⟨w, handler, hw, hbound⟩
    have hinvokes : Invokes cmdPrefix (firstWord text) (cmdPrefix ++ text) :=
      (invokes_iff (space_notMem_of_lowercase hw)).2 ⟨text, rfl, rfl⟩
    exact modulesCheckCmd_isSome_iff.1 (complete _ w handler hinvokes hw hbound text text)
  split
  · next hlen =>
    rw [binds_iff_of_length hlen] at hqueued
    exact Option.eq_none_iff_forall_ne_some.2 fun handler h => (hqueued ⟨handler, h⟩).1 hlen
  · next hlen =>
    rcases Classical.em (CommandMap.Binds cmds.find ((cmdPrefix ++ text).drop 1))
      with hwalk | hwalk
    · obtain ⟨q, hq⟩ := Option.isSome_iff_exists.1
        ((@modulesCheckCmd_isSome_iff _ _ text text _ _).2 ⟨hlen, hwalk⟩)
      obtain ⟨hinvokes, w, hw, -⟩ := sound text text q hq
      obtain ⟨hname, -⟩ := modulesCheckCmd_queued hq
      obtain ⟨text', htext, hfirst⟩ := (invokes_iff (space_notMem_of_lowercase hw)).1 hinvokes
      left
      rw [← hname, ← hfirst, append_text_inj htext]
    · exact .inr ⟨hwalk, fun h => hwalk (hqueued h).2⟩

/-- And so it is treated where the code walks that word. -/
theorem SkipsPrefix.queuesBound {cmdPrefix : CString} {cmds : CommandTree H} {message : CString}
    (hskip : SkipsPrefix cmdPrefix cmds message) : QueuesBound cmdPrefix cmds message := by
  refine ⟨fun word w handler hinvokes hw hbound sender target => ?_,
    fun sender target q hq => ?_⟩
  · obtain ⟨text, rfl, rfl⟩ := (invokes_iff (space_notMem_of_lowercase hw)).1 hinvokes
    have hbinds : CommandMap.Binds cmds.find text := ⟨w, handler, hw, hbound⟩
    have hcase := hskip text rfl
    rw [modulesCheckCmd_isSome_iff]
    split at hcase
    · next hlen =>
      obtain ⟨handler', h⟩ := (binds_iff_of_length hlen).1 hbinds
      rw [hcase] at h
      cases h
    · next hlen =>
      refine ⟨hlen, ?_⟩
      rcases hcase with hsame | ⟨-, hnot⟩
      · rw [CommandMap.Binds, hsame]
        exact hbinds
      · exact absurd hbinds hnot
  · rcases Classical.em (∃ text, message = cmdPrefix ++ text) with ⟨text, rfl⟩ | hnone
    · obtain ⟨hlen, hwalk⟩ := modulesCheckCmd_isSome_iff.1 (Option.isSome_of_eq_some hq)
      obtain ⟨hname, w, hw, hbound⟩ := modulesCheckCmd_queued hq
      have hcase := hskip text rfl
      rw [if_neg hlen] at hcase
      have hsame := hcase.resolve_right fun h => h.1 hwalk
      have hinvokes : Invokes cmdPrefix q.cmdname (cmdPrefix ++ text) :=
        (invokes_iff (space_notMem_of_lowercase hw)).2 ⟨text, rfl, hsame.symm.trans hname.symm⟩
      exact ⟨hinvokes, w, hw, hbound⟩
    · rw [modulesCheckCmd_eq_none cmds sender target fun text h => hnone ⟨text, h⟩] at hq
      cases hq

/-- The messages `modules_check_cmd` treats as commands exactly when a bound word follows the
prefix. -/
theorem queuesBound_iff_skipsPrefix (cmdPrefix : CString) (cmds : CommandTree H)
    (message : CString) :
    QueuesBound cmdPrefix cmds message ↔ SkipsPrefix cmdPrefix cmds message :=
  ⟨QueuesBound.skipsPrefix, SkipsPrefix.queuesBound⟩

/-! ## The configurations -/

/-- The lower case letters of a word. -/
theorem lowercase_wordBytes (w : Word) : lowercase (Word.bytes w) = some w := by
  have hletter : ∀ i : Fin 26, childIndex (97 + .ofNat i) = some i := by
    decide +kernel
  induction w with
  | nil => exact lowercase_nil
  | cons i w ih =>
    rw [Word.bytes, List.map_cons, lowercase_cons, hletter i, Option.bind_some]
    rw [show lowercase (w.map fun i => 97 + .ofNat i) = some w from ih, Option.map_some]

/-- A word as a C string. -/
def Word.text (w : Word) : CString where
  bytes := Word.bytes w
  noNul h := by
    have hletter := (lowercase_eq_some_iff.1 (lowercase_wordBytes w)).1 0 h
    revert hletter
    decide

/-- A word is the first of its own text. -/
theorem firstWord_text (w : Word) : firstWord (Word.text w) = Word.text w :=
  (firstWord_eq_iff (space_notMem_of_lowercase (lowercase_wordBytes w))).2
    ⟨[], (List.append_nil _).symm, .inl rfl⟩

/-- Behind the first byte of a message stands the rest of the prefix, and the text. -/
theorem drop_one_append {cmdPrefix : CString} (hne : cmdPrefix.length ≠ 0) (text : CString) :
    (cmdPrefix ++ text).drop 1 = cmdPrefix.drop 1 ++ text := by
  refine CString.ext ?_
  rw [CString.bytes_drop, CString.bytes_append, CString.bytes_append, CString.bytes_drop]
  exact List.drop_append_of_le_length (Nat.one_le_iff_ne_zero.2 hne)

/-- Behind a prefix of one byte the code walks the text. -/
theorem drop_one_append_of_length {cmdPrefix : CString} (hone : cmdPrefix.length = 1)
    (text : CString) : (cmdPrefix ++ text).drop 1 = text := by
  rw [drop_one_append (by omega)]
  refine CString.ext ?_
  rw [CString.bytes_append, CString.bytes_drop, List.drop_of_length_le (by exact hone.le),
    List.nil_append]

/-- A space in the first part ends the first word there. -/
theorem firstWord_append_of_mem {s : CString} (hspace : 32 ∈ s.bytes) (t : CString) :
    firstWord (s ++ t) = firstWord s := by
  refine CString.ext ?_
  rw [bytes_firstWord, bytes_firstWord, CString.bytes_append, List.takeWhile_append, if_neg]
  intro hlen
  have hall : s.bytes.takeWhile (· != 32) = s.bytes :=
    (List.takeWhile_prefix _).eq_of_length hlen
  have hne : ((32 : UInt8) != 32) = true :=
    List.mem_takeWhile_imp (p := (· != 32)) (hall.symm ▸ hspace)
  cases hne

/-- Without a space in the first part the first word goes on. -/
theorem bytes_firstWord_append_of_notMem {s : CString} (hspace : 32 ∉ s.bytes) (t : CString) :
    (firstWord (s ++ t)).bytes = s.bytes ++ (firstWord t).bytes := by
  have hall : ∀ c ∈ s.bytes, (c != 32) = true := fun c hc => by
    simpa using ne_of_mem_of_not_mem hc hspace
  rw [bytes_firstWord, bytes_firstWord, CString.bytes_append, List.takeWhile_append_of_pos hall]

/-- A bound word behind a prefix of at least two bytes, with a message in which the code does not
find it. If the rest of the prefix has no space the word is such a message; else the code walks one
word whatever follows the prefix, also where what follows is not bound. -/
theorem exists_not_skipsPrefix {cmdPrefix : CString} (hlong : 2 ≤ cmdPrefix.length)
    {cmds : CommandTree H} {w : Word} {handler : H} (hne : w ≠ [])
    (hbound : cmds.find w = some handler) :
    ∃ message, ¬ SkipsPrefix cmdPrefix cmds message := by
  by_contra hall
  simp only [not_exists, not_not] at hall
  have hlen : (Word.text w).length ≠ 0 := by
    simpa [Word.text, Word.bytes, CString.length] using hne
  have hword : CommandMap.Binds cmds.find (Word.text w) :=
    ⟨w, handler, by rw [firstWord_text]; exact lowercase_wordBytes w, hbound⟩
  have hwalk : firstWord (cmdPrefix.drop 1 ++ Word.text w) = Word.text w := by
    have hcase := hall _ _ (Eq.refl (cmdPrefix ++ Word.text w))
    rw [if_neg hlen, drop_one_append (by omega), firstWord_text] at hcase
    exact hcase.resolve_right fun h => h.2 hword
  rcases Classical.em (32 ∈ (cmdPrefix.drop 1).bytes) with hspace | hspace
  · rw [firstWord_append_of_mem hspace] at hwalk
    have hcase := hall _ _ (Eq.refl (cmdPrefix ++ CString.lit "1"))
    rw [if_neg (by decide), drop_one_append (by omega), firstWord_append_of_mem hspace,
      hwalk] at hcase
    rcases hcase with hsame | ⟨hnot, -⟩
    · have hletters := lowercase_wordBytes w
      rw [show Word.bytes w = [49] from congrArg CString.bytes hsame,
        show lowercase [49] = none by decide] at hletters
      cases hletters
    · refine hnot ⟨w, handler, ?_, hbound⟩
      rw [firstWord_append_of_mem hspace, hwalk]
      exact lowercase_wordBytes w
  · have hbytes := congrArg (fun s => s.bytes.length) hwalk
    simp only [bytes_firstWord_append_of_notMem hspace, firstWord_text, List.length_append,
      CString.bytes_drop, List.length_drop] at hbytes
    have : cmdPrefix.bytes.length = cmdPrefix.length := rfl
    omega

/-- The configurations in which every message is treated so. -/
theorem forall_skipsPrefix_iff {cmdPrefix : CString} (hne : cmdPrefix.length ≠ 0)
    (cmds : CommandTree H) :
    (∀ message, SkipsPrefix cmdPrefix cmds message) ↔
      cmdPrefix.length = 1 ∧ cmds.find [] = none ∨ ∀ w, cmds.find w = none := by
  constructor
  · intro hall
    have hempty : cmds.find [] = none := by
      have hcase := hall _ _ (Eq.refl (cmdPrefix ++ CString.lit ""))
      rwa [if_pos (by decide)] at hcase
    rcases Nat.lt_or_ge 1 cmdPrefix.length with hlong | hshort
    · refine .inr fun w => Option.eq_none_iff_forall_ne_some.2 fun handler hbound => ?_
      have hw : w ≠ [] := by
        rintro rfl
        rw [hempty] at hbound
        cases hbound
      obtain ⟨message, hnot⟩ := exists_not_skipsPrefix hlong hw hbound
      exact hnot (hall message)
    · exact .inl ⟨by omega, hempty⟩
  · rintro (⟨hone, hempty⟩ | hnone) message text rfl
    · split
      · exact hempty
      · exact .inl (congrArg firstWord (drop_one_append_of_length hone text))
    · have hnot : ∀ s, ¬ CommandMap.Binds cmds.find s := by
        rintro s ⟨w, handler, -, hbound⟩
        rw [hnone w] at hbound
        cases hbound
      split
      · exact hnone []
      · exact .inr ⟨hnot _, hnot _⟩

/-- With any nonempty prefix and any tree, reached or not, `modules_check_cmd` treats a message as
the prefix asks exactly when it skips the prefix in it, and every message exactly with a prefix of
one byte and no command of the empty name, or with no command at all. -/
theorem queuesBound_iff {cmdPrefix : CString} (hne : cmdPrefix.length ≠ 0)
    (cmds : CommandTree H) :
    (∀ message, QueuesBound cmdPrefix cmds message ↔ SkipsPrefix cmdPrefix cmds message) ∧
    ((∀ message, QueuesBound cmdPrefix cmds message) ↔
      cmdPrefix.length = 1 ∧ cmds.find [] = none ∨ ∀ w, cmds.find w = none) := by
  have hiff := queuesBound_iff_skipsPrefix cmdPrefix cmds
  exact ⟨hiff, (forall_congr' hiff).trans (forall_skipsPrefix_iff hne cmds)⟩

/-- With the prefix `!` and `kick` registered, `!kick ann` is treated so. -/
theorem queuesBound_iff_bang :
    QueuesBound (CString.lit "!")
      (modulesRegisterCmd (fun _ => true) cmdsInit (CString.lit "kick") (some 7)).2
      (CString.lit "!kick ann") :=
  (queuesBound_iff (by decide) _).2.2 (.inl ⟨rfl, rfl⟩) (CString.lit "!kick ann")

/-- With the prefix `!!`, `kick` registered and `!!kick ann` received, nothing is queued: the walk
starts at the second exclamation mark. -/
theorem queuesBound_bangBang :
    (runSteps commandStep cmdsInit
      [.register (fun _ => true) (CString.lit "kick") (some 7)]).map (fun r => r.2) = some [0] ∧
    ¬ QueuesBound (CString.lit "!!")
      (modulesRegisterCmd (fun _ => true) cmdsInit (CString.lit "kick") (some 7)).2
      (CString.lit "!!kick ann") := by
  refine ⟨rfl, fun h => ?_⟩
  have hqueued := h.complete (CString.lit "kick") [10, 8, 2, 10] 7
    ⟨(CString.lit " ann").bytes, by decide, .inr (by decide)⟩ (by decide) (by decide)
    (CString.lit "a!b@c") (CString.lit "#chan")
  have hnone : modulesCheckCmd (CString.lit "!!")
      (modulesRegisterCmd (fun _ => true) cmdsInit (CString.lit "kick") (some 7)).2
      (CString.lit "a!b@c") (CString.lit "#chan") (CString.lit "!!kick ann") = none := by
    decide +kernel
  rw [hnone] at hqueued
  cases hqueued

end MinervaBot
