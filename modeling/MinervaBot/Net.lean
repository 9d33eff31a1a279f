import MinervaBot.IrcGrammar

/-!
# Sending lines

`net_raw` of `net.c` formats a line into `sbuf` and hands it to `_net_raws`, which appends it to
what the server gets; the functions of `irc.c` that send a line are calls of `net_raw`. A call is
described by the string it hands to `_net_raws`.

The CR LF at the end of a line belongs to the format, so `vsnprintf` cuts it off together with the
rest of a text that is too long. `sendsLines_iff` tells for which calls every one hands over one
whole line, and the lines of the stream are those of the calls.
-/

namespace MinervaBot

open Lib

/-- `vsnprintf` into `n` bytes, for the text that the format expands to. -/
def vsnprintf (n : Nat) (text : CString) : CString :=
  text.take (n - 1)

/-- What `net_raw` hands to `_net_raws`, for the text that its format expands to. -/
def netRaw (text : CString) : CString :=
  vsnprintf 512 text

/-! ## The functions of `irc.c` -/

/-- `irc_message`. -/
def ircMessage (chan message : CString) : CString :=
  netRaw (CString.lit "PRIVMSG " ++ chan ++ CString.lit " :" ++ message ++ CString.lit "\r\n")

/-- `irc_message_va`, for the text that the format expands to. -/
def ircMessageVa (chan text : CString) : CString :=
  ircMessage chan (vsnprintf 512 text)

/-- `irc_action`. -/
def ircAction (chan message : CString) : CString :=
  netRaw (CString.lit "PRIVMSG " ++ chan ++ CString.lit " :\x01ACTION " ++ message ++
    CString.lit "\x01\r\n")

/-- `irc_join`. -/
def ircJoin (chan : CString) : CString :=
  netRaw (CString.lit "JOIN " ++ chan ++ CString.lit "\r\n")

/-- `irc_part`. -/
def ircPart (chan message : CString) : CString :=
  netRaw (CString.lit "PART " ++ chan ++ CString.lit " :" ++ message ++ CString.lit "\r\n")

/-- `irc_chmode`. -/
def ircChmode (chan modes : CString) : CString :=
  netRaw (CString.lit "MODE " ++ chan ++ CString.lit " " ++ modes ++ CString.lit "\r\n")

/-- `irc_kick`; `none` for `NULL`. -/
def ircKick (chan nick : CString) : (reason : Option CString) → CString
  | some reason =>
    netRaw (CString.lit "KICK " ++ chan ++ CString.lit " " ++ nick ++ CString.lit " :" ++ reason ++
      CString.lit "\r\n")
  | none => netRaw (CString.lit "KICK " ++ chan ++ CString.lit " " ++ nick ++ CString.lit "\r\n")

/-- `irc_raw`. -/
def ircRaw (message : CString) : CString :=
  netRaw (message ++ CString.lit "\r\n")

/-- The string has no CR and no LF. -/
def NoEol (s : CString) : Prop :=
  13 ∉ s.bytes ∧ 10 ∉ s.bytes

instance (s : CString) : Decidable (NoEol s) :=
  inferInstanceAs (Decidable (_ ∧ _))

/-- What `irc_filter` puts in the place of a byte. -/
def filterByte (c : UInt8) : UInt8 :=
  if c = 13 ∨ c = 10 then 32 else c

/-- A filtered byte is no CR, no LF, and no new NUL. -/
theorem filterByte_safe (c : UInt8) : filterByte c ≠ 13 ∧ filterByte c ≠ 10 ∧
    (filterByte c = 0 → c = 0) := by
  rw [filterByte]
  split
  · exact ⟨by decide, by decide, fun h => absurd h (by decide)⟩
  · next hc => exact ⟨fun h => hc (.inl h), fun h => hc (.inr h), id⟩

/-- `irc_filter`. -/
def ircFilter (str : CString) : LineText where
  text := ⟨str.bytes.map filterByte, fun h => by
    obtain ⟨c, hc, h0⟩ := List.mem_map.1 h
    exact str.noNul ((filterByte_safe c).2.2 h0 ▸ hc)⟩
  noBreak := ⟨fun h => by
    obtain ⟨c, -, h13⟩ := List.mem_map.1 h
    exact (filterByte_safe c).1 h13, fun h => by
    obtain ⟨c, -, h10⟩ := List.mem_map.1 h
    exact (filterByte_safe c).2.1 h10⟩

/-- A call of one of these functions. -/
inductive IrcCall where
  | message (chan message : LineText)
  | messageVa (chan text : LineText)
  | action (chan message : LineText)
  | join (chan : LineText)
  | part (chan message : LineText)
  | chmode (chan modes : LineText)
  | kick (chan nick : LineText) (reason : Option LineText)
  | raw (message : LineText)

/-- What the call hands to `_net_raws`. -/
def IrcCall.sent : IrcCall → CString
  | .message chan text => ircMessage chan.text text.text
  | .messageVa chan text => ircMessageVa chan.text text.text
  | .action chan text => ircAction chan.text text.text
  | .join chan => ircJoin chan.text
  | .part chan text => ircPart chan.text text.text
  | .chmode chan modes => ircChmode chan.text modes.text
  | .kick chan nick reason => ircKick chan.text nick.text (reason.map LineText.text)
  | .raw text => ircRaw text.text

/-! ## Lines -/

/-- The command and the target of a call, as a line should begin; `irc_raw` is given them in its
message. -/
def IrcCall.head : IrcCall → CString
  | .message chan _ => CString.lit "PRIVMSG " ++ chan.text
  | .messageVa chan _ => CString.lit "PRIVMSG " ++ chan.text
  | .action chan _ => CString.lit "PRIVMSG " ++ chan.text
  | .join chan => CString.lit "JOIN " ++ chan.text
  | .part chan _ => CString.lit "PART " ++ chan.text
  | .chmode chan _ => CString.lit "MODE " ++ chan.text
  | .kick chan nick _ => CString.lit "KICK " ++ chan.text ++ CString.lit " " ++ nick.text
  | .raw text => text.text

/-- What stands behind the command and the target, before the CR LF. -/
def IrcCall.tail : IrcCall → CString
  | .message _ text => CString.lit " :" ++ text.text
  | .messageVa _ text => CString.lit " :" ++ text.text
  | .action _ text => CString.lit " :\x01ACTION " ++ text.text ++ CString.lit "\x01"
  | .join _ => CString.lit ""
  | .part _ text => CString.lit " :" ++ text.text
  | .chmode _ modes => CString.lit " " ++ modes.text
  | .kick _ _ (some reason) => CString.lit " :" ++ reason.text
  | .kick _ _ none => CString.lit ""
  | .raw _ => CString.lit ""

/-- The string is one line of at most 512 bytes that starts with `head`. -/
structure IsLine (head sent : CString) : Prop where
  line : ∃ rest, NoEol (head ++ rest) ∧ sent.bytes = head.bytes ++ rest.bytes ++ [13, 10]
  length_le : sent.length ≤ 512

/-- A stream cut behind each CR LF, with `cur` before it, and what is behind the last one. -/
def cutLines : (cur stream : List UInt8) → List (List UInt8) × List UInt8
  | cur, [] => ([], cur)
  | cur, c :: stream =>
    if cur.getLast? = some 13 ∧ c = 10 then
      ((cur ++ [c]) :: (cutLines [] stream).1, (cutLines [] stream).2)
    else cutLines (cur ++ [c]) stream

/-- Every call hands over one line, and the lines that the server sees are those of the calls. -/
structure SendsLines (calls : List IrcCall) : Prop where
  line : ∀ call ∈ calls, IsLine call.head call.sent
  stream : cutLines [] (calls.flatMap fun call => call.sent.bytes) =
    (calls.map fun call => call.sent.bytes, [])

/-- The length of the line that the call is to send, with its CR LF. -/
def IrcCall.lineLength (call : IrcCall) : Nat :=
  call.head.length + call.tail.length + 2

section
variable {call : IrcCall} {b stream : List UInt8}

@[simp] theorem bytes_vsnprintf (n : Nat) (text : CString) :
    (vsnprintf n text).bytes = text.bytes.take (n - 1) := rfl

@[simp] theorem bytes_netRaw (text : CString) : (netRaw text).bytes = text.bytes.take 511 := rfl

/-- Cutting a part of a text to the size of the whole changes nothing of the cut text. -/
theorem take_append_take (n : Nat) (a b c : List UInt8) :
    (a ++ b.take n ++ c).take n = (a ++ b ++ c).take n := by
  rcases Nat.le_total b.length n with hle | hge
  · rw [List.take_of_length_le hle]
  · have hlen : n ≤ (a ++ b.take n).length := by simp [hge]
    have hlen' : n ≤ (a ++ b).length := by simp; omega
    rw [List.take_append_of_le_length hlen, List.take_append_of_le_length hlen', List.take_append,
      List.take_append, List.take_take, Nat.min_eq_left (Nat.sub_le n _)]

/-- A call hands over the beginning of its line. -/
theorem IrcCall.bytes_sent (call : IrcCall) :
    call.sent.bytes = (call.head.bytes ++ call.tail.bytes ++ [13, 10]).take 511 := by
  have hcrlf : (CString.lit "\r\n").bytes = [13, 10] := by decide
  have hempty : (CString.lit "").bytes = [] := by decide
  cases call with
  | messageVa chan text =>
    have hcut := take_append_take 511
      ((CString.lit "PRIVMSG ").bytes ++ chan.text.bytes ++ (CString.lit " :").bytes)
      text.text.bytes [13, 10]
    simpa [sent, ircMessageVa, ircMessage, head, tail, hcrlf] using hcut
  | kick chan nick reason =>
    cases reason <;> simp [sent, ircKick, head, tail, hcrlf, hempty]
  | message chan text => simp [sent, ircMessage, head, tail, hcrlf]
  | action chan text =>
    have hend : (CString.lit "\x01\r\n").bytes = (CString.lit "\x01").bytes ++ [13, 10] := by decide
    simp [sent, ircAction, head, tail, hend]
  | join chan => simp [sent, ircJoin, head, tail, hcrlf, hempty]
  | part chan text => simp [sent, ircPart, head, tail, hcrlf]
  | chmode chan modes => simp [sent, ircChmode, head, tail, hcrlf]
  | raw text => simp [sent, ircRaw, head, tail, hcrlf, hempty]

/-- Two texts without line ends. -/
theorem NoEol.append {s t : CString} (hs : NoEol s) (ht : NoEol t) : NoEol (s ++ t) :=
  ⟨fun h => (List.mem_append.1 h).elim hs.1 ht.1, fun h => (List.mem_append.1 h).elim hs.2 ht.2⟩

/-- The words of the formats have no CR and no LF. -/
theorem IrcCall.noEol (call : IrcCall) : NoEol (call.head ++ call.tail) := by
  have hprivmsg : NoEol (CString.lit "PRIVMSG ") := by decide
  have hcolon : NoEol (CString.lit " :") := by decide
  have hspace : NoEol (CString.lit " ") := by decide
  have hempty : NoEol (CString.lit "") := by decide
  cases call with
  | message chan text => exact (hprivmsg.append chan.noBreak).append (hcolon.append text.noBreak)
  | messageVa chan text => exact (hprivmsg.append chan.noBreak).append (hcolon.append text.noBreak)
  | action chan text =>
    have hbegin : NoEol (CString.lit " :\x01ACTION ") := by decide
    have hend : NoEol (CString.lit "\x01") := by decide
    exact (hprivmsg.append chan.noBreak).append ((hbegin.append text.noBreak).append hend)
  | join chan =>
    have hjoin : NoEol (CString.lit "JOIN ") := by decide
    exact (hjoin.append chan.noBreak).append hempty
  | part chan text =>
    have hpart : NoEol (CString.lit "PART ") := by decide
    exact (hpart.append chan.noBreak).append (hcolon.append text.noBreak)
  | chmode chan modes =>
    have hmode : NoEol (CString.lit "MODE ") := by decide
    exact (hmode.append chan.noBreak).append (hspace.append modes.noBreak)
  | kick chan nick reason =>
    have hkick : NoEol (CString.lit "KICK ") := by decide
    have hhead := ((hkick.append chan.noBreak).append hspace).append nick.noBreak
    cases reason with
    | none => exact hhead.append hempty
    | some reason => exact hhead.append (hcolon.append reason.noBreak)
  | raw text => exact NoEol.append text.noBreak hempty

/-! ## Which calls send lines -/

/-- The LF behind a text without LF is there if and only if all of it fits. -/
theorem mem_take_crlf {n : Nat} (hlf : 10 ∉ b) :
    10 ∈ (b ++ [13, 10]).take n ↔ b.length + 2 ≤ n := by
  constructor
  · intro hmem
    by_contra hlt
    have hlen : (b ++ [13]).length = b.length + 1 := by simp
    rw [show b ++ [13, 10] = (b ++ [13]) ++ [10] by simp,
      List.take_append_of_le_length (by omega)] at hmem
    have := List.mem_of_mem_take hmem
    simp [hlf] at this
  · intro hle
    rw [List.take_of_length_le (by simpa using hle)]
    simp

/-- A call hands over one line if and only if the line takes at most 511 bytes. -/
theorem IrcCall.isLine_iff (call : IrcCall) :
    IsLine call.head call.sent ↔ call.lineLength ≤ 511 := by
  have hlf : 10 ∉ call.head.bytes ++ call.tail.bytes := call.noEol.2
  have hmem := mem_take_crlf (n := 511) hlf
  have hlength : (call.head.bytes ++ call.tail.bytes).length + 2 = call.lineLength := by
    rw [List.length_append]
    rfl
  rw [← call.bytes_sent, hlength] at hmem
  constructor
  · rintro ⟨⟨rest, -, hsent⟩, -⟩
    refine hmem.1 ?_
    rw [hsent]
    simp
  · intro hle
    have hlen : (call.head.bytes ++ call.tail.bytes ++ [13, 10]).length = call.lineLength := by
      rw [List.length_append, ← hlength]
      rfl
    have hsent : call.sent.bytes = call.head.bytes ++ call.tail.bytes ++ [13, 10] := by
      rw [call.bytes_sent]
      exact List.take_of_length_le (by omega)
    refine ⟨⟨call.tail, call.noEol, hsent⟩, ?_⟩
    rw [CString.length, hsent, hlen]
    omega

/-- Bytes without LF belong to the line in progress. -/
theorem cutLines_append (hlf : 10 ∉ b) : ∀ cur,
    cutLines cur (b ++ stream) = cutLines (cur ++ b) stream := by
  induction b with
  | nil => intro cur; rw [List.append_nil, List.nil_append]
  | cons c b ih =>
    intro cur
    have hc : ¬ (cur.getLast? = some 13 ∧ c = 10) := fun h => hlf (h.2 ▸ .head _)
    rw [List.cons_append, cutLines, if_neg hc, ih fun h => hlf (.tail _ h), List.append_assoc]
    rfl

/-- A line is cut behind its CR LF. -/
theorem cutLines_line (hlf : 10 ∉ b) :
    cutLines [] (b ++ [13, 10] ++ stream) =
      ((b ++ [13, 10]) :: (cutLines [] stream).1, (cutLines [] stream).2) := by
  have hcr : 10 ∉ b ++ [13] := by simp [hlf]
  rw [show b ++ [13, 10] ++ stream = (b ++ [13]) ++ 10 :: stream by simp, cutLines_append hcr,
    List.nil_append, cutLines, if_pos ⟨by simp, rfl⟩]
  simp

/-- Calls that hand over one line each leave a stream of these lines. -/
theorem cutLines_calls : ∀ {calls : List IrcCall}, (∀ call ∈ calls, IsLine call.head call.sent) →
    cutLines [] (calls.flatMap fun call => call.sent.bytes) =
      (calls.map fun call => call.sent.bytes, [])
  | [], _ => rfl
  | call :: calls, h => by
    obtain ⟨⟨rest, hnoEol, hsent⟩, -⟩ := h call (.head _)
    have hrest := cutLines_calls fun call' hcall' => h call' (.tail _ hcall')
    have hlf : 10 ∉ call.head.bytes ++ rest.bytes := hnoEol.2
    rw [List.flatMap_cons, List.map_cons, hsent, cutLines_line hlf, hrest]

/-- Every call of a list hands `_net_raws` one line, and the server sees these lines, if and only if
no line of the list takes more than 511 bytes. -/
theorem sendsLines_iff (calls : List IrcCall) :
    SendsLines calls ↔ ∀ call ∈ calls, call.lineLength ≤ 511 := by
  constructor
  · exact fun h call hcall => call.isLine_iff.1 (h.line call hcall)
  · intro h
    have hline : ∀ call ∈ calls, IsLine call.head call.sent :=
      fun call hcall => call.isLine_iff.2 (h call hcall)
    exact ⟨hline, cutLines_calls hline⟩

/-- The letter `a` some number of times. -/
def letterText (n : Nat) : LineText where
  text := ⟨List.replicate n 97, fun h => absurd (List.eq_of_mem_replicate h) (by decide)⟩
  noBreak := ⟨fun h => absurd (List.eq_of_mem_replicate h) (by decide),
    fun h => absurd (List.eq_of_mem_replicate h) (by decide)⟩

/-- A message of 499 letters to `#a` makes a line of 513 bytes. Its CR LF is cut off, and what the
server sees as one line ends behind the `JOIN` that follows. -/
theorem not_sendsLines :
    ¬ SendsLines [.message (ircFilter (CString.lit "#a")) (letterText 499),
        .join (ircFilter (CString.lit "#b"))] := by
  intro h
  have hle := (IrcCall.isLine_iff _).1 (h.line _ (.head _))
  have hletters : (letterText 499).text.length = 499 := List.length_replicate
  have hchan : (ircFilter (CString.lit "#a")).text.length = 2 := by decide
  have hprivmsg : (CString.lit "PRIVMSG ").length = 8 := by decide
  have hcolon : (CString.lit " :").length = 2 := by decide
  simp only [IrcCall.lineLength, IrcCall.head, IrcCall.tail, CString.length_append] at hle
  omega

end

end MinervaBot
