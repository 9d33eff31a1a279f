import MinervaBot.WebModules

/-!
# What a response can put into a line

`NoInjection` is what a handler owes the server of the bot: no CR or LF but the CR LF at the end of
a message. No module calls `irc_filter`, so whether it holds is up to the response. `FitsClean` says
when a text that stands behind `n` clean bytes of a message leaves no CR or LF in the 511 bytes that
are sent; `webLines_iff` says for each of the three handlers and every response when it holds.
-/

namespace MinervaBot

open Lib

/-- The bytes have no CR and no LF. -/
def CleanBytes (b : List UInt8) : Prop :=
  13 ∉ b ∧ 10 ∉ b

instance (b : List UInt8) : Decidable (CleanBytes b) :=
  inferInstanceAs (Decidable (_ ∧ _))

/-- There is no CR and no LF but perhaps a CR LF at the end. -/
def EndsClean (b : List UInt8) : Prop :=
  ∃ u, CleanBytes u ∧ (b = u ∨ b = u ++ [13, 10])

/-- The run is defined, and in no message that it sends is there a CR or LF but in the CR LF at its
end. -/
def NoInjection (r : Outcome Int × List WebCall) : Prop :=
  r.1 ≠ .undefined ∧ ∀ call ∈ r.2, ∀ sent ∈ call.sent, EndsClean sent.bytes

/-- The text `t` behind `n` bytes of a message: the part of it that fits into 511 bytes has no CR or
LF, and the message does not have 512 bytes with its CR LF, of which the LF would be cut off; or
that part ends in a CR LF of its own and has no other. -/
def FitsClean (n : Nat) (t : List UInt8) : Prop :=
  CleanBytes (t.take (511 - n)) ∧ n + t.length ≠ 510 ∨
    ∃ u, CleanBytes u ∧ n + u.length = 509 ∧ u ++ [13, 10] <+: t

/-- What stands behind the last `[`, or behind the first byte where there is none. -/
def behindBracket (b : List UInt8) : List UInt8 :=
  if 91 ∈ b then (b.reverse.takeWhile (· != 91)).reverse else b.drop 1

/-- The string that `bot_google` looks for the language in: it skips a byte behind the bracket. -/
def langStr (reply : CurlReply) : CString :=
  CString.ofBytes ((behindBracket reply.body).drop 1)

/-- For `bot_wolfram`: there is a body, and its bytes up to the first NUL fit behind the target and
the nick. -/
def WolframSafe (where' nick : LineText) (reply : CurlReply) : Prop :=
  reply.Delivered ∧
    FitsClean (12 + where'.text.length + nick.text.length) (CString.ofBytes reply.body).bytes

/-- For `bot_urban`: the text of the tokens from byte 24 on, up to its first NUL, fits behind the
target and the arguments. A shorter body is answered with a fixed text. -/
def UrbanSafe (where' args : LineText) (reply : CurlReply) : Prop :=
  if reply.body.length < 25 then where'.text.length ≠ 480
  else ∃ ts, Reads nMax 0 (reply.body.drop 24 ++ [0]) ts ∧
    FitsClean (14 + where'.text.length + args.text.length)
      (CString.ofBytes (renderedText ts)).bytes

/-- For `bot_google`: the text of the tokens from byte 4 on, up to its first NUL, fits behind the
target and the languages. The first language is one of the arguments, or stands in the response
behind the last bracket, up to a quote, and is then part of the text that is to fit; without a quote
the handler faults, and with nothing behind the bracket it leaves the block. -/
def GoogleSafe (where' args : LineText) (reply : CurlReply) : Prop :=
  args.text.length = 0 ∨
    if reply.body.length < 30 then where'.text.length ≠ 481
    else ∃ ts, Reads nMax 0 (reply.body.drop 4 ++ [0]) ts ∧
      match (googleArgs args.text).origLang with
      | some lang =>
        FitsClean (16 + where'.text.length + lang.length + (googleArgs args.text).destLang.length)
          (CString.ofBytes (renderedText ts)).bytes
      | none =>
        behindBracket reply.body ≠ [] ∧ ∀ i, (langStr reply).strchr 34 = some i →
          FitsClean (10 + where'.text.length)
            ((langStr reply).take i ++ CString.lit " to " ++ (googleArgs args.text).destLang ++
              CString.lit ": " ++ CString.ofBytes (renderedText ts)).bytes

/-! ## Lines -/

section
variable {b c p t : List UInt8}

/-- Two clean pieces are clean together. -/
@[simp] theorem cleanBytes_append : CleanBytes (b ++ c) ↔ CleanBytes b ∧ CleanBytes c := by
  simp only [CleanBytes, List.mem_append, not_or]
  exact and_and_and_comm

/-- The beginning of a clean text. -/
theorem CleanBytes.take (h : CleanBytes b) (n : Nat) : CleanBytes (b.take n) :=
  ⟨fun hmem => h.1 (List.mem_of_mem_take hmem), fun hmem => h.2 (List.mem_of_mem_take hmem)⟩

/-- The end of a clean text. -/
theorem CleanBytes.drop (h : CleanBytes b) (n : Nat) : CleanBytes (b.drop n) :=
  ⟨fun hmem => h.1 (List.mem_of_mem_drop hmem), fun hmem => h.2 (List.mem_of_mem_drop hmem)⟩

/-- Before a CR LF at the end there is no other. -/
theorem endsClean_append_crlf : EndsClean (b ++ [13, 10]) ↔ CleanBytes b := by
  constructor
  · rintro ⟨u, hu, heq | heq⟩
    · rw [← heq, cleanBytes_append] at hu
      exact hu.1
    · rwa [List.append_cancel_right heq]
  · exact fun h => ⟨b, h, .inr rfl⟩

/-- A CR at the end is not part of a CR LF. -/
theorem not_endsClean_cr : ¬ EndsClean (b ++ [13]) := by
  rintro ⟨u, hu, heq | heq⟩
  · rw [← heq, cleanBytes_append] at hu
    exact absurd hu.2 (by decide)
  · have hlast := congrArg List.getLast? heq
    simp at hlast

/-- Behind clean bytes a text ends clean if it is clean, or ends in its own CR LF. -/
theorem endsClean_append_iff (hp : CleanBytes p) :
    EndsClean (p ++ t) ↔ CleanBytes t ∨ ∃ u, CleanBytes u ∧ t = u ++ [13, 10] := by
  constructor
  · rintro ⟨u, hu, heq | heq⟩
    · rw [← heq, cleanBytes_append] at hu
      exact .inl hu.2
    · rcases List.append_eq_append_iff.1 heq with ⟨a, rfl, rfl⟩ | ⟨a, rfl, ha⟩
      · exact .inr ⟨a, (cleanBytes_append.1 hu).2, rfl⟩
      · rw [cleanBytes_append] at hp
        cases a with
        | nil => exact .inr ⟨[], by decide, ha.symm⟩
        | cons x a =>
          obtain rfl : x = 13 := (List.cons.inj ha).1.symm
          exact absurd (List.mem_cons_self) hp.2.1
  · rintro (ht | ⟨u, hu, rfl⟩)
    · exact ⟨p ++ t, cleanBytes_append.2 ⟨hp, ht⟩, .inl rfl⟩
    · exact ⟨p ++ u, cleanBytes_append.2 ⟨hp, hu⟩, .inr (List.append_assoc _ _ _).symm⟩

/-- A message of clean bytes and a text, with its CR LF and cut to 511 bytes. -/
theorem endsClean_cut_iff (hp : CleanBytes p) :
    EndsClean ((p ++ t ++ [13, 10]).take 511) ↔ FitsClean p.length t := by
  have hno : p.length + t.length ≤ 510 → ¬ ∃ u, CleanBytes u ∧ p.length + u.length = 509 ∧
      u ++ [13, 10] <+: t := by
    rintro hle ⟨u, -, hlen, hpre⟩
    have := hpre.length_le
    simp only [List.length_append, List.length_cons, List.length_nil] at this
    omega
  rcases Nat.lt_trichotomy (p.length + t.length) 510 with hlt | heq | hgt
  · rw [List.take_of_length_le (by simp; omega), endsClean_append_crlf, cleanBytes_append, FitsClean,
      or_iff_left (hno (by omega)), List.take_of_length_le (by omega)]
    exact ⟨fun h => ⟨h.2, by omega⟩, fun h => ⟨hp, h.1⟩⟩
  · rw [FitsClean, or_iff_left (hno (by omega)),
      show p ++ t ++ [13, 10] = p ++ t ++ [13] ++ [10] by simp, List.take_left' (by simp; omega)]
    exact iff_of_false not_endsClean_cr fun h => h.2 heq
  · have hcut : (p ++ t ++ [13, 10]).take 511 = p.take 511 ++ t.take (511 - p.length) := by
      rw [List.take_append_of_le_length (by simp; omega), List.take_append]
    rw [hcut, endsClean_append_iff (hp.take 511), FitsClean]
    refine or_congr ⟨fun h => ⟨h, by omega⟩, And.left⟩
      (exists_congr fun u => and_congr_right fun _ => ?_)
    constructor
    · intro h
      have hlen := congrArg List.length h
      simp only [List.length_take, List.length_append, List.length_cons, List.length_nil] at hlen
      exact ⟨by omega, h ▸ List.take_prefix _ _⟩
    · rintro ⟨hlen, hpre⟩
      rw [List.prefix_iff_eq_take.1 hpre]
      simp
      omega

/-- A clean text leaves a line clean unless it has 512 bytes. -/
theorem fitsClean_of_clean (ht : CleanBytes t) {n : Nat} : FitsClean n t ↔ n + t.length ≠ 510 := by
  constructor
  · rintro (⟨-, hne⟩ | ⟨u, -, -, hpre⟩)
    · exact hne
    · exact absurd (hpre.subset (by simp)) ht.1
  · exact fun hne => .inl ⟨ht.take _, hne⟩

end

/-- The message that `irc_message_va` sends of a text. -/
theorem bytes_ircMessageVa (chan text : CString) :
    (ircMessageVa chan text).bytes =
      ((CString.lit "PRIVMSG " ++ chan ++ CString.lit " :").bytes ++ text.bytes ++ [13, 10]).take
        511 := by
  have hcrlf : (CString.lit "\r\n").bytes = [13, 10] := by decide
  simp only [ircMessageVa, ircMessage, bytes_netRaw, CString.bytes_append, bytes_vsnprintf, hcrlf]
  exact take_append_take 511 _ _ _

/-- The start of a message to a target. -/
def messageHead (chan : LineText) : List UInt8 :=
  (CString.lit "PRIVMSG " ++ chan.text ++ CString.lit " :").bytes

/-- The head of a message is clean. -/
theorem cleanBytes_messageHead (chan : LineText) : CleanBytes (messageHead chan) := by
  simp only [messageHead, CString.bytes_append, cleanBytes_append]
  exact ⟨⟨by decide, chan.noBreak⟩, by decide⟩

/-- The length of the head of a message. -/
theorem length_messageHead (chan : LineText) :
    (messageHead chan).length = 10 + chan.text.length := by
  have h1 : (CString.lit "PRIVMSG ").bytes.length = 8 := by decide
  have h2 : (CString.lit " :").bytes.length = 2 := by decide
  simp only [messageHead, CString.bytes_append, List.length_append, h1, h2, CString.length]
  omega

/-- The run of a handler that sends one message of some clean text and another one. -/
theorem noInjection_msgva_iff {url p t : CString} {chan : LineText} (hp : CleanBytes p.bytes) :
    NoInjection (.returned 0, [.request url, .msgva chan.text (p ++ t)]) ↔
      FitsClean (10 + chan.text.length + p.length) t.bytes := by
  have hsent : (ircMessageVa chan.text (p ++ t)).bytes =
      (messageHead chan ++ p.bytes ++ t.bytes ++ [13, 10]).take 511 := by
    rw [bytes_ircMessageVa]
    simp [messageHead]
  have hclean : CleanBytes (messageHead chan ++ p.bytes) :=
    cleanBytes_append.2 ⟨cleanBytes_messageHead chan, hp⟩
  have hlen : (messageHead chan ++ p.bytes).length = 10 + chan.text.length + p.length := by
    rw [List.length_append, length_messageHead]
    rfl
  rw [← hlen, ← endsClean_cut_iff hclean, ← hsent]
  simp [NoInjection, WebCall.sent]

/-- The run of a handler that sends one message. -/
theorem noInjection_text_iff {url text : CString} {chan : LineText} :
    NoInjection (.returned 0, [.request url, .msgva chan.text text]) ↔
      FitsClean (10 + chan.text.length) text.bytes := by
  have hempty : CString.lit "" ++ text = text := CString.ext (by
    rw [CString.bytes_append, show (CString.lit "").bytes = [] by decide, List.nil_append])
  have hiff := @noInjection_msgva_iff url (CString.lit "") text chan (by decide)
  rwa [hempty] at hiff

/-- The run of a handler that sends one clean message. -/
theorem noInjection_clean_iff {url text : CString} {chan : LineText} (h : CleanBytes text.bytes) :
    NoInjection (.returned 0, [.request url, .msgva chan.text text]) ↔
      10 + chan.text.length + text.length ≠ 510 :=
  noInjection_text_iff.trans (fitsClean_of_clean h)

/-- A run that is undefined is no good. -/
theorem not_noInjection_undefined (calls : List WebCall) :
    ¬ NoInjection (.undefined, calls) :=
  fun h => h.1 rfl

/-! ## `bot_wolfram` -/

section
variable {α β : Type}

/-- A request, and what comes after it. -/
@[simp] theorem sendHttpRequest_bind (server : CString → CurlReply) (url : CString)
    (f : Option Buffer → Exec (List WebCall) β) (calls : List WebCall) :
    (sendHttpRequest server url >>= f) calls = f (server url).buffer (calls ++ [.request url]) :=
  rfl

/-- A call into the core, and what comes after it. -/
@[simp] theorem webCall_bind (call : WebCall) (f : Unit → Exec (List WebCall) β)
    (calls : List WebCall) : (webCall call >>= f) calls = f () (calls ++ [call]) :=
  rfl

/-- A value that is there, and what comes after it. -/
@[simp] theorem ofOption_some_bind (a : α) (f : α → Exec (List WebCall) β)
    (calls : List WebCall) : (Exec.ofOption (some a) >>= f) calls = f a calls :=
  rfl

/-- Nothing comes after what is undefined. -/
@[simp] theorem ofOption_none_bind (f : α → Exec (List WebCall) β) (calls : List WebCall) :
    ((Exec.ofOption none : Exec (List WebCall) α) >>= f) calls = (.undefined, calls) :=
  rfl

end

/-- The handlers' environment with one response. -/
def WebEnv.answering (env : WebEnv) (reply : CurlReply) : WebEnv :=
  { env with server := fun _ => reply }

section
variable {env : WebEnv} {reply : CurlReply} {buf : Buffer} {cmdname : CString}
  {who : CommandSender} {where' args nick : LineText}

/-- The text of a response, as far as the string in the block goes. -/
theorem cellsStr_buffer (h : reply.buffer = some buf) :
    reply.Delivered ∧ cellsStr buf.cells = some (CString.ofBytes reply.body) ∨
      ¬ reply.Delivered ∧ cellsStr buf.cells = none := by
  rcases reply.buffer_eq h with ⟨hdel, rfl⟩ | ⟨hdel, -, rfl⟩
  · refine .inl ⟨hdel, ?_⟩
    simp only [cellsStr, Buffer.cells, Buffer.ofBytes, Option.getD_some]
    rw [readStr_ofBytes _ [] (by simp only [List.length_append, List.length_map]; omega),
      Option.map_some, CString.ofBytes_bytes]
  · refine .inr ⟨hdel, ?_⟩
    cases reply.malloc <;> rfl

/-- What `bot_wolfram` sends is the response up to its first NUL. -/
theorem waHandleCmd_iff (h : reply.buffer = some buf) :
    NoInjection (waHandleCmd (env.answering reply) cmdname { who with nick := nick.text }
        where'.text args.text []) ↔ WolframSafe where' nick reply := by
  unfold WolframSafe
  simp only [waHandleCmd, WebEnv.answering, sendHttpRequest_bind, h]
  rcases cellsStr_buffer h with ⟨hdel, hstr⟩ | ⟨hdel, hstr⟩
  · have hprefix : CleanBytes (nick.text ++ CString.lit ": ").bytes :=
      cleanBytes_append.2 ⟨nick.noBreak, by decide⟩
    have hlen : (nick.text ++ CString.lit ": ").length = nick.text.length + 2 := by
      rw [CString.length_append, show (CString.lit ": ").length = 2 by decide]
    simp only [hstr, ofOption_some_bind, webCall_bind]
    refine (noInjection_msgva_iff hprefix).trans ?_
    rw [and_iff_right hdel, hlen, show 10 + where'.text.length + (nick.text.length + 2) =
      12 + where'.text.length + nick.text.length by omega]
  · simp only [hstr, ofOption_none_bind]
    exact iff_of_false (not_noInjection_undefined _) fun hcond => hdel hcond.1

/-! ## `bot_urban` -/

/-- The size of the buffer is that of the body. -/
theorem size_buffer (h : reply.buffer = some buf) : buf.size = reply.body.length := by
  rcases reply.buffer_eq h with ⟨-, rfl⟩ | ⟨-, hbody, rfl⟩
  · rfl
  · rw [hbody, List.length_nil]

/-- A buffer with bytes holds the body and a NUL. -/
theorem cells_buffer (h : reply.buffer = some buf) (hpos : 0 < buf.size) :
    buf.cells = (reply.body ++ [0]).map some := by
  rcases reply.buffer_eq h with ⟨-, rfl⟩ | ⟨-, -, rfl⟩
  · simp [Buffer.cells, Buffer.ofBytes]
  · exact absurd hpos (Nat.lt_irrefl 0)

/-- The cells from an index on. -/
theorem drop_cells (h : reply.buffer = some buf) {k : Nat} (hpos : 0 < buf.size) (hk : k ≤ buf.size) :
    buf.cells.drop k = (reply.body.drop k ++ [0]).map some := by
  rw [size_buffer h] at hk
  rw [cells_buffer h hpos, ← List.map_drop, List.drop_append_of_le_length hk]

/-- A run that unescapes a text and goes on with what comes out. -/
theorem noInjection_unescape_iff {b : List UInt8} {f : List UInt8 → Exec (List WebCall) Int}
    {calls : List WebCall} {good : List UInt8 → Prop}
    (hf : ∀ u, NoInjection (f u calls) ↔ good u) :
    NoInjection ((Exec.ofOption (unescapeLoop nMax [] [] (b.map some)) >>= f) calls) ↔
      ∃ ts, Reads nMax 0 b ts ∧ good (renderedText ts) := by
  cases hun : unescapeLoop nMax [] [] (b.map some) with
  | none =>
    rw [ofOption_none_bind]
    refine iff_of_false (not_noInjection_undefined _) ?_
    rintro ⟨ts, hts, -⟩
    rw [unescapeLoop_eq_some_iff.2 ⟨ts, hts, rfl⟩] at hun
    cases hun
  | some u =>
    rw [ofOption_some_bind, hf]
    constructor
    · intro hgood
      obtain ⟨ts, hts, rfl⟩ := unescapeLoop_eq_some_iff.1 hun
      exact ⟨ts, hts, hgood⟩
    · rintro ⟨ts, hts, hgood⟩
      rw [unescapeLoop_eq_some_iff.2 ⟨ts, hts, rfl⟩] at hun
      exact Option.some.inj hun ▸ hgood

/-- What `bot_urban` sends is the text of the tokens from byte 24 on, up to its first NUL. -/
theorem urbanHandleCmd_iff (h : reply.buffer = some buf) :
    NoInjection (urbanHandleCmd (env.answering reply) cmdname who where'.text args.text []) ↔
      UrbanSafe where' args reply := by
  unfold UrbanSafe
  simp only [urbanHandleCmd, WebEnv.answering, sendHttpRequest_bind, h]
  rw [← size_buffer h]
  split
  · next hsize =>
    refine (noInjection_clean_iff (by decide)).trans ?_
    rw [show (CString.lit "No definition found.").length = 20 by decide]
    omega
  · next hsize =>
    rw [drop_cells h (by omega) (by omega)]
    have hprefix : CleanBytes (CString.lit "\x02" ++ args.text ++ CString.lit "\x0f: ").bytes :=
      cleanBytes_append.2 ⟨cleanBytes_append.2 ⟨by decide, args.noBreak⟩, by decide⟩
    have hlen : (CString.lit "\x02" ++ args.text ++ CString.lit "\x0f: ").length =
        args.text.length + 4 := by
      rw [CString.length_append, CString.length_append,
        show (CString.lit "\x02").length = 1 by decide,
        show (CString.lit "\x0f: ").length = 3 by decide]
      omega
    refine @noInjection_unescape_iff _ _ _ (fun u =>
      FitsClean (14 + where'.text.length + args.text.length) (CString.ofBytes u).bytes) fun u => ?_
    refine (noInjection_msgva_iff hprefix).trans ?_
    rw [hlen, show 10 + where'.text.length + (args.text.length + 4) =
      14 + where'.text.length + args.text.length by omega]

end

/-! ## `bot_google` -/

/-- Behind a bracket at the end there is nothing. -/
theorem behindBracket_bracket (b : List UInt8) : behindBracket (b ++ [91]) = [] := by
  simp [behindBracket]

/-- A byte more behind the last bracket. -/
theorem behindBracket_snoc {b : List UInt8} (hb : b ≠ []) {c : UInt8} (hc : c ≠ 91) :
    behindBracket (b ++ [c]) = behindBracket b ++ [c] := by
  unfold behindBracket
  by_cases hmem : 91 ∈ b
  · rw [if_pos hmem, if_pos (List.mem_append_left _ hmem)]
    simp [hc]
  · have hnot : 91 ∉ b ++ [c] := by simpa [hmem] using hc.symm
    rw [if_neg hmem, if_neg hnot]
    exact List.drop_append_of_le_length (List.length_pos_iff.2 hb)

/-- The search from index `i` finds the place that `behindBracket` begins behind. -/
theorem findBracket_spec (b : List UInt8) (rest : List (Option UInt8)) : ∀ i, i < b.length →
    ∃ j, findBracket (b.map some ++ rest) i = some j ∧ j ≤ i ∧
      b.drop (j + 1) = behindBracket (b.take (i + 1)) ++ b.drop (i + 1) := by
  have hread : ∀ i (hi : i < b.length), (b.map some ++ rest)[i]?.join = some b[i] := by
    intro i hi
    rw [List.getElem?_append_left (by simpa using hi)]
    simp [hi]
  intro i
  induction i with
  | zero =>
    intro hi
    refine ⟨0, by rw [findBracket, hread 0 hi]; rfl, Nat.le_refl 0, ?_⟩
    obtain ⟨c, b', rfl⟩ := List.exists_cons_of_length_pos hi
    by_cases hc : 91 = c <;> simp [behindBracket, hc]
  | succ i ih =>
    intro hi
    obtain ⟨j, hfind, hj, hdrop⟩ := ih (by omega)
    have htake : b.take (i + 1 + 1) = b.take (i + 1) ++ [b[i + 1]] :=
      (List.take_append_getElem hi).symm
    have hback : b.drop (i + 1) = b[i + 1] :: b.drop (i + 1 + 1) := List.drop_eq_getElem_cons hi
    by_cases hc : b[i + 1] = 91
    · refine ⟨i + 1, ?_, Nat.le_refl _, ?_⟩
      · rw [findBracket, hread (i + 1) hi]
        simp [hc]
      · rw [htake, hc, behindBracket_bracket, List.nil_append]
    · refine ⟨j, ?_, by omega, ?_⟩
      · rw [findBracket, hread (i + 1) hi]
        simp [hc, hfind]
      · have hne : b.take (i + 1) ≠ [] :=
          List.ne_nil_of_length_pos (by rw [List.length_take]; omega)
        rw [htake, behindBracket_snoc hne hc, hdrop, hback]
        simp

section
variable {env : WebEnv} {reply : CurlReply} {buf : Buffer} {cmdname : CString}
  {who : CommandSender} {where' args : LineText} {calls : List WebCall}

/-- The first quote of a string, byte by byte. -/
theorem strchr_ofBytes_cons (c : UInt8) (r : List UInt8) :
    (CString.ofBytes (c :: r)).strchr 34 =
      if c = 34 then some 0
      else if c = 0 then none
      else ((CString.ofBytes r).strchr 34).map (· + 1) := by
  have hbytes : (CString.ofBytes (c :: r)).bytes =
      if c = 0 then [] else c :: (CString.ofBytes r).bytes := by
    simp only [CString.ofBytes, List.takeWhile_cons]
    by_cases hc : c = 0 <;> simp [hc]
  rw [CString.strchr, hbytes]
  by_cases h34 : c = 34
  · subst h34
    rfl
  · rw [if_neg h34]
    by_cases h0 : c = 0
    · rw [if_pos h0, if_pos h0, List.findIdx?_nil]
    · rw [if_neg h0, if_neg h0, List.findIdx?_cons]
      simp [h34, CString.strchr]

/-- The string that is cut at its first quote. -/
theorem cutAtQuote_eq (r : List UInt8) : cutAtQuote ((r ++ [0]).map some) calls =
    match (CString.ofBytes r).strchr 34 with
    | some i => (.returned (r.take i), calls)
    | none => (.segv, calls) := by
  induction r with
  | nil => rfl
  | cons c r ih =>
    rw [strchr_ofBytes_cons, List.cons_append, List.map_cons, cutAtQuote]
    by_cases h34 : c = 34
    · simp only [if_pos h34]
      rfl
    · by_cases h0 : c = 0
      · simp only [if_neg h34, if_pos h0]
        rfl
      · simp only [if_neg h34, if_neg h0]
        cases hquote : (CString.ofBytes r).strchr 34 with
        | none =>
          rw [hquote] at ih
          exact Exec.bind_segv ih _
        | some i =>
          rw [hquote] at ih
          exact Exec.bind_returned ih _

/-- The first bytes of a string, read as a string. -/
theorem ofBytes_take {r : List UInt8} {i : Nat} (h : (CString.ofBytes r).strchr 34 = some i) :
    CString.ofBytes (r.take i) = (CString.ofBytes r).take i := by
  have hprefix : (CString.ofBytes r).bytes <+: r := List.takeWhile_prefix _
  have hlt : i < (CString.ofBytes r).bytes.length := CString.lt_length_of_strchr h
  have htake : r.take i = ((CString.ofBytes r).take i).bytes := by
    obtain ⟨tail, htail⟩ := hprefix
    conv_lhs => rw [← htail]
    rw [CString.bytes_take, List.take_append_of_le_length hlt.le]
  rw [htake, CString.ofBytes_bytes]

/-- The language in a response. -/
theorem responseLang_eq (h : reply.buffer = some buf) (hpos : 0 < buf.size) :
    responseLang buf calls =
      if behindBracket reply.body = [] then (.undefined, calls)
      else match (langStr reply).strchr 34 with
        | some i => (.returned ((langStr reply).take i), calls)
        | none => (.segv, calls) := by
  have hsize := size_buffer h
  obtain ⟨j, hfind, hj, hdrop⟩ :=
    findBracket_spec reply.body [some 0] (buf.size - 1) (by omega)
  have hcells : buf.cells = reply.body.map some ++ [some 0] := by
    rw [cells_buffer h hpos, List.map_append]
    rfl
  have hall : buf.size - 1 + 1 = reply.body.length := by omega
  rw [hall, List.take_length, List.drop_length, List.append_nil] at hdrop
  have hlang : responseLang buf calls =
      (cutAtQuote (buf.cells.drop (j + 2)) >>= fun lang => pure (CString.ofBytes lang)) calls := by
    rw [responseLang, hcells, hfind]
    rfl
  rw [hlang]
  by_cases hempty : behindBracket reply.body = []
  · have hnil : buf.cells.drop (j + 2) = [] := by
      rw [hempty] at hdrop
      have hlen := List.drop_eq_nil_iff.1 hdrop
      refine List.drop_eq_nil_iff.2 ?_
      rw [hcells, List.length_append, List.length_map, List.length_singleton]
      omega
    rw [if_pos hempty, hnil]
    rfl
  · rw [if_neg hempty]
    have hlt : j + 1 < reply.body.length := by
      rw [← hdrop] at hempty
      exact Nat.lt_of_not_le fun hle => hempty (List.drop_eq_nil_iff.2 hle)
    have hrest : buf.cells.drop (j + 2) = ((behindBracket reply.body).drop 1 ++ [0]).map some := by
      rw [drop_cells h hpos (by omega), ← hdrop, List.drop_drop]
    rw [hrest, langStr]
    have hcut := @cutAtQuote_eq calls ((behindBracket reply.body).drop 1)
    cases hquote : (CString.ofBytes ((behindBracket reply.body).drop 1)).strchr 34 with
    | none =>
      rw [hquote] at hcut
      exact Exec.bind_segv hcut _
    | some i =>
      rw [hquote] at hcut
      rw [Exec.bind_returned hcut, ofBytes_take hquote]
      rfl

/-- The languages in clean arguments are clean. -/
theorem googleArgs_clean {a : CString} (h : CleanBytes a.bytes) :
    (∀ lang ∈ (googleArgs a).origLang, CleanBytes lang.bytes) ∧
      CleanBytes (googleArgs a).destLang.bytes := by
  have hen : CleanBytes (CString.lit "en").bytes := by decide
  unfold googleArgs
  simp only
  split
  · split
    · exact ⟨by simp, h.take 2⟩
    · split
      · refine ⟨fun lang hlang => ?_, (h.drop 3).take 2⟩
        rw [← Option.mem_some_iff.1 hlang]
        exact h.take 2
      · exact ⟨by simp, hen⟩
  · exact ⟨by simp, hen⟩

/-- The message of `bot_google` with a language from the arguments. -/
theorem noInjection_language_iff {url lang dest t : CString} (hlang : CleanBytes lang.bytes)
    (hdest : CleanBytes dest.bytes) :
    NoInjection (.returned 0, [.request url, .msgva where'.text
        (lang ++ CString.lit " to " ++ dest ++ CString.lit ": " ++ t)]) ↔
      FitsClean (16 + where'.text.length + lang.length + dest.length) t.bytes := by
  have hprefix : CleanBytes (lang ++ CString.lit " to " ++ dest ++ CString.lit ": ").bytes :=
    cleanBytes_append.2 ⟨cleanBytes_append.2 ⟨cleanBytes_append.2
      ⟨hlang, by decide⟩, hdest⟩, by decide⟩
  have hlen : (lang ++ CString.lit " to " ++ dest ++ CString.lit ": ").length =
      lang.length + dest.length + 6 := by
    simp only [CString.length_append, show (CString.lit " to ").length = 4 by decide,
      show (CString.lit ": ").length = 2 by decide]
    omega
  refine (noInjection_msgva_iff hprefix).trans ?_
  rw [hlen, show 10 + where'.text.length + (lang.length + dest.length + 6) =
    16 + where'.text.length + lang.length + dest.length by omega]

/-- A run that takes the language from the response and goes on with it. -/
theorem noInjection_responseLang_iff {f : CString → Exec (List WebCall) Int}
    (h : reply.buffer = some buf) (hpos : 0 < buf.size) (hcalls : ∀ call ∈ calls, call.sent = none) :
    NoInjection ((responseLang buf >>= f) calls) ↔
      behindBracket reply.body ≠ [] ∧ ∀ i, (langStr reply).strchr 34 = some i →
        NoInjection (f ((langStr reply).take i) calls) := by
  have hlang := @responseLang_eq reply buf calls h hpos
  by_cases hempty : behindBracket reply.body = []
  · rw [if_pos hempty] at hlang
    rw [Exec.bind_undefined hlang]
    exact iff_of_false (not_noInjection_undefined _) fun hcond => hcond.1 hempty
  · rw [if_neg hempty] at hlang
    rw [and_iff_right hempty]
    cases hquote : (langStr reply).strchr 34 with
    | none =>
      rw [hquote] at hlang
      rw [Exec.bind_segv hlang]
      refine iff_of_true ⟨by simp, fun call hcall sent hsent => ?_⟩ (by simp)
      rw [hcalls call hcall] at hsent
      cases hsent
    | some i =>
      rw [hquote] at hlang
      rw [Exec.bind_returned hlang]
      refine ⟨fun hgood j hj => ?_, fun hcond => hcond i rfl⟩
      cases hj
      exact hgood

/-- What `bot_google` sends is the language, from the arguments or from the response, and the text
of the tokens from byte 4 on, up to its first NUL. -/
theorem googleHandleCmd_iff (h : reply.buffer = some buf) :
    NoInjection (googleHandleCmd (env.answering reply) cmdname who where'.text args.text []) ↔
      GoogleSafe where' args reply := by
  unfold GoogleSafe
  rw [googleHandleCmd]
  by_cases hargs : args.text.length = 0
  · rw [if_pos hargs]
    exact iff_of_true ⟨by simp, by simp⟩ (.inl hargs)
  · rw [if_neg hargs, or_iff_right hargs]
    simp only [WebEnv.answering, sendHttpRequest_bind, h]
    rw [← size_buffer h]
    split
    · next hsize =>
      refine (noInjection_clean_iff (by decide)).trans ?_
      rw [show (CString.lit "Translation failed.").length = 19 by decide]
      omega
    · next hsize =>
      rw [drop_cells h (by omega) (by omega)]
      obtain ⟨hlang, hdest⟩ := googleArgs_clean args.noBreak
      refine @noInjection_unescape_iff _ _ _ (fun u =>
        match (googleArgs args.text).origLang with
        | some lang =>
          FitsClean (16 + where'.text.length + lang.length + (googleArgs args.text).destLang.length)
            (CString.ofBytes u).bytes
        | none =>
          behindBracket reply.body ≠ [] ∧ ∀ i, (langStr reply).strchr 34 = some i →
            FitsClean (10 + where'.text.length)
              ((langStr reply).take i ++ CString.lit " to " ++ (googleArgs args.text).destLang ++
                CString.lit ": " ++ CString.ofBytes u).bytes) fun u => ?_
      cases horig : (googleArgs args.text).origLang with
      | some lang => exact noInjection_language_iff (hlang lang horig) hdest
      | none =>
        refine (noInjection_responseLang_iff h (by omega) fun call hcall => ?_).trans
          (and_congr_right fun _ => forall₂_congr fun i _ => noInjection_text_iff)
        rw [List.mem_singleton.1 hcall]
        rfl

end

/-- For every response of a request that succeeds, and every target, nick and arguments without CR
and LF, each of the handlers keeps CR and LF out of its message exactly under its condition. -/
theorem webLines_iff (env : WebEnv) (reply : CurlReply) (hok : reply.buffer.isSome)
    (cmdname : CString) (who : CommandSender) (where' nick args : LineText) :
    (NoInjection (waHandleCmd (env.answering reply) cmdname { who with nick := nick.text }
        where'.text args.text []) ↔ WolframSafe where' nick reply) ∧
    (NoInjection (urbanHandleCmd (env.answering reply) cmdname who where'.text args.text []) ↔
      UrbanSafe where' args reply) ∧
    (NoInjection (googleHandleCmd (env.answering reply) cmdname who where'.text args.text []) ↔
      GoogleSafe where' args reply) := by
  obtain ⟨buf, hbuf⟩ := Option.isSome_iff_exists.1 hok
  exact ⟨waHandleCmd_iff hbuf, urbanHandleCmd_iff hbuf, googleHandleCmd_iff hbuf⟩

/-- A successful response with its body in one chunk. -/
def oneChunk (body : CString) : CurlReply where
  malloc := true
  chunks := [⟨body.bytes, true⟩]
  ok := true

/-- `bot_wolfram` sends the response `42` in one line. -/
theorem webLines_iff_answer :
    NoInjection (waHandleCmd
      (WebEnv.answering ⟨id, CString.lit "key", fun _ => oneChunk (CString.lit "")⟩
        (oneChunk (CString.lit "42"))) (CString.lit "wa")
      ⟨CString.lit "n", none, none, 0⟩ (CString.lit "#c") (CString.lit "6 times 7") []) :=
  (webLines_iff ⟨id, CString.lit "key", fun _ => oneChunk (CString.lit "")⟩
    (oneChunk (CString.lit "42")) (by decide) (CString.lit "wa") ⟨CString.lit "", none, none, 0⟩
    ⟨CString.lit "#c", by decide⟩ ⟨CString.lit "n", by decide⟩
    ⟨CString.lit "6 times 7", by decide⟩).1.2
    ⟨⟨⟨(CString.lit "42").bytes, true⟩, .head _, rfl⟩, .inl (by decide)⟩

/-- The response `42`, CR LF, `QUIT` makes `bot_wolfram` send a second line. -/
theorem not_webLines_quit :
    (oneChunk (CString.lit "42\r\nQUIT")).buffer.isSome ∧
    ¬ NoInjection (waHandleCmd
      (WebEnv.answering ⟨id, CString.lit "key", fun _ => oneChunk (CString.lit "")⟩
        (oneChunk (CString.lit "42\r\nQUIT"))) (CString.lit "wa")
      ⟨CString.lit "n", none, none, 0⟩ (CString.lit "#c") (CString.lit "6 times 7") []) := by
  refine ⟨by decide, fun h => ?_⟩
  have hline :=
    h.2 (.msgva (CString.lit "#c") (CString.lit "n: 42\r\nQUIT")) (by decide +kernel) _ rfl
  obtain ⟨u, hu, heq | heq⟩ := hline
  · rw [← heq] at hu
    exact absurd hu (by decide +kernel)
  · have hfront : u = ((ircMessageVa (CString.lit "#c")
        (CString.lit "n: 42\r\nQUIT")).bytes.dropLast).dropLast := by
      rw [heq]
      simp
    rw [hfront] at hu
    exact absurd hu (by decide +kernel)

end MinervaBot
