import MinervaBot.Cryptocurrency
import MinervaBot.Lib.MemStr

/-!
# The report of `bot_geoip`

The handler goes through the tokens of a response in pairs, a name and a value, and appends a text
for each pair to `url`. It takes the token behind a name to be its value, also where there is none,
and bounds each piece that it appends, but not their sum. `geoipReport_inBounds_iff` says when this
stays inside the tokens that `jsmn_parse` returned and the 512 bytes of `url`.
-/

namespace MinervaBot

open Lib

/-- `url`, with the indices of `t` that have been read and the indices of `url` that have been
written. -/
structure GeoipState where
  url : CString
  tokenReads : List Nat
  urlWrites : List Nat

/-- The state after `url[0] = '\0'`. -/
def GeoipState.init : GeoipState where
  url := CString.ofBytes []
  tokenReads := []
  urlWrites := [0]

/-- The string at `memory + start`, as far as it stands before `end`. -/
def tokenStr (memory : Mem) (tok : JsmnTok) : CString :=
  CString.ofBytes (memory.slice tok.start tok.stop)

/-- `t[i].end-t[i].start`. -/
def JsmnTok.len (tok : JsmnTok) : Nat :=
  (tok.stop - tok.start).toNat

/-- `!strncmp(s, memory + start, end-start)`: the first `end-start` bytes of both strings are the
same. -/
def strncmpTok (s : CString) (memory : Mem) (tok : JsmnTok) : Prop :=
  s.bytes.take tok.len = (tokenStr memory tok).bytes

instance (s : CString) (memory : Mem) (tok : JsmnTok) : Decidable (strncmpTok s memory tok) :=
  inferInstanceAs (Decidable (_ = _))

namespace GeoipState

/-- `strncat(url, src, n)`. -/
def strncat (src : CString) (n : Nat) (s : GeoipState) : GeoipState :=
  { s with
    url := s.url ++ src.take n
    urlWrites := s.urlWrites ++ List.range' s.url.length ((src.take n).length + 1) }

/-- A read of `t[i]`. -/
def read (i : Nat) (s : GeoipState) : GeoipState :=
  { s with tokenReads := s.tokenReads ++ [i] }

/-- The label for a name. A name of its own is appended while its first byte has `'a' - 'A'` taken
off. -/
def label (memory : Mem) (name : JsmnTok) (s : GeoipState) : GeoipState :=
  if strncmpTok (CString.lit "region") memory name ∨
      strncmpTok (CString.lit "country") memory name then s
  else if strncmpTok (CString.lit "city") memory name then
    s.strncat (CString.lit "\x02Location\x0f: ") 13
  else if strncmpTok (CString.lit "loc") memory name then
    s.strncat (CString.lit "\x02Coordinates\x0f: ") 16
  else if strncmpTok (CString.lit "org") memory name then
    s.strncat (CString.lit "\x02ISP\x0f: ") 8
  else if strncmpTok (CString.lit "ip") memory name then
    s.strncat (CString.lit "\x02IP\x0f: ") 7
  else
    let upper := memory.write name.start (memory name.start - 32)
    ((s.strncat (CString.lit "\x02") 2).strncat (tokenStr upper name) name.len).strncat
      (CString.lit "\x0f: ") 4

/-- The value. -/
def value (memory : Mem) (value : JsmnTok) (s : GeoipState) : GeoipState :=
  if value.stop = value.start then s.strncat (CString.lit "[unknown]") 10
  else s.strncat (tokenStr memory value) value.len

/-- The flag of a country. -/
def flag (memory : Mem) (name value : JsmnTok) (s : GeoipState) : GeoipState :=
  if strncmpTok (CString.lit "country") memory name then
    let ipBuf : List UInt8 := [32, 0xf0, 0x9f, 0x87, 0xa6 + memory value.start - 65,
      0xf0, 0x9f, 0x87, 0xa6 + memory (value.start + 1) - 65, 0]
    s.strncat (CString.ofBytes ipBuf) 10
  else s

/-- The separator, `i` being the index of the name. -/
def separator (r i : Nat) (s : GeoipState) : GeoipState :=
  if i + 1 < r - 1 then s.strncat (CString.lit ", ") 3 else s

end GeoipState

/-- `t[i]`; undefined for an element that is not set. -/
def geoipToken (t : Nat → Option JsmnTok) (i : Nat) : Exec GeoipState JsmnTok := do
  Exec.modify (·.read i)
  Exec.ofOption (t i)

/-- A pass of the loop of `handle_cmd`. -/
def geoipPass (memory : Mem) (r : Nat) (t : Nat → Option JsmnTok) (i : Nat) :
    Exec GeoipState Unit := do
  let name ← geoipToken t i
  Exec.modify (·.label memory name)
  -- `i + 1` may be `r`
  let value ← geoipToken t (i + 1)
  Exec.modify (·.value memory value)
  Exec.modify (·.flag memory name value)
  Exec.modify (·.separator r i)

/-- The loop of `handle_cmd` from index `i` on, with `todo` indices below `r` to go. -/
def geoipLoop (memory : Mem) (r : Nat) (t : Nat → Option JsmnTok) :
    (todo i : Nat) → Exec GeoipState Unit
  | 0, _ => pure ()
  | 1, i => geoipPass memory r t i
  | todo + 2, i => do
    geoipPass memory r t i
    geoipLoop memory r t todo (i + 2)

/-- `handle_cmd` of `bot_geoip` from the result of `jsmn_parse` on: the text that it sends, `none`
where it returns `1`. -/
def geoipReport (memory : Mem) (r : Int) (t : Nat → Option JsmnTok) :
    Exec GeoipState (Option CString) := do
  if r < 0 then
    return none
  if r < 1 then
    return none
  let first ← geoipToken t 0
  if first.isObject then
    geoipLoop memory r.toNat t (r.toNat - 1) 1
    let s ← Exec.get
    return some s.url
  else return none

/-! ## The text for the members -/

/-- What `jsmn_parse` returns for a response of `size` bytes that is a JSON object: at most 128
tokens, each with its range in the response, which has no NUL. -/
structure JsmnParsed (memory : Mem) (size : Nat) (toks : List JsmnTok) : Prop where
  length_le : toks.length ≤ 128
  object : ∃ first rest, toks = first :: rest ∧ first.isObject = true
  bounds : ∀ tok ∈ toks, 0 ≤ tok.start ∧ tok.start ≤ tok.stop ∧ tok.stop ≤ size
  noNul : ∀ n < size, memory (n : Nat) ≠ 0

/-- The length of what stands before the value. The words are compared as far as the name goes, and
a name that starts with a space is cut off before it. -/
def labelLength (name : List UInt8) : Nat :=
  if name <+: (CString.lit "region").bytes ∨ name <+: (CString.lit "country").bytes then 0
  else if name <+: (CString.lit "city").bytes then 12
  else if name <+: (CString.lit "loc").bytes then 15
  else if name <+: (CString.lit "org").bytes then 7
  else if name <+: (CString.lit "ip").bytes then 6
  else if name.head? = some 32 then 4
  else 4 + name.length

/-- The length of the flag, `c` and `d` being the first two bytes of the value. -/
def flagLength (name : List UInt8) (c d : UInt8) : Nat :=
  if name <+: (CString.lit "country").bytes then
    if c = 0x9b then 4 else if d = 0x9b then 8 else 9
  else 0

/-- The length of the text for a name and a value. -/
def memberLength (memory : Mem) (name value : JsmnTok) : Nat :=
  let text := memory.slice name.start name.stop
  labelLength text + (if value.stop = value.start then 9 else value.len) +
    flagLength text (memory value.start) (memory (value.start + 1))

/-- The length of the text for tokens taken in pairs, with two bytes between two pairs. -/
def membersLength (memory : Mem) : List JsmnTok → Nat
  | name :: value :: rest =>
    memberLength memory name value + (if rest = [] then 0 else 2) + membersLength memory rest
  | _ => 0

/-- Every token read is one of the `r` that were returned, and every index of `url` written is one
of the 512. -/
def GeoipState.InBounds (r : Nat) (s : GeoipState) : Prop :=
  (∀ i ∈ s.tokenReads, i < r) ∧ ∀ i ∈ s.urlWrites, i < 512

/-! ## The pieces -/

/-- A token with its range in a text of `size` bytes without NUL. -/
structure JsmnTok.InText (memory : Mem) (size : Nat) (tok : JsmnTok) : Prop where
  start : 0 ≤ tok.start
  stop : tok.start ≤ tok.stop
  stop_le : tok.stop ≤ size
  noNul : ∀ i : Int, 0 ≤ i → i < size → memory i ≠ 0

section
variable {memory : Mem} {size : Nat} {tok : JsmnTok} {s : GeoipState}

/-- A token lies in the text. -/
theorem JsmnParsed.inText {toks : List JsmnTok} (h : JsmnParsed memory size toks) (htok : tok ∈ toks) :
    tok.InText memory size := by
  obtain ⟨hstart, hstop, hle⟩ := h.bounds tok htok
  refine ⟨hstart, hstop, hle, fun i h0 hi => ?_⟩
  have hbyte := h.noNul i.toNat (by omega)
  rwa [Int.toNat_of_nonneg h0] at hbyte

/-- The string at a token is its text. -/
theorem JsmnTok.InText.bytes_tokenStr (h : tok.InText memory size) :
    (tokenStr memory tok).bytes = memory.slice tok.start tok.stop := by
  refine CString.bytes_ofBytes fun hmem => ?_
  obtain ⟨i, hi, h0⟩ := List.mem_map.1 hmem
  rw [List.mem_range] at hi
  have hstart := h.start
  have hsize := h.stop_le
  exact h.noNul _ (by omega) (by omega) h0

/-- A word is taken for the text of a token if this is a prefix of it. -/
theorem JsmnTok.InText.strncmpTok_iff (h : tok.InText memory size) (word : CString) :
    strncmpTok word memory tok ↔ memory.slice tok.start tok.stop <+: word.bytes := by
  rw [strncmpTok, h.bytes_tokenStr, List.prefix_iff_eq_take, Mem.length_slice]
  exact eq_comm

/-- A piece that is not longer than its bound is appended whole. -/
theorem GeoipState.length_strncat {src : CString} {n : Nat} (hn : src.length ≤ n) :
    (s.strncat src n).url.length = s.url.length + src.length := by
  simp only [GeoipState.strncat, CString.length_append, CString.length_take, Nat.min_eq_right hn]

/-- The string at a token has the length of its text. -/
theorem JsmnTok.InText.length_tokenStr (h : tok.InText memory size) :
    (tokenStr memory tok).length = tok.len := by
  rw [CString.length, h.bytes_tokenStr, Mem.length_slice, JsmnTok.len]

/-- A name of its own, with its first byte changed: a space becomes a NUL. -/
theorem JsmnTok.InText.length_upper (h : tok.InText memory size) (hne : tok.start < tok.stop) :
    (tokenStr (memory.write tok.start (memory tok.start - 32)) tok).length =
      if (memory.slice tok.start tok.stop).head? = some 32 then 0 else tok.len := by
  have hrest : 0 ∉ memory.slice (tok.start + 1) tok.stop := by
    intro hmem
    obtain ⟨i, hi, h0⟩ := List.mem_map.1 hmem
    rw [List.mem_range] at hi
    have hstart := h.start
    have hstop := h.stop_le
    exact h.noNul _ (by omega) (by omega) h0
  have hsub : ∀ c : UInt8, c - 32 = 0 ↔ c = 32 := forall_byte (by decide +kernel)
  rw [tokenStr, Mem.slice_cons _ hne, Mem.slice_cons _ hne, Mem.write_same,
    Mem.slice_write _ _ (by omega), List.head?_cons]
  split
  · next hspace =>
    rw [(hsub _).2 (Option.some.inj hspace)]
    rfl
  · next hother =>
    have hbytes : 0 ∉ (memory tok.start - 32) :: memory.slice (tok.start + 1) tok.stop := by
      rw [List.mem_cons, not_or]
      exact ⟨fun h0 => hother (congrArg some ((hsub _).1 h0.symm)), hrest⟩
    rw [CString.length, CString.bytes_ofBytes hbytes, List.length_cons, Mem.length_slice,
      JsmnTok.len]
    omega

/-- The label of a name of its own. -/
theorem GeoipState.length_upper (h : tok.InText memory size) (hne : tok.start < tok.stop) :
    let upper := memory.write tok.start (memory tok.start - 32)
    (((s.strncat (CString.lit "\x02") 2).strncat (tokenStr upper tok) tok.len).strncat
        (CString.lit "\x0f: ") 4).url.length =
      s.url.length + if (memory.slice tok.start tok.stop).head? = some 32 then 4
        else 4 + (memory.slice tok.start tok.stop).length := by
  intro upper
  have hupper := h.length_upper hne
  have hle : (tokenStr upper tok).length ≤ tok.len := by
    rw [hupper]
    split
    · exact Nat.zero_le _
    · exact Nat.le_refl _
  rw [length_strncat (by decide), length_strncat hle, length_strncat (by decide), hupper,
    Mem.length_slice, ← JsmnTok.len, show (CString.lit "\x02").length = 1 by decide,
    show (CString.lit "\x0f: ").length = 3 by decide]
  split <;> omega

/-- The label. -/
theorem GeoipState.length_label (h : tok.InText memory size) :
    (s.label memory tok).url.length =
      s.url.length + labelLength (memory.slice tok.start tok.stop) := by
  unfold label labelLength
  simp only [h.strncmpTok_iff]
  split
  · rfl
  next hregion =>
  split
  · exact length_strncat (by decide)
  split
  · exact length_strncat (by decide)
  split
  · exact length_strncat (by decide)
  split
  · exact length_strncat (by decide)
  refine length_upper h (Int.lt_of_not_ge fun hle => hregion (.inl ?_))
  have hempty : memory.slice tok.start tok.stop = [] := by
    rw [← List.length_eq_zero_iff, Mem.length_slice]
    omega
  rw [hempty]
  exact List.nil_prefix

/-- The value. -/
theorem GeoipState.length_value (h : tok.InText memory size) :
    (s.value memory tok).url.length =
      s.url.length + if tok.stop = tok.start then 9 else tok.len := by
  unfold value
  split
  · exact length_strncat (by decide)
  · rw [length_strncat h.length_tokenStr.le, h.length_tokenStr]

/-- The flag in `ip_buf` ends at its first NUL, which may be one of its letters. -/
theorem length_ipBuf (c d : UInt8) :
    (CString.ofBytes [32, 0xf0, 0x9f, 0x87, 0xa6 + c - 65, 0xf0, 0x9f, 0x87, 0xa6 + d - 65,
      0]).length = if c = 0x9b then 4 else if d = 0x9b then 8 else 9 := by
  have hletter : ∀ c : UInt8, 0xa6 + c - 65 = 0 ↔ c = 0x9b := forall_byte (by decide +kernel)
  have hc := hletter c
  have hd := hletter d
  generalize 0xa6 + c - 65 = x at hc
  generalize 0xa6 + d - 65 = y at hd
  simp only [← hc, ← hd, CString.length, CString.ofBytes]
  by_cases hx : x = 0
  · simp [hx]
  · by_cases hy : y = 0
    · simp [hx, hy]
    · simp [hx, hy]

/-- The flag. -/
theorem GeoipState.length_flag (h : tok.InText memory size) (value : JsmnTok) :
    (s.flag memory tok value).url.length =
      s.url.length + flagLength (memory.slice tok.start tok.stop) (memory value.start)
        (memory (value.start + 1)) := by
  unfold flag flagLength
  simp only [h.strncmpTok_iff]
  split
  · have hlen := length_ipBuf (memory value.start) (memory (value.start + 1))
    rw [length_strncat, hlen]
    rw [hlen]
    split_ifs <;> decide
  · rfl

/-! ## The indices of `url` -/

/-- The terminator of `url` has been written, and nothing behind it. -/
def GeoipState.Ends (s : GeoipState) : Prop :=
  s.url.length ∈ s.urlWrites ∧ ∀ i ∈ s.urlWrites, i ≤ s.url.length

/-- An append keeps a terminator. -/
theorem GeoipState.Ends.strncat (h : s.Ends) (src : CString) (n : Nat) : (s.strncat src n).Ends := by
  simp only [Ends, GeoipState.strncat, CString.length_append, List.mem_append, List.mem_range'_1]
  refine ⟨.inr (by omega), fun i hi => ?_⟩
  rcases hi with hi | hi
  · exact (h.2 i hi).trans (Nat.le_add_right _ _)
  · omega

/-- The indices written are inside if the text and its terminator fit. -/
theorem GeoipState.Ends.writes_iff (h : s.Ends) :
    (∀ i ∈ s.urlWrites, i < 512) ↔ s.url.length ≤ 511 := by
  constructor
  · exact fun hall => Nat.le_of_lt_succ (hall _ h.1)
  · exact fun hlen i hi => Nat.lt_succ_of_le ((h.2 i hi).trans hlen)

/-- A pass appends pieces, and no more. -/
theorem GeoipState.Ends.label (h : s.Ends) (name : JsmnTok) : (s.label memory name).Ends := by
  unfold GeoipState.label
  split
  · exact h
  split
  · exact h.strncat _ _
  split
  · exact h.strncat _ _
  split
  · exact h.strncat _ _
  split
  · exact h.strncat _ _
  · exact ((h.strncat _ _).strncat _ _).strncat _ _

/-- The append of a value keeps a terminator. -/
theorem GeoipState.Ends.value (h : s.Ends) (value : JsmnTok) : (s.value memory value).Ends := by
  unfold GeoipState.value
  split
  · exact h.strncat _ _
  · exact h.strncat _ _

/-- The append of a flag keeps a terminator. -/
theorem GeoipState.Ends.flag (h : s.Ends) (name value : JsmnTok) :
    (s.flag memory name value).Ends := by
  unfold GeoipState.flag
  split
  · exact h.strncat _ _
  · exact h

/-- The append of a separator keeps a terminator. -/
theorem GeoipState.Ends.separator (h : s.Ends) (r i : Nat) : (s.separator r i).Ends := by
  unfold GeoipState.separator
  split
  · exact h.strncat _ _
  · exact h

/-! ## The loop -/

/-- What a pass does for a name and a value. -/
def GeoipState.member (memory : Mem) (r i : Nat) (name value : JsmnTok) (s : GeoipState) :
    GeoipState :=
  (((((s.read i).label memory name).read (i + 1)).value memory value).flag memory name
    value).separator r i

variable {r i : Nat} {t : Nat → Option JsmnTok} {name value : JsmnTok}

/-- A token that is set. -/
theorem geoipToken_some (h : t i = some tok) (s : GeoipState) :
    geoipToken t i s = (.returned tok, s.read i) := by
  show (Outcome.ofOption (t i), s.read i) = _
  rw [h]
  rfl

/-- A token that is not set. -/
theorem geoipToken_none (h : t i = none) (s : GeoipState) :
    geoipToken t i s = (.undefined, s.read i) := by
  show (Outcome.ofOption (t i), s.read i) = _
  rw [h]
  rfl

/-- A pass with both tokens. -/
theorem geoipPass_some (memory : Mem) (r : Nat) (hname : t i = some name)
    (hvalue : t (i + 1) = some value) (s : GeoipState) :
    geoipPass memory r t i s = (.returned (), s.member memory r i name value) := by
  rw [geoipPass, Exec.bind_returned (geoipToken_some hname s)]
  show (geoipToken t (i + 1) >>= _) ((s.read i).label memory name) = _
  rw [Exec.bind_returned (geoipToken_some hvalue _)]
  rfl

/-- A pass without a value. -/
theorem geoipPass_none (memory : Mem) (r : Nat) (hname : t i = some name)
    (hvalue : t (i + 1) = none) (s : GeoipState) :
    geoipPass memory r t i s = (.undefined, ((s.read i).label memory name).read (i + 1)) := by
  rw [geoipPass, Exec.bind_returned (geoipToken_some hname s)]
  show (geoipToken t (i + 1) >>= _) ((s.read i).label memory name) = _
  rw [Exec.bind_undefined (geoipToken_none hvalue _)]

/-- A label reads no tokens. -/
@[simp] theorem GeoipState.tokenReads_label (memory : Mem) (name : JsmnTok) (s : GeoipState) :
    (s.label memory name).tokenReads = s.tokenReads := by
  unfold GeoipState.label
  split_ifs <;> rfl

/-- A pass reads the two tokens. -/
@[simp] theorem GeoipState.tokenReads_member (memory : Mem) (r i : Nat) (name value : JsmnTok)
    (s : GeoipState) :
    (s.member memory r i name value).tokenReads = s.tokenReads ++ [i] ++ [i + 1] := by
  have hread : (((s.read i).label memory name).read (i + 1)).tokenReads =
      s.tokenReads ++ [i] ++ [i + 1] := by
    rw [GeoipState.read, tokenReads_label]
    rfl
  rw [← hread, member, GeoipState.separator, GeoipState.flag, GeoipState.value]
  split_ifs <;> rfl

/-- A pass with both tokens below `r` reads no others. -/
theorem GeoipState.reads_member (memory : Mem) (name value : JsmnTok) (hi : i + 1 < r)
    (hreads : ∀ k ∈ s.tokenReads, k < r) :
    ∀ k ∈ (s.member memory r i name value).tokenReads, k < r := by
  rw [tokenReads_member]
  simp only [List.forall_mem_append, List.forall_mem_singleton]
  exact ⟨⟨hreads, by omega⟩, hi⟩

/-- A pass keeps the terminator of `url`. -/
theorem GeoipState.Ends.member (h : s.Ends) (memory : Mem) (r i : Nat) (name value : JsmnTok) :
    (s.member memory r i name value).Ends := by
  have hlabel : ((s.read i).label memory name).Ends := Ends.label (s := s.read i) h name
  have hvalue : ((((s.read i).label memory name).read (i + 1)).value memory value).Ends :=
    Ends.value (s := ((s.read i).label memory name).read (i + 1)) hlabel value
  exact (hvalue.flag name value).separator r i

/-- A pass appends the text for its pair, and two bytes if another pair follows. -/
theorem GeoipState.length_member (hname : name.InText memory size) (hvalue : value.InText memory size)
    (s : GeoipState) :
    (s.member memory r i name value).url.length =
      s.url.length + (memberLength memory name value + if i + 1 < r - 1 then 2 else 0) := by
  have hbefore : ((((s.read i).label memory name).read (i + 1)).value memory value |>.flag memory name
      value).url.length = s.url.length + memberLength memory name value := by
    rw [length_flag hname, length_value hvalue]
    show ((s.read i).label memory name).url.length + _ + _ = _
    rw [length_label hname, memberLength]
    show s.url.length + _ + _ + _ = _
    omega
  rw [member, GeoipState.separator]
  split
  · rw [length_strncat (by decide), hbefore, show (CString.lit ", ").length = 2 by decide]
    omega
  · rw [hbefore]
    rfl

/-- The tokens from an index on, one by one. -/
theorem getElem?_of_drop {toks rest : List JsmnTok} (h : toks.drop i = tok :: rest) :
    toks[i]? = some tok ∧ toks.drop (i + 1) = rest := by
  have hhead := congrArg (·[0]?) h
  have htail := congrArg (List.drop 1) h
  rw [List.drop_drop] at htail
  simp only [List.getElem?_drop, Nat.add_zero, List.getElem?_cons_zero] at hhead
  exact ⟨hhead, htail⟩

/-- From a name on, with a value for every name, the loop reads the tokens that are there and
appends the text for each pair. Recursion on the pairs. -/
theorem geoipLoop_pairs {toks : List JsmnTok} (h : JsmnParsed memory size toks) :
    ∀ (l : List JsmnTok) {i : Nat} {s : GeoipState}, toks.drop i = l → l.length % 2 = 0 → s.Ends →
      (∀ k ∈ s.tokenReads, k < toks.length) →
      ∃ s', geoipLoop memory toks.length (toks[·]?) l.length i s = (.returned (), s') ∧ s'.Ends ∧
        (∀ k ∈ s'.tokenReads, k < toks.length) ∧
        s'.url.length = s.url.length + membersLength memory l
  | [], _, s, _, _, hends, hreads => ⟨s, rfl, hends, hreads, rfl⟩
  | [_], _, _, _, heven, _, _ => absurd heven Nat.one_ne_zero
  | name :: value :: rest, i, s, hdrop, heven, hends, hreads => by
    obtain ⟨hi, hdrop₁⟩ := getElem?_of_drop hdrop
    obtain ⟨hi₁, hdrop₂⟩ := getElem?_of_drop hdrop₁
    have hlen := congrArg List.length hdrop
    rw [List.length_drop, List.length_cons, List.length_cons] at hlen
    have hsep : i + 1 < toks.length - 1 ↔ rest ≠ [] := by
      rw [← List.length_pos_iff]
      omega
    have hpass := geoipPass_some memory toks.length (t := (toks[·]?)) hi hi₁ s
    have htext := GeoipState.length_member (r := toks.length) (i := i)
      (h.inText (List.mem_of_getElem? hi)) (h.inText (List.mem_of_getElem? hi₁)) s
    rw [List.length_cons, List.length_cons] at heven
    obtain ⟨s', hloop, hends', hreadsEnd, hlenEnd⟩ := geoipLoop_pairs h rest hdrop₂ (by omega)
      (hends.member memory toks.length i name value)
      (GeoipState.reads_member memory name value (by omega) hreads)
    refine ⟨s', ?_, hends', hreadsEnd, ?_⟩
    · rw [List.length_cons, List.length_cons, geoipLoop, Exec.bind_returned hpass, hloop]
    · rw [hlenEnd, htext, membersLength]
      by_cases hrest : rest = []
      · rw [if_neg (fun hlt => hsep.1 hlt hrest), if_pos hrest]
        omega
      · rw [if_pos (hsep.2 hrest), if_neg hrest]
        omega

/-- From a name on, with a last name that has no value, the loop reads the token behind the last.
Recursion on the pairs. -/
theorem geoipLoop_last (memory : Mem) {toks : List JsmnTok} :
    ∀ (l : List JsmnTok) {i : Nat} (s : GeoipState), toks.drop i = l → l.length % 2 = 1 →
      toks.length ∈ (geoipLoop memory toks.length (toks[·]?) l.length i s).2.tokenReads
  | [], _, _, _, hodd => absurd hodd Nat.zero_ne_one
  | [name], i, s, hdrop, _ => by
    obtain ⟨hi, hdrop₁⟩ := getElem?_of_drop hdrop
    have hbehind : toks[i + 1]? = none := List.getElem?_eq_none (List.drop_eq_nil_iff.1 hdrop₁)
    have hlen := congrArg List.length hdrop
    rw [List.length_drop, List.length_singleton] at hlen
    rw [List.length_singleton, geoipLoop,
      geoipPass_none memory toks.length (t := (toks[·]?)) hi hbehind s]
    refine List.mem_append_right _ (List.mem_singleton.2 ?_)
    omega
  | name :: value :: rest, i, s, hdrop, hodd => by
    obtain ⟨hi, hdrop₁⟩ := getElem?_of_drop hdrop
    obtain ⟨hi₁, hdrop₂⟩ := getElem?_of_drop hdrop₁
    have hpass := geoipPass_some memory toks.length (t := (toks[·]?)) hi hi₁ s
    rw [List.length_cons, List.length_cons] at hodd ⊢
    rw [geoipLoop, Exec.bind_returned hpass]
    exact geoipLoop_last memory rest _ hdrop₂ (by omega)

end

/-! ## The report -/

/-- For a JSON object, the report does what the loop does from the second token on. -/
theorem geoipReport_eq {memory : Mem} {size : Nat} {toks : List JsmnTok}
    (h : JsmnParsed memory size toks) :
    (geoipReport memory toks.length (toks[·]?) .init).2 =
      (geoipLoop memory toks.length (toks[·]?) (toks.length - 1) 1 (GeoipState.init.read 0)).2 := by
  obtain ⟨first, rest, rfl, hobject⟩ := h.object
  have hpos : ¬ (((first :: rest).length : Nat) : Int) < 0 := by omega
  have hone : ¬ (((first :: rest).length : Nat) : Int) < 1 := by
    rw [List.length_cons]
    omega
  rw [geoipReport, if_neg hpos, if_neg hone,
    Exec.bind_returned (geoipToken_some (t := ((first :: rest)[·]?)) rfl GeoipState.init)]
  simp only [hobject, if_true, Int.toNat_natCast]
  rcases hloop : geoipLoop memory (first :: rest).length ((first :: rest)[·]?)
    ((first :: rest).length - 1) 1 (GeoipState.init.read 0) with ⟨_ | _ | _ | _, s'⟩
  · rw [Exec.bind_returned hloop]
    rfl
  · rw [Exec.bind_segv hloop]
  · rw [Exec.bind_undefined hloop]
  · rw [Exec.bind_blocked hloop]

/-- For a JSON object and the tokens that `jsmn_parse` returns for it, `handle_cmd` reads only these
and writes only to the 512 bytes of `url`, if and only if the number of tokens is odd and the text
for the pairs behind the first has at most 511 bytes. -/
theorem geoipReport_inBounds_iff {memory : Mem} {size : Nat} {toks : List JsmnTok}
    (h : JsmnParsed memory size toks) :
    (geoipReport memory toks.length (toks[·]?) .init).2.InBounds toks.length ↔
      toks.length % 2 = 1 ∧ membersLength memory toks.tail ≤ 511 := by
  rw [geoipReport_eq h]
  obtain ⟨first, rest, htoks, -⟩ := h.object
  have hdrop : toks.drop 1 = rest := by rw [htoks]; rfl
  have hlen : toks.length = rest.length + 1 := by rw [htoks]; rfl
  have htail : toks.tail = rest := by rw [htoks]; rfl
  rw [htail, show toks.length - 1 = rest.length by omega]
  have hends : (GeoipState.init.read 0).Ends := ⟨by decide, by decide⟩
  by_cases heven : rest.length % 2 = 0
  · have hreads : ∀ k ∈ (GeoipState.init.read 0).tokenReads, k < toks.length := by
      intro k hk
      rw [List.mem_singleton.1 hk]
      omega
    obtain ⟨s', hloop, hends', hreads', hurl⟩ := geoipLoop_pairs h rest hdrop heven hends hreads
    have hlength : s'.url.length = membersLength memory rest := hurl.trans (Nat.zero_add _)
    rw [hloop, GeoipState.InBounds, hends'.writes_iff, hlength]
    exact ⟨fun hin => ⟨by omega, hin.2⟩, fun hfits => ⟨hreads', hfits.2⟩⟩
  · have hlast := geoipLoop_last memory rest (GeoipState.init.read 0) hdrop (by omega)
    constructor
    · exact fun hin => absurd (hin.1 _ hlast) (Nat.lt_irrefl _)
    · exact fun hfits => absurd hfits.1 (by omega)

/-- A response, as a block of memory. -/
def responseMem (body : List UInt8) : Mem := fun i =>
  body.getD i.toNat 0

/-- The response `{"ip":"1"}` is read and its report written in bounds. -/
theorem geoipReport_inBounds_iff_ip :
    (geoipReport (responseMem [123, 34, 105, 112, 34, 58, 34, 49, 34, 125]) 3
        ([⟨true, 0, 10⟩, ⟨false, 2, 4⟩, ⟨false, 7, 8⟩][·]?) .init).2.InBounds 3 :=
  (@geoipReport_inBounds_iff _ 10 [⟨true, 0, 10⟩, ⟨false, 2, 4⟩, ⟨false, 7, 8⟩]
    ⟨by decide, ⟨_, _, rfl, rfl⟩, by decide, by decide⟩).2 ⟨by decide, by decide +kernel⟩

/-- For `{"a":[1]}` `jsmn_parse` returns four tokens, and the element behind them is read. -/
theorem geoipReport_not_inBounds :
    ¬ (geoipReport (responseMem [123, 34, 97, 34, 58, 91, 49, 93, 125]) 4
      ([⟨true, 0, 9⟩, ⟨false, 2, 3⟩, ⟨false, 5, 8⟩, ⟨false, 6, 7⟩][·]?) .init).2.InBounds 4 := by
  intro h
  exact absurd (h.1 4 (by decide)) (by decide)

end MinervaBot
