import MinervaBot.Handlers

/-!
# `handle_fw` of `bot_fun`

The handler writes full-width forms of its arguments to `buf`, three bytes for a character, which it
computes with 16-bit arithmetic. `fwBytes_eq` says that these are the UTF-8 encodings of the forms;
with 170 characters `buf` is full (`handleFw_apply`).
-/

namespace MinervaBot

open Lib

/-- The variables of the loop, with the indices of `buf` written so far. -/
structure FwState where
  q : Nat
  buf : Mem
  writes : List Int

/-- `buf[i] = c`. -/
def FwState.put (i : Int) (c : UInt8) (s : FwState) : FwState :=
  { s with buf := s.buf.write i c, writes := s.writes ++ [i] }

/-- Three bytes at `q*3`, and `q++`. -/
def FwState.encode (a b c : UInt8) (s : FwState) : FwState :=
  let s := ((s.put (s.q * 3) a).put (s.q * 3 + 1) b).put (s.q * 3 + 2) c
  { s with q := s.q + 1 }

/-- The value of a `char`, which is signed, in an `unsigned short`. -/
def charShort (arg : UInt8) : UInt16 :=
  arg.toInt8.toInt16.toUInt16

/-- The three bytes for a character, `none` for one that is left out. -/
def fwBytes (arg : UInt8) : Option (UInt8 × UInt8 × UInt8) :=
  let c := charShort arg
  if c < 0x20 ∨ 0x7F < c then none
  else if c = 0x20 then some (0xe3, 0x80, 0x80)
  else
    let c := if 0x60 ≤ c then c + 0xC0 else c
    let s := 0xBC60 + c
    some (0xef, ((s >>> 8) &&& 0xff).toUInt8, (s &&& 0xff).toUInt8)

/-- The loop for a character. -/
def fwByte (s : FwState) (arg : UInt8) : FwState :=
  match fwBytes arg with
  | none => s
  | some (a, b, c) => s.encode a b c

/-- The loop of `handle_fw` and the terminator. -/
def fwLoop (args : CString) (buf : Mem) : FwState :=
  let n := if args.length > 170 then 170 else args.length
  let s := (args.bytes.take n).foldl fwByte { q := 0, buf, writes := [] }
  s.put (s.q * 3) 0

/-- `handle_fw`, `buf` being what the array has before. -/
def handleFw (buf : Mem) : CommandHandler := fun _ _ where' args => do
  coreCall (.msg where' ((fwLoop args buf).buf.cstr 0 511))
  return 0

/-- The full-width form of a byte: of a space U+3000, of another printable byte, or DEL, `c` the
character U+FEE0 + `c`. -/
def fullwidthChar (c : UInt8) : Option Char :=
  if 0x20 ≤ c ∧ c ≤ 0x7F then
    some (.ofNat (if c = 0x20 then 0x3000 else c.toNat + 0xFEE0))
  else none

/-- The full-width forms of the first 170 bytes. -/
def fullwidth (args : CString) : List Char :=
  (args.bytes.take 170).filterMap fullwidthChar

/-! ## The encoding -/

@[simp] theorem FwState.encode_q (a b c : UInt8) (s : FwState) : (s.encode a b c).q = s.q + 1 := rfl

/-- The bytes for a character are the UTF-8 encoding of its full-width form. -/
theorem fwBytes_eq (c : UInt8) :
    (fwBytes c).map (fun (x, y, z) => [x, y, z]) = (fullwidthChar c).map String.utf8EncodeChar := by
  revert c
  exact forall_byte (by decide +kernel)

-- `a` is the first character behind the correction.
example : fwBytes 97 = some (0xef, 0xbd, 0x81) := by decide

/-- `buf` has the bytes `b`, three for each pass that wrote, and nothing behind them is written. -/
structure FwState.Holds (s : FwState) (b : List UInt8) : Prop where
  length : b.length = s.q * 3
  bytes : s.buf.HasBytes 0 b
  writes : ∀ i ∈ s.writes, 0 ≤ i ∧ i < s.q * 3

/-- A character adds its three bytes. -/
theorem FwState.Holds.encode {s : FwState} {b : List UInt8} (h : s.Holds b) (x y z : UInt8) :
    (s.encode x y z).Holds (b ++ [x, y, z]) := by
  obtain ⟨hlen, hbytes, hwrites⟩ := h
  have hx : (s.q : Int) * 3 = 0 + b.length := by omega
  have hy : (s.q : Int) * 3 + 1 = 0 + (b ++ [x]).length := by
    rw [List.length_append, List.length_singleton]
    omega
  have hz : (s.q : Int) * 3 + 2 = 0 + (b ++ [x] ++ [y]).length := by
    simp only [List.length_append, List.length_singleton]
    omega
  refine ⟨?_, ?_, fun i hi => ?_⟩
  · rw [FwState.encode_q, List.length_append, hlen]
    exact (Nat.succ_mul s.q 3).symm
  · have hthree := ((hbytes.snoc x).snoc y).snoc z
    rw [← hx, ← hy, ← hz, List.append_assoc, List.append_assoc] at hthree
    exact hthree
  · rw [FwState.encode_q]
    simp only [FwState.encode, FwState.put, List.mem_append, List.mem_singleton] at hi
    rcases hi with ((hi | rfl) | rfl) | rfl
    · have hi := hwrites i hi
      omega
    all_goals omega

/-- A character adds the encoding of its full-width form. -/
theorem FwState.Holds.byte {s : FwState} {b : List UInt8} (h : s.Holds b) (c : UInt8) :
    (fwByte s c).Holds (b ++ (fullwidthChar c).toList.flatMap String.utf8EncodeChar) := by
  have heq := fwBytes_eq c
  unfold fwByte
  cases hbytes : fwBytes c with
  | none =>
    rw [hbytes, Option.map_none] at heq
    rw [Option.map_eq_none_iff.1 heq.symm]
    simpa using h
  | some r =>
    obtain ⟨x, y, z⟩ := r
    rw [hbytes, Option.map_some] at heq
    obtain ⟨ch, hch, hutf8⟩ := Option.map_eq_some_iff.1 heq.symm
    rw [hch, Option.toList_some, List.flatMap_singleton, hutf8]
    exact h.encode x y z

/-- The loop adds the encodings. Induction on the bytes. -/
theorem FwState.Holds.loop (l : List UInt8) : ∀ {s : FwState} {b : List UInt8}, s.Holds b →
    (l.foldl fwByte s).Holds (b ++ (l.filterMap fullwidthChar).flatMap String.utf8EncodeChar) := by
  induction l with
  | nil => intro s b h; simpa using h
  | cons c l ih =>
    intro s b h
    have hrest := ih (h.byte c)
    rw [List.append_assoc, ← List.flatMap_append] at hrest
    cases hc : fullwidthChar c with
    | none =>
      rw [hc] at hrest
      rw [List.filterMap_cons_none hc]
      exact hrest
    | some ch =>
      rw [hc] at hrest
      rw [List.filterMap_cons_some hc]
      exact hrest

/-- A pass writes for one character at most. -/
theorem foldl_fwByte_q_le (l : List UInt8) : ∀ s : FwState,
    (l.foldl fwByte s).q ≤ s.q + l.length := by
  induction l with
  | nil => exact fun s => Nat.le_refl _
  | cons c l ih =>
    intro s
    have hstep : (fwByte s c).q ≤ s.q + 1 := by
      unfold fwByte
      split
      · exact Nat.le_succ _
      · exact Nat.le_refl _
    have hrest := ih (fwByte s c)
    rw [List.foldl_cons, List.length_cons]
    omega

/-- No byte of an encoding is a NUL. -/
theorem nul_notMem_fullwidth (l : List UInt8) :
    0 ∉ (l.filterMap fullwidthChar).flatMap String.utf8EncodeChar := by
  have hbyte : ∀ c : UInt8, 0 ∉ (fullwidthChar c).toList.flatMap String.utf8EncodeChar :=
    forall_byte (by decide +kernel)
  intro h
  obtain ⟨ch, hch, h0⟩ := List.mem_flatMap.1 h
  obtain ⟨c, -, hc⟩ := List.mem_filterMap.1 hch
  exact hbyte c (by rwa [hc, Option.toList_some, List.flatMap_singleton])

/-- The loop goes over the first 170 bytes. -/
theorem fwLoop_eq (args : CString) (buf : Mem) :
    fwLoop args buf =
      let s := (args.bytes.take 170).foldl fwByte { q := 0, buf, writes := [] }
      s.put (s.q * 3) 0 := by
  unfold fwLoop
  split
  · rfl
  · next hle =>
    have hlen : args.bytes.length ≤ 170 := Nat.not_lt.1 hle
    simp only [CString.length, List.take_length, List.take_of_length_le hlen]

/-- After the loop `buf` has the encodings and a terminator, and no index from 511 on is written. -/
theorem fwLoop_spec (args : CString) (buf : Mem) :
    (fwLoop args buf).buf.HasBytes 0
        ((fullwidth args).flatMap String.utf8EncodeChar ++ [0]) ∧
      ((fullwidth args).flatMap String.utf8EncodeChar).length ≤ 510 ∧
      ∀ i ∈ (fwLoop args buf).writes, 0 ≤ i ∧ i < 511 := by
  have hinit : (FwState.mk 0 buf []).Holds [] := ⟨rfl, nofun, nofun⟩
  obtain ⟨hlen, hbytes, hwrites⟩ := hinit.loop (args.bytes.take 170)
  have hq := foldl_fwByte_q_le (args.bytes.take 170) (.mk 0 buf [])
  rw [List.nil_append, ← fullwidth] at hlen hbytes
  rw [List.length_take] at hq
  rw [fwLoop_eq]
  generalize (args.bytes.take 170).foldl fwByte (.mk 0 buf []) = s at *
  have hq : s.q ≤ 170 := by
    simp only at hq
    omega
  refine ⟨?_, by omega, fun i hi => ?_⟩
  · have hlast := hbytes.snoc 0
    rw [Int.zero_add, hlen] at hlast
    exact hlast
  · rcases List.mem_append.1 hi with hi | hi
    · have hi := hwrites i hi
      omega
    · rw [List.mem_singleton.1 hi]
      omega

/-! ## The message -/

/-- For every `args`, `handle_fw` sends one message, the UTF-8 encoding of the full-width forms of
the first 170 bytes, and every index of `buf` that it writes is one of the 511. -/
theorem handleFw_apply (buf : Mem) (cmdname : CString) (who : CommandSender)
    (where' args : CString) (b : Bot) :
    ∃ text : CString, text.bytes = (fullwidth args).flatMap String.utf8EncodeChar ∧
      handleFw buf cmdname who where' args b =
        (.returned 0, { b with calls := b.calls ++ [.msg where' text] }) ∧
      ∀ i ∈ (fwLoop args buf).writes, 0 ≤ i ∧ i < 511 := by
  obtain ⟨hbytes, hlen, hwrites⟩ := fwLoop_spec args buf
  let text : CString := ⟨_, nul_notMem_fullwidth (args.bytes.take 170)⟩
  have hcstr : (fwLoop args buf).buf.cstr 0 511 = text :=
    Mem.cstr_eq (s := text) hbytes (Nat.lt_succ_of_le hlen)
  refine ⟨text, rfl, ?_, hwrites⟩
  rw [← hcstr]
  rfl

end MinervaBot
