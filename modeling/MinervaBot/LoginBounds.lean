import MinervaBot.IrcLogin

/-!
# The indices that `irc_login` accesses

The functions here go through `irc_login` as those of `IrcLogin.lean` do and list the indices of
`buf` and `nick` that are read or written, by the function itself and by `net_raw`. `buf` has 513
bytes; the block at `nick` has one more than the nick has, and at least 21. The nick grows only
while it is shorter than 20, and a line ends at the latest with the byte at index 512, so that all
indices are inside (`ircLogin_inBounds`).
-/

namespace MinervaBot

open Lib

/-- The two arrays of `irc_login`. -/
inductive LoginArray where
  | buf
  | nick
  deriving DecidableEq

/-- An access: the array, the index, and the value of `o`. -/
structure LoginAccess where
  array : LoginArray
  index : Int
  o : Nat
  deriving DecidableEq

/-- The index is one of the array, `len` being the length of the nick at the start, and `o` is not
over 512. -/
def LoginAccess.InBounds (len : Nat) (a : LoginAccess) : Prop :=
  0 ≤ a.index ∧ a.o ≤ 512 ∧
    match a.array with
    | .buf => a.index ≤ 512
    | .nick => a.index < (max len 20 + 1 : Nat)

namespace LoginState

/-- An access of `buf`. -/
def bufAccess (s : LoginState) (i : Int) : LoginAccess :=
  ⟨.buf, i, s.o⟩

/-- The accesses of `nick` from index 0 to `n`. -/
def nickAccesses (s : LoginState) (n : Nat) : List LoginAccess :=
  (List.range (n + 1)).map fun (i : Nat) => ⟨.nick, i, s.o⟩

/-- What `net_raw` reads of `buf`: a string with its terminator. -/
def bufStrAccesses (s : LoginState) : List LoginAccess :=
  (List.range ((bufStr s.buf 0).length + 1)).map fun (i : Nat) => s.bufAccess i

/-- The answer to a line whose second byte is an `I`. -/
def pongAccesses (s : LoginState) : List LoginAccess :=
  s.bufAccess 1 :: s.pong.bufStrAccesses

/-- The byte at `i`, in a chunk of `rl` bytes; a nick that has grown is read by `net_raw`. -/
def codeAccesses (rl : Nat) (i : Int) (s : LoginState) : List LoginAccess :=
  s.bufAccess i ::
    if s.buf i = 52 ∧ i + 2 < rl then
      s.bufAccess (i + 2) ::
        if s.buf (i + 2) = 51 ∧ s.nick.length < 20 then s.nickAccesses (s.nick.length + 1) else []
    else []

end LoginState

/-- The loop over the bytes of a line. -/
def loginScanAccesses (rl : Nat) : (n : Nat) → (i : Int) → LoginState → List LoginAccess
  | 0, _, _ => []
  | n + 1, i, s =>
    s.bufAccess (i - 1) ::
      if s.buf (i - 1) = 32 then s.codeAccesses rl i ++ loginScanAccesses rl n (i + 1) (s.code rl i)
      else s.bufAccess 1 ::
        if s.buf 1 = 73 then
          s.pongAccesses ++ (s.pong.codeAccesses rl i ++
            loginScanAccesses rl n (i + 1) (s.pong.code rl i))
        else loginScanAccesses rl n (i + 1) s

/-- A line. -/
def LoginState.lineAccesses (rl : Nat) (s : LoginState) : List LoginAccess :=
  s.bufAccess s.o :: loginScanAccesses rl (s.o - 1) 1 { s with buf := s.buf.write s.o 0 }

/-- A byte. -/
def loginByteAccesses (rl : Nat) (prev : Option UInt8) (c : UInt8) (s : LoginState) :
    List LoginAccess :=
  s.bufAccess s.o ::
    if (prev = some 13 ∧ c = 10) ∨ s.o = 512 then
      { s with buf := s.buf.write s.o c }.lineAccesses rl
    else []

/-- The rest of a chunk. -/
def loginBytesAccesses (rl : Nat) :
    (prev : Option UInt8) → (rbuf : List UInt8) → LoginState → List LoginAccess
  | _, [], _ => []
  | prev, c :: rbuf, s =>
    loginByteAccesses rl prev c s ++ loginBytesAccesses rl (some c) rbuf (loginByte rl prev c s)

/-- A result of `net_recv`. -/
def loginRecvAccesses (s : LoginState) : NetRecv → List LoginAccess
  | .data chunk =>
    if chunk.rbuf.length > 2 then loginBytesAccesses chunk.rbuf.length none chunk.rbuf s else []
  | .eof | .error => []

/-- The loop of `irc_login`. -/
def loginLoopAccesses : List NetRecv → LoginState → List LoginAccess
  | [], _ => []
  | r :: rs, s =>
    loginRecvAccesses s r ++
      if (loginRecv s r).2 then [] else loginLoopAccesses rs (loginRecv s r).1

/-- `irc_login` with the results of `net_recv`: the nick is copied and read with its terminator
before the loop. -/
def ircLoginAccesses (buf : Mem) (user realname nick : CString) (password : Option CString)
    (recvs : List NetRecv) : List LoginAccess :=
  let s := LoginState.init buf user realname nick password
  s.nickAccesses nick.length ++ loginLoopAccesses recvs s

/-! ## The bounds -/

/-- `o` is an index of `buf`, and the nick and its terminator fit the block at `nick`. -/
structure LoginState.Fits (len : Nat) (s : LoginState) : Prop where
  o : s.o ≤ 512
  nick : s.nick.length ≤ max len 20

section
variable {len rl : Nat} {s : LoginState} {i : Int}

namespace LoginState.Fits

/-- An access to `buf` within it. -/
theorem bufAccess (h : s.Fits len) (h0 : 0 ≤ i) (hi : i ≤ 512) : (s.bufAccess i).InBounds len :=
  ⟨h0, h.o, hi⟩

/-- The nick is accessed up to an index in the block. -/
theorem nickAccesses (h : s.Fits len) {n : Nat} (hn : n ≤ max len 20) :
    ∀ a ∈ s.nickAccesses n, a.InBounds len := by
  intro a ha
  obtain ⟨i, hi, rfl⟩ := List.mem_map.1 ha
  rw [List.mem_range] at hi
  exact ⟨Int.natCast_nonneg i, h.o, by simp only; omega⟩

/-- With the terminator of the line at `o`, the string ends there at the latest. -/
theorem bufStrAccesses (h : s.Fits len) (hnul : s.buf s.o = 0) :
    ∀ a ∈ s.bufStrAccesses, a.InBounds len := by
  intro a ha
  have ho := h.o
  have hstr := length_bufStr_le hnul (p := 0) (by omega) (by omega)
  obtain ⟨i, hi, rfl⟩ := List.mem_map.1 ha
  rw [List.mem_range] at hi
  exact h.bufAccess (by omega) (by omega)

/-- A reply leaves the variables in bounds. -/
theorem pong (h : s.Fits len) : s.pong.Fits len := ⟨h.o, h.nick⟩

/-- The nick grows only while it is shorter than 20. -/
theorem code (h : s.Fits len) (rl : Nat) (i : Int) : (s.code rl i).Fits len := by
  unfold LoginState.code
  split
  · exact ⟨h.o, h.nick⟩
  split
  · split
    · next hgrow =>
      refine ⟨h.o, ?_⟩
      simp only [CString.length_append, show (CString.lit "_").length = 1 by decide]
      omega
    · exact ⟨h.o, h.nick⟩
  · exact h

/-- The accesses of a reply are in bounds. -/
theorem pongAccesses (h : s.Fits len) (hnul : s.pong.buf s.o = 0) :
    ∀ a ∈ s.pongAccesses, a.InBounds len := by
  intro a ha
  rcases List.mem_cons.1 ha with rfl | ha
  · exact h.bufAccess (by decide) (by decide)
  · exact h.pong.bufStrAccesses hnul a ha

/-- The accesses to the code of a line are in bounds. -/
theorem codeAccesses (h : s.Fits len) (hrl : rl ≤ 512) (h0 : 0 ≤ i) (hi : i ≤ 512) :
    ∀ a ∈ s.codeAccesses rl i, a.InBounds len := by
  intro a ha
  rcases List.mem_cons.1 ha with rfl | ha
  · exact h.bufAccess h0 hi
  split at ha
  · next hahead =>
    rcases List.mem_cons.1 ha with rfl | ha
    · exact h.bufAccess (by omega) (by omega)
    split at ha
    · exact h.nickAccesses (by omega) a ha
    · cases ha
  · cases ha

end LoginState.Fits

/-- The code of a line leaves `o`. -/
@[simp] theorem LoginState.o_code (rl : Nat) (i : Int) (s : LoginState) : (s.code rl i).o = s.o := by
  unfold LoginState.code
  split_ifs <;> rfl

/-- The code of a line leaves `buf`. -/
@[simp] theorem LoginState.buf_code (rl : Nat) (i : Int) (s : LoginState) :
    (s.code rl i).buf = s.buf := by
  unfold LoginState.code
  split_ifs <;> rfl

/-- The `O` that is written to answer a line is not its terminator. -/
theorem LoginState.pong_nul (hnul : s.buf s.o = 0) (ho : s.o ≠ 1) : s.pong.buf s.o = 0 := by
  simp only [LoginState.pong]
  rw [Mem.write_of_ne _ _ (by omega)]
  exact hnul

/-- The loop over a line with its terminator at `o`. Induction on the indices to go. -/
theorem loginScan_inBounds (hrl : rl ≤ 512) (n : Nat) : ∀ {i : Int} {s : LoginState},
    s.Fits len → s.buf s.o = 0 → 1 ≤ i → n + i ≤ max 1 s.o →
      (∀ a ∈ loginScanAccesses rl n i s, a.InBounds len) ∧ (loginScan rl n i s).Fits len := by
  induction n with
  | zero => exact fun h _ _ _ => ⟨List.forall_mem_nil _, h⟩
  | succ n ih =>
    intro i s h hnul hi hn
    have ho := h.o
    have hprev : (s.bufAccess (i - 1)).InBounds len := h.bufAccess (by omega) (by omega)
    have hpong := LoginState.pong_nul hnul (by omega)
    rw [loginScanAccesses, loginScan]
    split
    · have hcode := h.codeAccesses hrl (i := i) (by omega) (by omega)
      obtain ⟨hrest, hfits⟩ := ih (i := i + 1) (h.code rl i) (by simpa using hnul) (by omega)
        (by rw [LoginState.o_code]; omega)
      exact ⟨List.forall_mem_cons.2 ⟨hprev, List.forall_mem_append.2 ⟨hcode, hrest⟩⟩, hfits⟩
    · have hsecond : (s.bufAccess 1).InBounds len := h.bufAccess (by decide) (by decide)
      split
      · have hcode := h.pong.codeAccesses hrl (i := i) (by omega) (by omega)
        obtain ⟨hrest, hfits⟩ := ih (i := i + 1) (h.pong.code rl i)
          (by rw [LoginState.buf_code, LoginState.o_code]; exact hpong) (by omega)
          (by rw [LoginState.o_code]; simp only [LoginState.pong]; omega)
        refine ⟨List.forall_mem_cons.2 ⟨hprev, List.forall_mem_cons.2 ⟨hsecond, ?_⟩⟩, hfits⟩
        exact List.forall_mem_append.2
          ⟨h.pongAccesses hpong, List.forall_mem_append.2 ⟨hcode, hrest⟩⟩
      · obtain ⟨hrest, hfits⟩ := ih (i := i + 1) h hnul (by omega) (by omega)
        exact ⟨List.forall_mem_cons.2 ⟨hprev, List.forall_mem_cons.2 ⟨hsecond, hrest⟩⟩, hfits⟩

/-- A line. -/
theorem LoginState.Fits.line (h : s.Fits len) (hrl : rl ≤ 512) :
    (∀ a ∈ s.lineAccesses rl, a.InBounds len) ∧ (s.line rl).Fits len := by
  have ho := h.o
  have hterm : LoginState.Fits len { s with buf := s.buf.write s.o 0 } := ⟨h.o, h.nick⟩
  obtain ⟨hscan, hfits⟩ := loginScan_inBounds hrl (s.o - 1) hterm (Mem.write_same _ _ _)
    (Int.le_refl 1) (by simp only; omega)
  refine ⟨List.forall_mem_cons.2 ⟨h.bufAccess (by omega) (by omega), hscan⟩, Nat.zero_le _, hfits.nick⟩

/-- A byte: at `o` 512 a line ends, so `o` stays an index of `buf`. -/
theorem LoginState.Fits.byte (h : s.Fits len) (hrl : rl ≤ 512) (prev : Option UInt8) (c : UInt8) :
    (∀ a ∈ loginByteAccesses rl prev c s, a.InBounds len) ∧ (loginByte rl prev c s).Fits len := by
  have ho := h.o
  have hfirst : (s.bufAccess s.o).InBounds len := h.bufAccess (by omega) (by omega)
  have hstored : LoginState.Fits len { s with buf := s.buf.write s.o c } := ⟨h.o, h.nick⟩
  rw [loginByteAccesses, loginByte]
  simp only
  split
  · obtain ⟨hline, hfits⟩ := hstored.line hrl
    exact ⟨List.forall_mem_cons.2 ⟨hfirst, hline⟩, hfits⟩
  · next hgo =>
    have hne : s.o ≠ 512 := fun h512 => hgo (.inr h512)
    exact ⟨List.forall_mem_cons.2 ⟨hfirst, List.forall_mem_nil _⟩, by simp only; omega, h.nick⟩

/-- The rest of a chunk. Induction on its bytes. -/
theorem LoginState.Fits.bytes (hrl : rl ≤ 512) (rbuf : List UInt8) :
    ∀ (prev : Option UInt8) {s : LoginState}, s.Fits len →
      (∀ a ∈ loginBytesAccesses rl prev rbuf s, a.InBounds len) ∧
        (loginBytes rl prev rbuf s).Fits len := by
  induction rbuf with
  | nil => exact fun _ _ h => ⟨List.forall_mem_nil _, h⟩
  | cons c rbuf ih =>
    intro prev s h
    obtain ⟨hbyte, hfits⟩ := h.byte hrl prev c
    obtain ⟨hrest, hend⟩ := ih (some c) hfits
    exact ⟨List.forall_mem_append.2 ⟨hbyte, hrest⟩, hend⟩

/-- A result of `net_recv`. -/
theorem LoginState.Fits.recv (h : s.Fits len) (r : NetRecv) :
    (∀ a ∈ loginRecvAccesses s r, a.InBounds len) ∧ (loginRecv s r).1.Fits len := by
  cases r with
  | data chunk =>
    rw [loginRecvAccesses, loginRecv]
    split
    · exact h.bytes chunk.length_le chunk.rbuf none
    · exact ⟨List.forall_mem_nil _, h⟩
  | eof | error => exact ⟨List.forall_mem_nil _, h⟩

/-- The loop. Induction on the results of `net_recv`. -/
theorem loginLoopAccesses_inBounds (recvs : List NetRecv) : ∀ {s : LoginState}, s.Fits len →
    ∀ a ∈ loginLoopAccesses recvs s, a.InBounds len := by
  induction recvs with
  | nil => exact fun _ => List.forall_mem_nil _
  | cons r recvs ih =>
    intro s h
    obtain ⟨hrecv, hfits⟩ := h.recv r
    rw [loginLoopAccesses]
    refine List.forall_mem_append.2 ⟨hrecv, ?_⟩
    split
    · exact List.forall_mem_nil _
    · exact ih hfits

end

/-- For every nick, whatever `net_recv` returns in a login, every index of `buf` that is accessed is
one of the 513, with `o` at most 512 at each access, and every index of `nick` is one of the block.
-/
theorem ircLogin_inBounds (buf : Mem) (user realname nick : CString) (password : Option CString)
    (recvs : List NetRecv) :
    ∀ a ∈ ircLoginAccesses buf user realname nick password recvs, a.InBounds nick.length := by
  have hinit : (LoginState.init buf user realname nick password).Fits nick.length :=
    ⟨Nat.zero_le _, Nat.le_max_left _ _⟩
  exact List.forall_mem_append.2
    ⟨hinit.nickAccesses (Nat.le_max_left _ _), loginLoopAccesses_inBounds recvs hinit⟩

/-- A nick that is in use: the terminator behind the byte that is appended. -/
theorem ircLogin_inBounds_used : LoginAccess.InBounds 3 ⟨.nick, 4, 7⟩ :=
  ircLogin_inBounds (fun _ => 0) (CString.lit "bot") (CString.lit "bot") (CString.lit "bot") none
    [.data ⟨[58, 120, 32, 52, 51, 51, 13, 10], by decide, by decide⟩] ⟨.nick, 4, 7⟩
    (by decide +kernel)

end MinervaBot
