import MinervaBot.Threadpool

/-!
# HTTP requests of the modules

`mod_common.c` collects the response to a request in a `struct buffer`: `buffer_append` is the
callback that curl hands the chunks of the body to. curl itself is not part of the program; a
`CurlReply` is what it does in one request. `CurlReply.buffer_eq` says what a request that succeeds
leaves in the buffer: the body with a NUL behind it, or an indeterminate byte where no chunk was
appended.
-/

namespace MinervaBot

open Lib

/-- `struct buffer`: the cells of the block at `memory`, `none` for one that is indeterminate, and
no block for `NULL`. -/
structure Buffer where
  memory : Option (List (Option UInt8))
  size : Nat
  deriving DecidableEq

/-- A call of the callback: the data, and whether its `realloc` succeeds. -/
structure CurlChunk where
  contents : List UInt8
  realloc : Bool

/-- What curl does in a request: the calls of the callback, as long as each takes all of its data,
and whether the request is else successful. `malloc` is the allocation before it. -/
structure CurlReply where
  malloc : Bool
  chunks : List CurlChunk
  ok : Bool

/-- `buffer_append`: what it returns, and the buffer afterwards. -/
def bufferAppend (mem : Buffer) (chunk : CurlChunk) : Nat × Buffer :=
  if chunk.realloc then
    let kept := (mem.memory.getD []).take mem.size
    (chunk.contents.length,
      { memory := some (kept ++ chunk.contents.map some ++ [some 0])
        size := mem.size + chunk.contents.length })
  else (0, mem)

/-- `curl_easy_perform`: it fails when the callback returns less than it was given. -/
def curlEasyPerform : Buffer → List CurlChunk → Bool × Buffer
  | buf, [] => (true, buf)
  | buf, chunk :: chunks =>
    let r := bufferAppend buf chunk
    if r.1 = chunk.contents.length then curlEasyPerform r.2 chunks else (false, r.2)

/-- The buffer that `send_http_request` leaves; `none` where it does not return `CURLE_OK`. -/
def CurlReply.buffer (reply : CurlReply) : Option Buffer :=
  let buf : Buffer := { memory := if reply.malloc then some [none] else none, size := 0 }
  let r := curlEasyPerform buf reply.chunks
  if r.1 && reply.ok then some r.2 else none

/-- The body of the response. -/
def CurlReply.body (reply : CurlReply) : List UInt8 :=
  reply.chunks.flatMap CurlChunk.contents

/-- Some chunk, perhaps an empty one, was appended. -/
def CurlReply.Delivered (reply : CurlReply) : Prop :=
  ∃ chunk ∈ reply.chunks, chunk.realloc = true

/-- Reading a C string from a block, at most `n` bytes of it; `none` where the read leaves the block
or meets an indeterminate byte. -/
def readStr : (n : Nat) → List (Option UInt8) → Option (List UInt8)
  | 0, _ => some []
  | _ + 1, [] => none
  | _ + 1, none :: _ => none
  | n + 1, some c :: cells => if c = 0 then some [] else (readStr n cells).map (c :: ·)

/-- What a module's handler asks of the web and of the core. -/
inductive WebCall where
  | request (url : CString)
  | msg (chan message : CString)
  | msgva (chan text : CString)
  deriving DecidableEq

/-- The handler of a module that makes requests; the state is the calls so far. -/
abbrev WebHandler :=
  (cmdname : CString) → (who : CommandSender) → (where' args : CString) → Exec (List WebCall) Int

/-- A call of the core. -/
def webCall (call : WebCall) : Exec (List WebCall) Unit :=
  Exec.modify (· ++ [call])

/-- `send_http_request`, with `server` for what curl does with a URL. -/
def sendHttpRequest (server : CString → CurlReply) (url : CString) :
    Exec (List WebCall) (Option Buffer) := do
  webCall (.request url)
  return (server url).buffer

@[simp] theorem webCall_apply (call : WebCall) (calls : List WebCall) :
    webCall call calls = (.returned (), calls ++ [call]) := rfl

@[simp] theorem sendHttpRequest_apply (server : CString → CurlReply) (url : CString)
    (calls : List WebCall) :
    sendHttpRequest server url calls = (.returned (server url).buffer, calls ++ [.request url]) :=
  rfl

/-! ## The buffer after a request -/

/-- The buffer that has the bytes `b` and a NUL behind them. -/
def Buffer.ofBytes (b : List UInt8) : Buffer where
  memory := some (b.map some ++ [some 0])
  size := b.length

/-- A successful append puts its data behind the bytes. -/
theorem bufferAppend_ofBytes (b : List UInt8) {chunk : CurlChunk} (h : chunk.realloc = true) :
    bufferAppend (.ofBytes b) chunk =
      (chunk.contents.length, .ofBytes (b ++ chunk.contents)) := by
  rw [bufferAppend, if_pos h]
  simp [Buffer.ofBytes]

/-- A callback that gets no memory takes all of its data only if there is none. -/
theorem bufferAppend_failed (buf : Buffer) {chunk : CurlChunk} (h : chunk.realloc = false)
    (htaken : (bufferAppend buf chunk).1 = chunk.contents.length) :
    (bufferAppend buf chunk).2 = buf ∧ chunk.contents = [] := by
  have hfailed : bufferAppend buf chunk = (0, buf) := by simp [bufferAppend, h]
  rw [hfailed] at htaken ⊢
  exact ⟨rfl, List.length_eq_zero_iff.1 htaken.symm⟩

/-- Once there are bytes in the buffer, callbacks that take all of their data add all of it. -/
theorem curlEasyPerform_ofBytes {chunks : List CurlChunk} : ∀ {b : List UInt8},
    (curlEasyPerform (.ofBytes b) chunks).1 = true →
    (curlEasyPerform (.ofBytes b) chunks).2 = .ofBytes (b ++ chunks.flatMap CurlChunk.contents) := by
  induction chunks with
  | nil => intro b _; simp [curlEasyPerform]
  | cons chunk chunks ih =>
    intro b hok
    unfold curlEasyPerform at hok ⊢
    simp only at hok ⊢
    split at hok
    · next htaken =>
      rw [if_pos htaken]
      cases hreal : chunk.realloc with
      | true =>
        rw [bufferAppend_ofBytes b hreal] at hok ⊢
        rw [ih hok, List.flatMap_cons, List.append_assoc]
      | false =>
        obtain ⟨hsame, hempty⟩ := bufferAppend_failed _ hreal htaken
        rw [hsame] at hok ⊢
        rw [ih hok, List.flatMap_cons, hempty, List.nil_append]
    · cases hok

/-- Callbacks that take all of their data leave all of it in an empty buffer, unless none of them
got memory. -/
theorem curlEasyPerform_empty {chunks : List CurlChunk} {buf : Buffer} (hsize : buf.size = 0)
    (hok : (curlEasyPerform buf chunks).1 = true) :
    (∃ chunk ∈ chunks, chunk.realloc = true) ∧
        (curlEasyPerform buf chunks).2 = .ofBytes (chunks.flatMap CurlChunk.contents) ∨
      (¬ ∃ chunk ∈ chunks, chunk.realloc = true) ∧ chunks.flatMap CurlChunk.contents = [] ∧
        (curlEasyPerform buf chunks).2 = buf := by
  induction chunks with
  | nil => exact .inr ⟨by simp, rfl, rfl⟩
  | cons chunk chunks ih =>
    unfold curlEasyPerform at hok ⊢
    simp only at hok ⊢
    split at hok
    · next htaken =>
      rw [if_pos htaken]
      cases hreal : chunk.realloc with
      | true =>
        have happend : bufferAppend buf chunk =
            (chunk.contents.length, .ofBytes chunk.contents) := by
          rw [bufferAppend, if_pos hreal]
          simp [Buffer.ofBytes, hsize]
        rw [happend] at hok ⊢
        exact .inl ⟨⟨chunk, .head _, hreal⟩, curlEasyPerform_ofBytes hok⟩
      | false =>
        obtain ⟨hsame, hempty⟩ := bufferAppend_failed _ hreal htaken
        rw [hsame] at hok ⊢
        rcases ih hok with ⟨⟨c, hc, hcreal⟩, hbuf⟩ | ⟨hnone, hnil, hbuf⟩
        · refine .inl ⟨⟨c, .tail _ hc, hcreal⟩, ?_⟩
          rw [hbuf, List.flatMap_cons, hempty, List.nil_append]
        · refine .inr ⟨?_, by rw [List.flatMap_cons, hempty, hnil, List.nil_append], hbuf⟩
          rintro ⟨c, hc, hcreal⟩
          rcases List.mem_cons.1 hc with rfl | hc
          · rw [hreal] at hcreal
            cases hcreal
          · exact hnone ⟨c, hc, hcreal⟩
    · cases hok

/-- A successful request leaves the body in the buffer, or a block without contents where no chunk
was appended; the body is then empty. -/
theorem CurlReply.buffer_eq {reply : CurlReply} {buf : Buffer} (h : reply.buffer = some buf) :
    reply.Delivered ∧ buf = .ofBytes reply.body ∨
      ¬ reply.Delivered ∧ reply.body = [] ∧
        buf = { memory := if reply.malloc then some [none] else none, size := 0 } := by
  simp only [CurlReply.buffer, Option.ite_none_right_eq_some, Bool.and_eq_true,
    Option.some.injEq] at h
  obtain ⟨⟨hok, -⟩, rfl⟩ := h
  exact curlEasyPerform_empty rfl hok

/-- The buffer has the chunks one behind the other, and behind them a NUL that has been written. -/
structure Buffer.Holds (buf : Buffer) (chunks : List CurlChunk) : Prop where
  size : buf.size = (chunks.map fun chunk => chunk.contents.length).sum
  bytes : (buf.memory.getD []).take buf.size = (chunks.flatMap CurlChunk.contents).map some
  nul : (buf.memory.getD [])[buf.size]? = some (some 0)

/-- The buffer for bytes holds the chunks that are made of them. -/
theorem Buffer.ofBytes_holds (chunks : List CurlChunk) :
    (Buffer.ofBytes (chunks.flatMap CurlChunk.contents)).Holds chunks where
  size := List.length_flatMap
  bytes := by
    simp only [Buffer.ofBytes, Option.getD_some]
    exact List.take_left' (List.length_map _)
  nul := by
    simp only [Buffer.ofBytes, Option.getD_some]
    rw [List.getElem?_append_right (List.length_map _).le, List.length_map, Nat.sub_self]
    rfl

/-- When `send_http_request` returns `CURLE_OK`, the buffer has the chunks with a NUL behind them if
and only if some chunk was appended. Else `memory` is the byte of `malloc(1)`, which nothing has
written. -/
theorem CurlReply.buffer_holds_iff {reply : CurlReply} {buf : Buffer} (h : reply.buffer = some buf) :
    buf.Holds reply.chunks ↔ reply.Delivered := by
  rcases CurlReply.buffer_eq h with ⟨hdelivered, rfl⟩ | ⟨hnot, -, rfl⟩
  · exact ⟨fun _ => hdelivered, fun _ => Buffer.ofBytes_holds reply.chunks⟩
  · refine ⟨fun hholds => ?_, fun hdelivered => absurd hdelivered hnot⟩
    have hnul := hholds.nul
    cases hmalloc : reply.malloc <;> simp [hmalloc] at hnul

/-- A response of two chunks is in the buffer. -/
theorem CurlReply.buffer_holds_iff_chunks :
    CurlReply.buffer ⟨true, [⟨[72], true⟩, ⟨[105], true⟩], true⟩ = some (Buffer.ofBytes [72, 105]) ∧
      (Buffer.ofBytes [72, 105]).Holds [⟨[72], true⟩, ⟨[105], true⟩] :=
  ⟨rfl, (@CurlReply.buffer_holds_iff ⟨true, [⟨[72], true⟩, ⟨[105], true⟩], true⟩ _ rfl).2
    ⟨⟨[72], true⟩, .head _, rfl⟩⟩

/-- A response without a body: the request succeeds, and the byte at `memory[size]` has not been
written. -/
theorem CurlReply.buffer_not_holds_empty :
    ∃ buf, CurlReply.buffer ⟨true, [], true⟩ = some buf ∧ ¬ buf.Holds [] := by
  refine ⟨_, rfl, fun hholds => ?_⟩
  exact absurd hholds.nul (by decide)

/-! ## Strings in a block -/

/-- Reading a block that holds bytes and a NUL behind them, from its start. -/
theorem readStr_ofBytes {n : Nat} (b : List UInt8) (rest : List (Option UInt8)) (hn : b.length < n) :
    readStr n (b.map some ++ some 0 :: rest) = some (CString.ofBytes b).bytes := by
  induction b generalizing n with
  | nil => cases n with
    | zero => cases hn
    | succ n => rfl
  | cons c b ih => cases n with
    | zero => cases hn
    | succ n =>
      rw [List.length_cons] at hn
      simp only [List.map_cons, List.cons_append, readStr]
      by_cases hc : c = 0
      · simp [hc, CString.ofBytes]
      · rw [if_neg hc, ih (by omega)]
        simp [CString.ofBytes, hc]

end MinervaBot
