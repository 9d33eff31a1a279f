import MinervaBot.Lib.Exec
import MinervaBot.WebModules

/-!
# The loop that copies a literal, in memory

The loop of `bot_urban` and `bot_google` as it runs: `curl_buf` and `last_idx` are indices of the
block, `n` one of `url`, and the bytes between `last_idx` and `curl_buf` are copied late, at an
escape or behind the loop. `LiteralVars.Tracks` relates its variables to the lists of
`unescapeLoop`, and `LiteralVars.Tracks.loop` says that it does what `unescapeLoop` does.
`literalLoop_url` is what the loop leaves in `url` for a literal that is closed.
-/

namespace MinervaBot

open Lib

/-- The variables of the loop, with the indices of the block that it has read and the indices of
`url` that it has written. -/
structure LiteralVars where
  curlBuf : Nat
  lastIdx : Nat
  n : Int
  url : Mem
  reads : List Nat
  writes : List Int

/-- The variables before the loop, for a literal that starts at index `start`. -/
def LiteralVars.init (start : Nat) (url : Mem) : LiteralVars where
  curlBuf := start
  lastIdx := start
  n := 0
  url := url.write 0 0
  reads := []
  writes := [0]

namespace LiteralVars

/-- `*curl_buf`. -/
def read (v : LiteralVars) : LiteralVars :=
  { v with reads := v.reads ++ [v.curlBuf] }

/-- `curl_buf++`. -/
def next (v : LiteralVars) : LiteralVars :=
  { v with curlBuf := v.curlBuf + 1 }

/-- `memcpy(url+n, last_idx, len)`. -/
def memcpy (memory : List (Option UInt8)) (len : Nat) (v : LiteralVars) : LiteralVars :=
  { v with
    url := v.url.copy v.n (((memory.drop v.lastIdx).take len).map (·.getD 0))
    reads := v.reads ++ List.range' v.lastIdx len
    writes := v.writes ++ (List.range len).map fun (i : Nat) => v.n + i }

/-- `n += d`. -/
def add (d : Int) (v : LiteralVars) : LiteralVars :=
  { v with n := v.n + d }

/-- `last_idx = curl_buf+1`. -/
def skip (v : LiteralVars) : LiteralVars :=
  { v with lastIdx := v.curlBuf + 1 }

/-- `url[i] = c`. -/
def put (i : Int) (c : UInt8) (v : LiteralVars) : LiteralVars :=
  { v with url := v.url.write i c, writes := v.writes ++ [i] }

/-- `curl_buf-last_idx`. -/
def pending (v : LiteralVars) : Int :=
  (v.curlBuf : Int) - v.lastIdx

/-- The copy of the bytes before a backslash, with `curl_buf` behind it: `n` grows by `d`, and the
escape is skipped. -/
def copyBefore (memory : List (Option UInt8)) (d : Int) (v : LiteralVars) : LiteralVars :=
  ((v.memcpy memory (v.pending - 1).toNat).add d).skip

/-- The branches for the byte behind a backslash, at `curl_buf`. -/
def escape (memory : List (Option UInt8)) (d : UInt8) (v : LiteralVars) : LiteralVars :=
  if d = 92 ∨ d = 34 then
    let v := v.copyBefore memory v.pending
    (v.put (v.n - 1) d).put v.n 0
  else if d = 114 then
    let v := v.copyBefore memory (v.pending - 1)
    v.put v.n 0
  else if d = 110 ∨ d = 116 then
    let v := v.copyBefore memory v.pending
    (v.put (v.n - 1) 32).put v.n 0
  else v

/-- What follows the loop: the last copy and the terminator. -/
def finish (memory : List (Option UInt8)) (v : LiteralVars) : LiteralVars :=
  let v := (v.memcpy memory v.pending.toNat).add v.pending
  v.put v.n 0

end LiteralVars

/-- The loop and what follows it. `cells` is the block from `curl_buf` on; a read behind the block,
or of an indeterminate byte, is undefined. -/
def literalLoop (memory : List (Option UInt8)) :
    (cells : List (Option UInt8)) → Exec LiteralVars Unit
  | [], v | none :: _, v => (.undefined, v.read)
  | some c :: cells, v =>
    if c = 0 ∨ c = 34 ∨ ¬ v.pending + v.n < nMax then (.returned (), v.read.finish memory)
    else if c = 92 then
      match cells with
      | [] | none :: _ => (.undefined, v.read.next.read)
      -- the byte behind the backslash is passed over without a test, also where it is NUL
      | some d :: cells => literalLoop memory cells (v.read.next.read.escape memory d).next
    else literalLoop memory cells v.read.next

/-- The handlers that have the loop. -/
inductive LiteralHandler where
  | urban
  | google
  deriving DecidableEq

namespace LiteralHandler

/-- The index in the response at which the literal starts. -/
def start : LiteralHandler → Nat
  | .urban => 24
  | .google => 4

/-- The size that a response must have. -/
def minSize : LiteralHandler → Nat
  | .urban => 25
  | .google => 30

/-- `sizeof(url)`. -/
def urlSize : LiteralHandler → Int
  | .urban => 512
  | .google => 1024

/-- The loop of a handler. -/
def loop (h : LiteralHandler) (buf : Buffer) (url : Mem) : Outcome Unit × LiteralVars :=
  literalLoop buf.cells (buf.cells.drop h.start) (.init h.start url)

/-- The check of a handler and its loop, `none` for a response that is too short. -/
def copyLiteral (h : LiteralHandler) (buf : Buffer) (url : Mem) :
    Option (Outcome Unit × LiteralVars) :=
  if buf.size < h.minSize then none else some (h.loop buf url)

end LiteralHandler

/-! ## The loop does what the loop on lists does -/

namespace LiteralVars

/-- The variables stand for the lists of `unescapeLoop`: `url` is what has been copied, `pending`
the bytes from `last_idx` to `curl_buf`, and the block goes on with `cells`. -/
structure Tracks (memory : List (Option UInt8)) (v : LiteralVars) (url pending : List UInt8)
    (cells : List (Option UInt8)) : Prop where
  n : v.n = url.length
  bytes : v.url.HasBytes 0 url
  cursor : v.curlBuf = v.lastIdx + pending.length
  text : memory.drop v.lastIdx = pending.map some ++ cells

variable {memory cells : List (Option UInt8)} {v : LiteralVars} {url pending : List UInt8} {d : UInt8}

/-- Before the loop nothing is copied or pending. -/
theorem init_tracks (memory : List (Option UInt8)) (start : Nat) (url : Mem) :
    (init start url).Tracks memory [] [] (memory.drop start) where
  n := rfl
  bytes := nofun
  cursor := rfl
  text := rfl

namespace Tracks

theorem pending_eq (h : v.Tracks memory url pending cells) : v.pending = pending.length := by
  rw [LiteralVars.pending, h.cursor]
  omega

/-- What is left to copy counts with what is copied. -/
theorem limit_iff (h : v.Tracks memory url pending cells) :
    v.pending + v.n < nMax ↔ pending.length + url.length < nMax := by
  rw [h.pending_eq, h.n]
  omega

/-- The block behind the bytes at the cursor. -/
theorem drop_eq (h : v.Tracks memory url pending cells) : memory.drop v.curlBuf = cells := by
  rw [h.cursor, ← List.drop_drop, h.text]
  simp

/-- The late copy puts the bytes pending behind those copied. -/
theorem memcpy (h : v.Tracks memory url pending cells) :
    (v.memcpy memory pending.length).url.HasBytes 0 (url ++ pending) := by
  have hsource : ((memory.drop v.lastIdx).take pending.length).map (·.getD 0) = pending := by
    rw [h.text, List.take_left' (List.length_map _), List.map_map]
    exact List.map_id _
  have htarget : v.n = 0 + (url.length : Int) := h.n.trans (Int.zero_add _).symm
  simp only [LiteralVars.memcpy]
  rw [hsource, htarget]
  exact h.bytes.copy_append pending

/-- A byte that is left for a late copy. -/
theorem plain {c : UInt8} (h : v.Tracks memory url pending (some c :: cells)) :
    v.read.next.Tracks memory url (pending ++ [c]) cells where
  n := h.n
  bytes := h.bytes
  cursor := by
    simp only [next, read, h.cursor, List.length_append, List.length_singleton]
    omega
  text := by
    simp only [next, read, h.text, List.map_append, List.map_cons, List.map_nil,
      List.append_assoc, List.cons_append, List.nil_append]

/-- With the cursor at the byte behind a backslash, one byte more than those pending. -/
theorem pending_escape (h : v.Tracks memory url pending cells) :
    v.read.next.read.pending = pending.length + 1 := by
  simp only [LiteralVars.pending, read, next, h.cursor]
  omega

/-- The block behind an escape. -/
theorem drop_escape {c : Option UInt8} (h : v.Tracks memory url pending (c :: some d :: cells)) :
    memory.drop (v.curlBuf + 2) = cells := by
  rw [← List.drop_drop, h.drop_eq]
  rfl

/-- The copy at an escape puts the bytes pending behind those copied. -/
theorem copyBefore_bytes (h : v.Tracks memory url pending cells) (k : Int) :
    (v.read.next.read.copyBefore memory k).url.HasBytes 0 (url ++ pending) := by
  have hlen : (v.read.next.read.pending - 1).toNat = pending.length := by
    rw [h.pending_escape]
    omega
  have hcopy := h.memcpy
  rw [← hlen] at hcopy
  exact hcopy

/-- An escape for which `url` gets a byte `e`. -/
theorem replaced {c : Option UInt8} (h : v.Tracks memory url pending (c :: some d :: cells))
    (e : UInt8) :
    let w := v.read.next.read.copyBefore memory v.read.next.read.pending
    ((w.put (w.n - 1) e).put w.n 0).next.Tracks memory (url ++ pending ++ [e]) [] cells := by
  have hn : (v.read.next.read.copyBefore memory v.read.next.read.pending).n =
      (url ++ pending).length + 1 := by
    show v.n + v.read.next.read.pending = _
    rw [h.pending_escape, h.n, List.length_append]
    omega
  have hsnoc := (h.copyBefore_bytes v.read.next.read.pending).snoc e
  intro w
  refine ⟨hn.trans ?_, ?_, rfl, ?_⟩
  · simp only [List.length_append, List.length_singleton]
    omega
  · have hlast : w.n - 1 = 0 + (url ++ pending).length := by
      rw [hn]
      omega
    show ((w.url.write (w.n - 1) e).write w.n 0).HasBytes 0 _
    rw [hlast]
    refine hsnoc.write 0 (.inr ?_)
    rw [hn]
    simp only [List.length_append, List.length_singleton]
    omega
  · exact h.drop_escape

/-- An escape that is dropped. -/
theorem dropped {c : Option UInt8} (h : v.Tracks memory url pending (c :: some d :: cells)) :
    let w := v.read.next.read.copyBefore memory (v.read.next.read.pending - 1)
    (w.put w.n 0).next.Tracks memory (url ++ pending) [] cells := by
  have hn : (v.read.next.read.copyBefore memory (v.read.next.read.pending - 1)).n =
      (url ++ pending).length := by
    show v.n + (v.read.next.read.pending - 1) = _
    rw [h.pending_escape, h.n, List.length_append]
    omega
  intro w
  refine ⟨hn, ?_, rfl, h.drop_escape⟩
  exact (h.copyBefore_bytes _).write 0 (.inr (by rw [hn]; omega))

/-- An escape that is left for a late copy. -/
theorem kept {c : UInt8} (h : v.Tracks memory url pending (some c :: some d :: cells)) :
    v.read.next.read.next.Tracks memory url (pending ++ [c, d]) cells where
  n := h.n
  bytes := h.bytes
  cursor := by
    simp only [next, read, h.cursor, List.length_append, List.length_cons, List.length_nil]
    omega
  text := by
    simp only [next, read, h.text, List.map_append, List.map_cons, List.map_nil,
      List.append_assoc, List.cons_append, List.nil_append]

/-- The copy behind the loop leaves the bytes copied, those pending and a terminator. -/
theorem finish (h : v.Tracks memory url pending cells) :
    (v.read.finish memory).url.HasBytes 0 (url ++ pending ++ [0]) := by
  have hpending : v.read.pending = pending.length := h.pending_eq
  have hn : v.read.n + v.read.pending = 0 + (url ++ pending).length := by
    rw [hpending, List.length_append]
    have hn := h.n
    simp only [read]
    omega
  show ((v.read.memcpy memory v.read.pending.toNat).url.write (v.read.n + v.read.pending)
    0).HasBytes 0 _
  rw [hn, hpending]
  exact h.memcpy.snoc 0

/-- One escape: the variables go to lists to which `unescapeLoop` goes, and these grow by at most
two bytes. -/
theorem escape (h : v.Tracks memory url pending (some 92 :: some d :: cells))
    (hgo : url.length + pending.length < nMax) :
    ∃ url' pending',
      (v.read.next.read.escape memory d).next.Tracks memory url' pending' cells ∧
      url'.length + pending'.length ≤ url.length + pending.length + 2 ∧
      unescapeLoop nMax url pending (some 92 :: some d :: cells) =
        unescapeLoop nMax url' pending' cells := by
  have hstop := not_unescapeLoop_stop (c := 92) (by decide) (by decide) hgo
  rw [unescapeLoop.eq_def]
  simp only [if_neg hstop, if_true, LiteralVars.escape]
  split
  · exact ⟨_, _, h.replaced d, by simp; omega, rfl⟩
  split
  · exact ⟨_, _, h.dropped, by simp, rfl⟩
  split
  · exact ⟨_, _, h.replaced 32, by simp; omega, rfl⟩
  · exact ⟨_, _, h.kept, by simp; omega, rfl⟩

/-- Both loops stop at the same byte. -/
theorem stop_iff (h : v.Tracks memory url pending cells) (c : UInt8) :
    (c = 0 ∨ c = 34 ∨ ¬ v.pending + v.n < nMax) ↔
      (c = 0 ∨ c = 34 ∨ ¬ pending.length + url.length < nMax) := by
  rw [h.limit_iff]

end Tracks

/-- A run of the loop ends as one of `unescapeLoop` does, with its text and a terminator in `url`.
-/
def Leaves (r : Outcome Unit × LiteralVars) : Option (List UInt8) → Prop
  | none => r.1 = .undefined
  | some u => r.1 = .returned () ∧ r.2.url.HasBytes 0 (u ++ [0])

/-- The loop does what `unescapeLoop` does. Induction on the loop. -/
theorem Tracks.loop : ∀ {cells : List (Option UInt8)} {v : LiteralVars} {url pending : List UInt8},
    v.Tracks memory url pending cells →
      Leaves (literalLoop memory cells v) (unescapeLoop nMax url pending cells) := by
  intro cells v
  induction cells, v using literalLoop.induct memory with
  | case1 v | case2 v => exact fun _ => rfl
  | case3 c cells v hstop =>
    intro url pending h
    rw [literalLoop.eq_def, unescapeLoop.eq_def]
    simp only [if_pos hstop, if_pos ((h.stop_iff c).1 hstop)]
    exact ⟨rfl, h.finish⟩
  | case4 v hgo | case5 v _ hgo =>
    intro url pending h
    have hgo' := mt (h.stop_iff 92).2 hgo
    rw [literalLoop.eq_def, unescapeLoop.eq_def]
    simp only [if_neg hgo, if_neg hgo', if_true]
    rfl
  | case6 v d cells hgo ih =>
    intro url pending h
    have hgo' := mt (h.stop_iff 92).2 hgo
    obtain ⟨url', pending', htracks, -, hstep⟩ := h.escape (by omega)
    rw [hstep, literalLoop.eq_def]
    simp only [if_neg hgo, if_true]
    exact ih htracks
  | case7 c cells v hgo h92 ih =>
    intro url pending h
    have hgo' := mt (h.stop_iff c).2 hgo
    rw [literalLoop.eq_def, unescapeLoop.eq_def]
    simp only [if_neg hgo, if_neg hgo', if_neg h92]
    exact ih h.plain

end LiteralVars

/-- In a buffer, the loop of a handler does what `unescapeLoop` does from the start of the literal.
-/
theorem LiteralHandler.loop_leaves (h : LiteralHandler) (buf : Buffer) (url : Mem) :
    LiteralVars.Leaves (h.loop buf url) (unescapeLoop nMax [] [] (buf.cells.drop h.start)) :=
  (LiteralVars.init_tracks buf.cells h.start url).loop

/-! ## Literals that are closed -/

/-- A token of a literal: a byte that neither ends it nor begins an escape, or a backslash with a
byte other than NUL behind it. -/
def Token.InLiteral : Token → Prop
  | .plain c => c ≠ 0 ∧ c ≠ 34 ∧ c ≠ 92
  | .escaped d => d ≠ 0

instance : DecidablePred Token.InLiteral
  | .plain c => inferInstanceAs (Decidable (¬ c = 0 ∧ ¬ c = 34 ∧ ¬ c = 92))
  | .escaped d => inferInstanceAs (Decidable (¬ d = 0))

/-- With `n` bytes of output before the tokens, there are fewer than `nMax` before each of them. -/
def Below (nMax n : Nat) (ts : List Token) : Prop :=
  ∀ before t, before ++ [t] <+: ts → n + (renderedText before).length < nMax

/-- `taken` is the longest prefix of the tokens with fewer than `nMax` bytes of output before each
token. -/
structure Taken (nMax n : Nat) (ts taken : List Token) : Prop where
  isPrefix : taken <+: ts
  below : Below nMax n taken
  longest : ∀ p, p <+: ts → Below nMax n p → p.length ≤ taken.length

theorem Token.InLiteral.valid {t : Token} (h : t.InLiteral) : t.Valid := by
  cases t with
  | plain c => exact h
  | escaped d => exact trivial

/-- The first token counts for those behind it. -/
theorem below_cons_iff {nMax n : Nat} {t : Token} {ts : List Token} :
    Below nMax n (t :: ts) ↔ n < nMax ∧ Below nMax (n + t.rendered.length) ts := by
  constructor
  · intro h
    refine ⟨h [] t ⟨ts, rfl⟩, fun before u hu => ?_⟩
    have hbefore := h (t :: before) u (List.cons_prefix_cons.2 ⟨rfl, hu⟩)
    rw [renderedText_cons, List.length_append] at hbefore
    omega
  · rintro ⟨hn, h⟩ before u hu
    cases before with
    | nil => exact hn
    | cons b before =>
      obtain ⟨rfl, hbu⟩ := List.cons_prefix_cons.1 hu
      have hbefore := h before u hbu
      rw [renderedText_cons, List.length_append]
      omega

/-- Of a literal, the loop reads the longest prefix that the limit allows. Induction on the tokens.
-/
theorem exists_reads_taken (nMax : Nat) (rest : List UInt8) {ts : List Token} :
    ∀ {n : Nat}, (∀ t ∈ ts, t.InLiteral) →
      ∃ taken, Taken nMax n ts taken ∧
        Reads nMax n (ts.flatMap Token.source ++ 34 :: rest) taken := by
  have hnil : ∀ n, Below nMax n [] := fun n before t h => by simp at h
  induction ts with
  | nil =>
    intro n _
    refine ⟨[], ⟨List.prefix_refl _, hnil n, fun p hp _ => ?_⟩, .stop (.inr (.inl rfl))⟩
    rw [List.prefix_nil.1 hp]
  | cons t ts ih =>
    intro n hts
    by_cases hn : n < nMax
    · obtain ⟨taken, ⟨htaken, hbelow, hlongest⟩, hreads⟩ :=
        ih (n := n + t.rendered.length) fun u hu => hts u (.tail _ hu)
      refine ⟨t :: taken, ⟨List.cons_prefix_cons.2 ⟨rfl, htaken⟩, below_cons_iff.2 ⟨hn, hbelow⟩,
        fun p hp hpbelow => ?_⟩, ?_⟩
      · cases p with
        | nil => exact Nat.zero_le _
        | cons u p =>
          obtain ⟨rfl, hpts⟩ := List.cons_prefix_cons.1 hp
          exact Nat.succ_le_succ (hlongest p hpts (below_cons_iff.1 hpbelow).2)
      · rw [List.flatMap_cons, List.append_assoc]
        exact .token hn (hts t (.head _)).valid hreads
    · refine ⟨[], ⟨List.nil_prefix, hnil n, fun p _ hpbelow => ?_⟩, ?_⟩
      · cases p with
        | nil => exact Nat.le_refl _
        | cons u p => exact absurd (below_cons_iff.1 hpbelow).1 hn
      · cases t with
        | plain c => exact .stop (.inr (.inr (Nat.not_lt.1 hn)))
        | escaped d => exact .stop (.inr (.inr (Nat.not_lt.1 hn)))

/-- A token is rendered with at most two bytes. -/
theorem Token.length_rendered_le (t : Token) : t.rendered.length ≤ 2 := by
  cases t with
  | plain c => exact Nat.le_succ 1
  | escaped d =>
    simp only [Token.rendered]
    split_ifs <;> simp

/-- The last token taken may take the output past the limit by a byte. -/
theorem length_renderedText_le {nMax n : Nat} {ts : List Token} (h : Below nMax n ts)
    (hn : n ≤ nMax + 1) : n + (renderedText ts).length ≤ nMax + 1 := by
  rcases List.eq_nil_or_concat ts with rfl | ⟨before, t, rfl⟩
  · exact hn
  · have hbefore := h before t (by simp)
    have ht := t.length_rendered_le
    simp only [renderedText, List.concat_eq_append, List.flatMap_append, List.flatMap_cons,
      List.flatMap_nil, List.append_nil, List.length_append] at hbefore ⊢
    omega

/-- The cells of a response from an index in it on. -/
theorem drop_cells_ofBytes {body : List UInt8} {k : Nat} (hk : k ≤ body.length) :
    (Buffer.ofBytes body).cells.drop k = (body.drop k ++ [0]).map some := by
  show (body.map some ++ [some 0]).drop k = _
  rw [List.drop_append_of_le_length (by rwa [List.length_map]), List.map_append, List.map_drop]
  rfl

/-- A response that passes the check has the literal's start in it. -/
theorem LiteralHandler.start_lt (h : LiteralHandler) {n : Nat} (hn : h.minSize ≤ n) :
    h.start < n := by
  cases h <;> exact Nat.lt_of_lt_of_le (by decide) hn

/-- For a response that passes the check of a handler and has a literal with the tokens `ts` and a
closing quote from the start on, the loop ends and leaves in `url` the text of the longest prefix of
the tokens that the limit allows, and a terminator. -/
theorem copyLiteral_closed (h : LiteralHandler) {body rest : List UInt8} {ts : List Token}
    (url : Mem) (hsize : h.minSize ≤ body.length)
    (htext : body.drop h.start = ts.flatMap Token.source ++ 34 :: rest)
    (hts : ∀ t ∈ ts, t.InLiteral) :
    ∃ v taken, h.copyLiteral (.ofBytes body) url = some (.returned (), v) ∧
      Taken 400 0 ts taken ∧ v.url.HasBytes 0 (renderedText taken ++ [0]) ∧
      (renderedText taken).length ≤ 401 := by
  obtain ⟨taken, htaken, hreads⟩ := exists_reads_taken nMax (rest ++ [0]) (n := 0) hts
  have hcells : (Buffer.ofBytes body).cells.drop h.start =
      (ts.flatMap Token.source ++ 34 :: (rest ++ [0])).map some := by
    rw [drop_cells_ofBytes (h.start_lt hsize).le, htext, List.append_assoc, List.cons_append]
  have hunescape := unescapeLoop_of_reads hreads [] [] rfl
  have hleaves := h.loop_leaves (.ofBytes body) url
  rw [hcells, hunescape] at hleaves
  obtain ⟨hreturned, hbytes⟩ := hleaves
  have hlen := length_renderedText_le htaken.below (Nat.zero_le _)
  refine ⟨(h.loop (.ofBytes body) url).2, taken, ?_, htaken, hbytes, ?_⟩
  · have hpass : ¬ (Buffer.ofBytes body).size < h.minSize := Nat.not_lt.2 hsize
    rw [LiteralHandler.copyLiteral, if_neg hpass, ← hreturned]
  · rwa [Nat.zero_add] at hlen

/-- A definition with a line break. -/
theorem copyLiteral_closed_break :
    ∃ v taken, LiteralHandler.urban.copyLiteral
        (.ofBytes (List.replicate 24 32 ++ [92, 110, 97, 34])) (fun _ => 0) = some (.returned (), v) ∧
      Taken 400 0 [.escaped 110, .plain 97] taken ∧
      v.url.HasBytes 0 (renderedText taken ++ [0]) ∧ (renderedText taken).length ≤ 401 :=
  @copyLiteral_closed .urban _ [] _ _ (by decide) (by decide) (by decide)

end MinervaBot
