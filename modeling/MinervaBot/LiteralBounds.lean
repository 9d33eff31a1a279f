import MinervaBot.LiteralLoop

/-!
# The indices that the loop accesses

`buffer_append` leaves a NUL behind the response, at index `size`, and the loop stops at a NUL. It
does not test the byte behind a backslash, though: where the response ends in a backslash that the
loop comes to, the cursor passes the NUL and the next byte read is behind the block. `url` has room
for every response (`literalLoop_inBounds_iff`).
-/

namespace MinervaBot

open Lib

/-- With `n` bytes of output before, the loop comes to a backslash at the end of the text before the
limit. -/
def BackslashAtEnd (nMax n : Nat) (text : List UInt8) : Prop :=
  ∃ ts : List Token, (∀ t ∈ ts, t.Valid) ∧ text = ts.flatMap Token.source ++ [92] ∧
    n + (renderedText ts).length < nMax

/-- No byte behind the NUL at `size` has been read, and none behind `url` has been written. -/
def LiteralHandler.InBounds (h : LiteralHandler) (size : Nat) (v : LiteralVars) : Prop :=
  (∀ i ∈ v.reads, i ≤ size) ∧ ∀ i ∈ v.writes, 0 ≤ i ∧ i < h.urlSize

/-! ## What is read of a text with its terminator -/

/-- A text starts with one token only. -/
theorem Token.source_append_inj {t u : Token} {b c : List UInt8} (ht : t.Valid) (hu : u.Valid)
    (h : t.source ++ b = u.source ++ c) : t = u ∧ b = c := by
  cases t with
  | plain x =>
    cases u with
    | plain y =>
      obtain ⟨rfl, rfl⟩ := List.cons.inj h
      exact ⟨rfl, rfl⟩
    | escaped e => exact absurd (List.cons.inj h).1 ht.2.2
  | escaped d =>
    cases u with
    | plain y => exact absurd (List.cons.inj h).1.symm hu.2.2
    | escaped e =>
      obtain ⟨rfl, rfl⟩ := List.cons.inj (List.cons.inj h).2
      exact ⟨rfl, rfl⟩

/-- Before the limit, the token at the start of a text is read. -/
theorem Reads.of_token {nMax n : Nat} {t : Token} {b : List UInt8} {ts : List Token}
    (h : Reads nMax n (t.source ++ b) ts) (ht : t.Valid) (hn : n < nMax) :
    ∃ us, Reads nMax (n + t.rendered.length) b us := by
  generalize htext : t.source ++ b = text at h
  cases h with
  | @stop _ c b' hstop =>
    have hc : c ≠ 0 ∧ c ≠ 34 := by
      cases t with
      | plain x =>
        obtain ⟨rfl, -⟩ := List.cons.inj htext
        exact ⟨ht.1, ht.2.1⟩
      | escaped d =>
        obtain ⟨rfl, -⟩ := List.cons.inj htext
        exact ⟨by decide, by decide⟩
    rcases hstop with h0 | h34 | hlimit
    · exact absurd h0 hc.1
    · exact absurd h34 hc.2
    · exact absurd hn (Nat.not_lt.2 hlimit)
  | @token _ u c us _ hu hreads =>
    obtain ⟨rfl, rfl⟩ := Token.source_append_inj ht hu htext
    exact ⟨us, hreads⟩

/-- What is read ends at a byte. -/
theorem not_reads_nil {nMax n : Nat} {ts : List Token} : ¬ Reads nMax n [] ts := by
  intro h
  generalize htext : [] = text at h
  cases h with
  | stop => cases htext
  | @token _ t => cases t <;> cases htext

/-- A text that ends in a backslash is not read to its end. Induction on the tokens before. -/
theorem not_reads_backslash {nMax : Nat} {ts : List Token} : ∀ {n : Nat},
    (∀ t ∈ ts, t.Valid) → n + (renderedText ts).length < nMax →
      ¬ ∃ us, Reads nMax n (ts.flatMap Token.source ++ [92] ++ [0]) us := by
  induction ts with
  | nil =>
    rintro n _ hn ⟨us, hus⟩
    obtain ⟨vs, hvs⟩ := hus.of_token (t := .escaped 0) (b := []) trivial (by omega)
    exact not_reads_nil hvs
  | cons t ts ih =>
    rintro n hts hn ⟨us, hus⟩
    rw [renderedText_cons, List.length_append] at hn
    rw [List.flatMap_cons, List.append_assoc, List.append_assoc] at hus
    have hrest := hus.of_token (hts t (.head _)) (by omega)
    rw [← List.append_assoc] at hrest
    exact ih (fun u hu => hts u (.tail _ hu)) (by omega) hrest

/-- A token before a text that is read to a stop, or ends in a backslash. -/
theorem reads_or_backslashAtEnd_token {nMax n : Nat} {t : Token} {text : List UInt8} (ht : t.Valid)
    (hn : n < nMax)
    (h : (∃ ts, Reads nMax (n + t.rendered.length) (text ++ [0]) ts) ∨
      BackslashAtEnd nMax (n + t.rendered.length) text) :
    (∃ ts, Reads nMax n (t.source ++ text ++ [0]) ts) ∨ BackslashAtEnd nMax n (t.source ++ text) := by
  rcases h with ⟨ts, hts⟩ | ⟨ts, hvalid, rfl, hlt⟩
  · refine .inl ⟨t :: ts, ?_⟩
    rw [List.append_assoc]
    exact .token hn ht hts
  · refine .inr ⟨t :: ts, List.forall_mem_cons.2 ⟨ht, hvalid⟩, by simp, ?_⟩
    rw [renderedText_cons, List.length_append]
    omega

/-- A text is read to a stop, or it ends in a backslash. Induction on its length. -/
theorem reads_or_backslashAtEnd (nMax k : Nat) : ∀ {n : Nat} {text : List UInt8},
    text.length ≤ k → (∃ ts, Reads nMax n (text ++ [0]) ts) ∨ BackslashAtEnd nMax n text := by
  induction k with
  | zero =>
    intro n text hk
    obtain rfl := List.length_eq_zero_iff.1 (Nat.le_zero.1 hk)
    exact .inl ⟨[], .stop (.inl rfl)⟩
  | succ k ih =>
    intro n text hk
    cases text with
    | nil => exact .inl ⟨[], .stop (.inl rfl)⟩
    | cons c text =>
      rw [List.length_cons] at hk
      by_cases hstop : c = 0 ∨ c = 34 ∨ nMax ≤ n
      · exact .inl ⟨[], .stop hstop⟩
      simp only [not_or, Nat.not_le] at hstop
      obtain ⟨h0, h34, hn⟩ := hstop
      by_cases h92 : c = 92
      · subst h92
        cases text with
        | nil => exact .inr ⟨[], by simp, rfl, by simpa [renderedText] using hn⟩
        | cons d text =>
          rw [List.length_cons] at hk
          exact reads_or_backslashAtEnd_token (t := .escaped d) trivial hn (ih (by omega))
      · exact reads_or_backslashAtEnd_token (t := .plain c) ⟨h0, h34, h92⟩ hn (ih (by omega))

/-- A text with its terminator is read to a stop if and only if the loop does not come to a
backslash at its end. -/
theorem exists_reads_iff {nMax n : Nat} {text : List UInt8} :
    (∃ ts, Reads nMax n (text ++ [0]) ts) ↔ ¬ BackslashAtEnd nMax n text := by
  constructor
  · rintro hreads ⟨ts, hts, rfl, hn⟩
    exact not_reads_backslash hts hn hreads
  · exact (reads_or_backslashAtEnd nMax text.length (Nat.le_refl _)).resolve_right

/-! ## The accesses of the loop -/

namespace LiteralVars

/-- No byte behind index `size` has been read, and `url` has been written up to the limit, the byte
that may lie over it and the terminator. -/
def Within (size : Nat) (v : LiteralVars) : Prop :=
  (∀ i ∈ v.reads, i ≤ size) ∧ ∀ i ∈ v.writes, 0 ≤ i ∧ i ≤ nMax + 1

variable {memory cells : List (Option UInt8)} {v : LiteralVars} {url pending : List UInt8}
  {size : Nat}

namespace Within

theorem read (h : v.Within size) (hc : v.curlBuf ≤ size) : v.read.Within size := by
  refine ⟨fun i hi => ?_, h.2⟩
  rcases List.mem_append.1 hi with hi | hi
  · exact h.1 i hi
  · rwa [List.mem_singleton.1 hi]

theorem put (h : v.Within size) {i : Int} (c : UInt8) (hi : 0 ≤ i ∧ i ≤ nMax + 1) :
    (v.put i c).Within size := by
  refine ⟨h.1, fun k hk => ?_⟩
  rcases List.mem_append.1 hk with hk | hk
  · exact h.2 k hk
  · rwa [List.mem_singleton.1 hk]

theorem memcpy (h : v.Within size) {len : Nat} (hlen : v.lastIdx + len ≤ size + 1) (h0 : 0 ≤ v.n)
    (hn : v.n + len ≤ nMax + 2) : (v.memcpy memory len).Within size := by
  refine ⟨fun i hi => ?_, fun i hi => ?_⟩
  · rcases List.mem_append.1 hi with hi | hi
    · exact h.1 i hi
    · rw [List.mem_range'_1] at hi
      omega
  · rcases List.mem_append.1 hi with hi | hi
    · exact h.2 i hi
    · obtain ⟨k, hk, rfl⟩ := List.mem_map.1 hi
      rw [List.mem_range] at hk
      omega

/-- The branches of an escape, before the limit. -/
theorem escape (h : v.Within size) (hlast : v.lastIdx + (v.pending - 1).toNat ≤ size + 1)
    (h0 : 0 ≤ v.n) (hpending : 1 ≤ v.pending) (hn : v.n + v.pending ≤ nMax) (d : UInt8) :
    (v.escape memory d).Within size := by
  have hcopy : (v.memcpy memory (v.pending - 1).toNat).Within size :=
    h.memcpy hlast h0 (by omega)
  have hreplace : ∀ e, (((v.copyBefore memory v.pending).put (v.n + v.pending - 1) e).put
      (v.n + v.pending) 0).Within size := fun e =>
    Within.put (Within.put hcopy e (by omega)) 0 (by omega)
  unfold LiteralVars.escape
  split
  · exact hreplace d
  split
  · exact Within.put (i := v.n + (v.pending - 1)) hcopy 0 (by omega)
  split
  · exact hreplace 32
  · exact h

/-- What follows the loop. -/
theorem finish (h : v.Within size) (hlast : v.lastIdx + v.pending.toNat ≤ size + 1) (h0 : 0 ≤ v.n)
    (hpending : 0 ≤ v.pending) (hn : v.n + v.pending ≤ nMax + 1) :
    (v.finish memory).Within size := by
  have hcopy : (v.memcpy memory v.pending.toNat).Within size := h.memcpy hlast h0 (by omega)
  exact Within.put (v := (v.memcpy memory v.pending.toNat).add v.pending) hcopy 0
    (i := v.n + v.pending) (by omega)

end Within

namespace Tracks

/-- The bytes at the cursor end the block. -/
theorem cursor_add (h : v.Tracks memory url pending cells) (hne : cells ≠ []) :
    v.curlBuf + cells.length = memory.length := by
  have hlen := congrArg List.length h.drop_eq
  have hpos := List.length_pos_iff.2 hne
  rw [List.length_drop] at hlen
  omega

/-- The bytes at the cursor are bytes of the block. -/
theorem mem_block (h : v.Tracks memory url pending cells) {c : Option UInt8} (hc : c ∈ cells) :
    c ∈ memory := by
  rw [← h.drop_eq] at hc
  exact List.mem_of_mem_drop hc

/-- The last copy and the terminator. -/
theorem finish_within (h : v.Tracks memory url pending cells) (hw : v.Within size)
    (hcursor : v.curlBuf ≤ size) (hout : url.length + pending.length ≤ nMax + 1) :
    (v.read.finish memory).Within size := by
  have hpending : v.read.pending = pending.length := h.pending_eq
  have hn : v.read.n = url.length := h.n
  have hlast : v.curlBuf = v.read.lastIdx + pending.length := h.cursor
  exact (hw.read hcursor).finish (by omega) (by omega) (by omega) (by omega)

/-- An escape before the limit, with the byte behind the backslash in the block. -/
theorem escape_within (h : v.Tracks memory url pending cells) (hw : v.Within size)
    (hcursor : v.curlBuf + 1 ≤ size) (hgo : url.length + pending.length < nMax) (d : UInt8) :
    (v.read.next.read.escape memory d).Within size := by
  have hpending := h.pending_escape
  have hn : v.read.next.read.n = url.length := h.n
  have hlast : v.curlBuf = v.read.next.read.lastIdx + pending.length := h.cursor
  have hread : v.read.next.Within size := hw.read (by omega)
  exact (hread.read hcursor).escape (by omega) (by omega) (by omega) (by omega) d

/-- With a block of `size + 1` determined bytes, the loop returns and stays inside, or it reads
behind the block. Induction on the loop. -/
theorem loop_within (hsize : memory.length = size + 1) (hnone : none ∉ memory) :
    ∀ {cells : List (Option UInt8)} {v : LiteralVars} {url pending : List UInt8},
      v.Tracks memory url pending cells → v.Within size →
      url.length + pending.length ≤ nMax + 1 →
      (literalLoop memory cells v).1 = .returned () ∧ (literalLoop memory cells v).2.Within size ∨
        (literalLoop memory cells v).1 = .undefined ∧
          ∃ i ∈ (literalLoop memory cells v).2.reads, size < i := by
  intro cells v
  induction cells, v using literalLoop.induct memory with
  | case1 v =>
    intro url pending h _ _
    have hbehind := List.drop_eq_nil_iff.1 h.drop_eq
    exact .inr ⟨rfl, v.curlBuf, by simp [literalLoop, LiteralVars.read], by omega⟩
  | case2 v cells =>
    intro url pending h _ _
    exact absurd (h.mem_block (.head _)) hnone
  | case3 c cells v hstop =>
    intro url pending h hw hout
    have hcursor := h.cursor_add (List.cons_ne_nil _ _)
    rw [List.length_cons] at hcursor
    rw [literalLoop.eq_def]
    simp only [if_pos hstop]
    exact .inl ⟨trivial, h.finish_within hw (by omega) hout⟩
  | case4 v hgo =>
    intro url pending h _ _
    have hcursor := h.cursor_add (List.cons_ne_nil _ _)
    rw [List.length_singleton] at hcursor
    rw [literalLoop.eq_def]
    simp only [if_neg hgo, if_true]
    exact .inr ⟨trivial, v.curlBuf + 1, by simp [LiteralVars.read, next], by omega⟩
  | case5 v cells hgo =>
    intro url pending h _ _
    exact absurd (h.mem_block (.tail _ (.head _))) hnone
  | case6 v d cells hgo ih =>
    intro url pending h hw hout
    have hgo' := mt (h.stop_iff 92).2 hgo
    have hcursor := h.cursor_add (List.cons_ne_nil _ _)
    rw [List.length_cons, List.length_cons] at hcursor
    obtain ⟨url', pending', htracks, hlen, -⟩ := h.escape (by omega)
    rw [literalLoop.eq_def]
    simp only [if_neg hgo, if_true]
    exact ih htracks (h.escape_within hw (by omega) (by omega) d) (by omega)
  | case7 c cells v hgo h92 ih =>
    intro url pending h hw hout
    have hgo' := mt (h.stop_iff c).2 hgo
    have hcursor := h.cursor_add (List.cons_ne_nil _ _)
    rw [List.length_cons] at hcursor
    rw [literalLoop.eq_def]
    simp only [if_neg hgo, if_neg h92]
    refine ih h.plain (hw.read (by omega)) ?_
    rw [List.length_append, List.length_singleton]
    omega

end Tracks

end LiteralVars

/-! ## The accesses for a response -/

/-- The loop returns if and only if it does not come to a backslash at the end of the response. -/
theorem LiteralHandler.loop_returned_iff (h : LiteralHandler) {body : List UInt8} (url : Mem)
    (hstart : h.start ≤ body.length) :
    (h.loop (.ofBytes body) url).1 = .returned () ↔ ¬ BackslashAtEnd nMax 0 (body.drop h.start) := by
  have hleaves := h.loop_leaves (.ofBytes body) url
  rw [drop_cells_ofBytes hstart] at hleaves
  rw [← exists_reads_iff]
  cases hloop : unescapeLoop nMax [] [] ((body.drop h.start ++ [0]).map some) with
  | none =>
    rw [hloop] at hleaves
    refine ⟨fun hret => ?_, fun ⟨ts, hts⟩ => ?_⟩
    · rw [hleaves] at hret
      cases hret
    · rw [unescapeLoop_of_reads hts [] [] rfl] at hloop
      cases hloop
  | some u =>
    rw [hloop] at hleaves
    obtain ⟨ts, hts, -⟩ := unescapeLoop_eq_some_iff.1 hloop
    exact ⟨fun _ => ⟨ts, hts⟩, fun _ => hleaves.1⟩

/-- `url` has room for the limit, the byte that may lie over it and the terminator. -/
theorem LiteralHandler.inBounds_of_within (h : LiteralHandler) {size : Nat} {v : LiteralVars}
    (hw : v.Within size) : h.InBounds size v := by
  refine ⟨hw.1, fun i hi => ⟨(hw.2 i hi).1, (hw.2 i hi).2.trans_lt ?_⟩⟩
  cases h <;> decide

/-- For a response that passes the check of a handler, the loop reads no byte behind the NUL that
`buffer_append` left and writes no byte behind `url`, if and only if it does not come to a backslash
at the end of the response before it has 400 bytes of output. -/
theorem literalLoop_inBounds_iff (h : LiteralHandler) {body : List UInt8} (url : Mem)
    (hsize : h.minSize ≤ body.length) :
    h.InBounds body.length (h.loop (.ofBytes body) url).2 ↔
      ¬ BackslashAtEnd 400 0 (body.drop h.start) := by
  have hcells : (Buffer.ofBytes body).cells = (body ++ [0]).map some := by
    rw [List.map_append]
    rfl
  have hlen : (Buffer.ofBytes body).cells.length = body.length + 1 := by
    rw [hcells, List.length_map, List.length_append, List.length_singleton]
  have hnone : none ∉ (Buffer.ofBytes body).cells := by simp [hcells]
  have hinit : (LiteralVars.init h.start url).Within body.length :=
    ⟨nofun, fun i hi => by rw [List.mem_singleton.1 hi]; decide⟩
  have hloop := LiteralVars.Tracks.loop_within hlen hnone
    (LiteralVars.init_tracks _ h.start url) hinit (Nat.zero_le _)
  rw [← nMax, ← h.loop_returned_iff url (h.start_lt hsize).le]
  rcases hloop with ⟨hreturned, hwithin⟩ | ⟨hundefined, i, hi, hout⟩
  · exact ⟨fun _ => hreturned, fun _ => h.inBounds_of_within hwithin⟩
  · refine ⟨fun hin => absurd (hin.1 i hi) (Nat.not_le.2 hout), fun hreturned => ?_⟩
    cases hundefined.symm.trans hreturned

/-- A definition that is cut off behind its closing quote is read inside the block. -/
theorem literalLoop_inBounds_iff_quote :
    LiteralHandler.urban.InBounds 26
        (LiteralHandler.urban.loop (.ofBytes (List.replicate 24 32 ++ [97, 34])) fun _ => 0).2 := by
  refine (@literalLoop_inBounds_iff .urban (List.replicate 24 32 ++ [97, 34]) _ (by decide)).2 ?_
  rintro ⟨ts, -, htext, -⟩
  have hlast := congrArg List.getLast? htext
  rw [List.getLast?_concat] at hlast
  cases hlast

/-- A response of 25 bytes that ends in a backslash: the byte at index 26 is read. -/
theorem literalLoop_not_inBounds :
    ¬ LiteralHandler.urban.InBounds 25
      (LiteralHandler.urban.loop (.ofBytes (List.replicate 24 32 ++ [92])) fun _ => 0).2 := by
  intro h
  exact absurd (h.1 26 (by decide)) (by decide)

end MinervaBot
