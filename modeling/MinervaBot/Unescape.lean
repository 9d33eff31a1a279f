import MinervaBot.Http

/-!
# String literals in responses

`bot_urban` and `bot_google` copy a JSON string literal out of a response with the same loop. It
reads tokens: a byte, or a backslash with the byte behind it, whatever that is. `Reads` is what it
reads of a text, and `unescapeLoop_eq_some_iff` says that the loop renders exactly the tokens it
reads; where it reads outside the block there are no such tokens.
-/

namespace MinervaBot

open Lib

/-- The loop of `handle_cmd` of `bot_urban` and `bot_google`, `N_MAX` being `nMax`: the text copied
to `url`, or `none` where it reads outside the block or an indeterminate byte. `url` are the first
`n` bytes of `url`, `pending` the bytes from `last_idx` to `curl_buf`, and the block goes on with
`cells` at `curl_buf`. -/
def unescapeLoop (nMax : Nat) : (url pending : List UInt8) → (cells : List (Option UInt8)) →
    Option (List UInt8)
  | _, _, [] => none
  | _, _, none :: _ => none
  | url, pending, some c :: cells =>
    if c = 0 ∨ c = 34 ∨ ¬ pending.length + url.length < nMax then some (url ++ pending)
    else if c = 92 then
      match cells with
      | [] => none
      | none :: _ => none
      | some d :: cells =>
        if d = 92 ∨ d = 34 then unescapeLoop nMax (url ++ pending ++ [d]) [] cells
        else if d = 114 then unescapeLoop nMax (url ++ pending) [] cells
        else if d = 110 ∨ d = 116 then unescapeLoop nMax (url ++ pending ++ [32]) [] cells
        else unescapeLoop nMax url (pending ++ [c, d]) cells
    else unescapeLoop nMax url (pending ++ [c]) cells

/-- A byte of a literal, or a backslash and the byte behind it. -/
inductive Token where
  | plain (c : UInt8)
  | escaped (d : UInt8)
  deriving DecidableEq

/-- The bytes of a token. -/
def Token.source : Token → List UInt8
  | .plain c => [c]
  | .escaped d => [92, d]

/-- What the loop makes of a token. -/
def Token.rendered : Token → List UInt8
  | .plain c => [c]
  | .escaped d =>
    if d = 92 ∨ d = 34 then [d] else if d = 114 then [] else if d = 110 ∨ d = 116 then [32]
    else [92, d]

/-- A byte that does not end the literal or begin an escape. -/
def Token.Valid : Token → Prop
  | .plain c => c ≠ 0 ∧ c ≠ 34 ∧ c ≠ 92
  | .escaped _ => True

instance (t : Token) : Decidable t.Valid := by
  cases t <;> unfold Token.Valid <;> infer_instance

/-- The text of tokens. -/
def renderedText (ts : List Token) : List UInt8 :=
  ts.flatMap Token.rendered

/-- Of the bytes, the tokens are read when `n` bytes have been rendered before: up to a NUL, a quote
or the byte at which `nMax` bytes have been rendered. -/
inductive Reads (nMax : Nat) : Nat → List UInt8 → List Token → Prop
  | stop {n : Nat} {c : UInt8} {b : List UInt8} : c = 0 ∨ c = 34 ∨ nMax ≤ n → Reads nMax n (c :: b) []
  | token {n : Nat} {t : Token} {b : List UInt8} {ts : List Token} : n < nMax → t.Valid →
      Reads nMax (n + t.rendered.length) b ts → Reads nMax n (t.source ++ b) (t :: ts)

/-! ## The loop reads tokens -/

@[simp] theorem renderedText_cons (t : Token) (ts : List Token) :
    renderedText (t :: ts) = t.rendered ++ renderedText ts := rfl

/-- At a byte that does not end the literal, before the limit, the loop goes on. -/
theorem not_unescapeLoop_stop {nMax : Nat} {url pending : List UInt8} {c : UInt8} (h0 : c ≠ 0)
    (h34 : c ≠ 34) (hn : url.length + pending.length < nMax) :
    ¬ (c = 0 ∨ c = 34 ∨ ¬ pending.length + url.length < nMax) := by
  rintro (h | h | h)
  · exact h0 h
  · exact h34 h
  · omega

/-- One token, read by the loop. What is rendered goes to `url` or to the bytes pending, and the
bytes pending may also be copied; both together grow by what is rendered. -/
theorem unescapeLoop_token {nMax : Nat} (url pending : List UInt8) {t : Token}
    (hn : url.length + pending.length < nMax) (ht : t.Valid) (cells : List (Option UInt8)) :
    ∃ url' pending', url' ++ pending' = url ++ pending ++ t.rendered ∧
      unescapeLoop nMax url pending (t.source.map some ++ cells) =
        unescapeLoop nMax url' pending' cells := by
  cases t with
  | plain c =>
    obtain ⟨h0, h34, h92⟩ := ht
    refine ⟨url, pending ++ [c], by simp [Token.rendered], ?_⟩
    simp only [Token.source, List.map_cons, List.map_nil, List.cons_append, List.nil_append]
    rw [unescapeLoop.eq_def]
    simp only [if_neg (not_unescapeLoop_stop h0 h34 hn), if_neg h92]
  | escaped d =>
    have hgo := not_unescapeLoop_stop (c := 92) (by decide) (by decide) hn
    simp only [Token.source, List.map_cons, List.map_nil, List.cons_append, List.nil_append]
    rw [unescapeLoop.eq_def]
    simp only [if_neg hgo, if_true, Token.rendered]
    split
    · exact ⟨_, [], by simp, rfl⟩
    · split
      · exact ⟨_, [], by simp, rfl⟩
      · split
        · exact ⟨_, [], by simp, rfl⟩
        · exact ⟨url, pending ++ [92, d], by simp, rfl⟩

/-- The loop renders the tokens it reads. -/
theorem unescapeLoop_of_reads {nMax n : Nat} {b : List UInt8} {ts : List Token}
    (h : Reads nMax n b ts) : ∀ url pending : List UInt8, url.length + pending.length = n →
      unescapeLoop nMax url pending (b.map some) = some (url ++ pending ++ renderedText ts) := by
  induction h with
  | @stop n c b hstop =>
    intro url pending hn
    have hend : c = 0 ∨ c = 34 ∨ ¬ pending.length + url.length < nMax := by
      rcases hstop with h | h | h
      · exact .inl h
      · exact .inr (.inl h)
      · exact .inr (.inr (by omega))
    rw [List.map_cons, unescapeLoop.eq_def]
    simp only [if_pos hend]
    simp [renderedText]
  | @token n t b ts hlt ht _ ih =>
    intro url pending hn
    obtain ⟨url', pending', happend, hstep⟩ :=
      unescapeLoop_token url pending (hn ▸ hlt) ht (b.map some)
    have hlen : url'.length + pending'.length = n + t.rendered.length := by
      have hlen := congrArg List.length happend
      simp only [List.length_append] at hlen
      omega
    rw [List.map_append, hstep, ih _ _ hlen, happend, renderedText_cons, ← List.append_assoc]

/-- Where the loop ends it has read tokens. Induction on the length of the text. -/
theorem exists_reads {nMax : Nat} (k : Nat) : ∀ {n : Nat} {b url pending u : List UInt8},
    b.length ≤ k → url.length + pending.length = n →
    unescapeLoop nMax url pending (b.map some) = some u → ∃ ts, Reads nMax n b ts := by
  have hstep : ∀ {n : Nat} {t : Token} {b url pending u : List UInt8},
      (∀ {url pending : List UInt8}, url.length + pending.length = n + t.rendered.length →
        unescapeLoop nMax url pending (b.map some) = some u →
          ∃ ts, Reads nMax (n + t.rendered.length) b ts) →
      url.length + pending.length = n → n < nMax → t.Valid →
      unescapeLoop nMax url pending ((t.source ++ b).map some) = some u →
      ∃ ts, Reads nMax n (t.source ++ b) ts := by
    intro n t b url pending u ih hn hlt ht h
    obtain ⟨url', pending', happend, heq⟩ :=
      unescapeLoop_token url pending (hn ▸ hlt) ht (b.map some)
    rw [List.map_append, heq] at h
    have hlen := congrArg List.length happend
    simp only [List.length_append] at hlen
    obtain ⟨ts, hts⟩ := ih (by omega) h
    exact ⟨t :: ts, .token hlt ht hts⟩
  induction k with
  | zero =>
    intro n b url pending u hk _ h
    rw [List.length_eq_zero_iff.1 (Nat.le_zero.1 hk)] at h
    cases h
  | succ k ih =>
    intro n b url pending u hk hn h
    cases b with
    | nil => cases h
    | cons c b =>
      rw [List.length_cons] at hk
      by_cases hstop : c = 0 ∨ c = 34 ∨ nMax ≤ n
      · exact ⟨[], .stop hstop⟩
      · simp only [not_or, Nat.not_le] at hstop
        obtain ⟨h0, h34, hlt⟩ := hstop
        by_cases h92 : c = 92
        · subst h92
          cases b with
          | nil =>
            rw [List.map_cons, unescapeLoop.eq_def] at h
            simp only [if_neg (not_unescapeLoop_stop h0 h34 (hn ▸ hlt)), if_true] at h
            cases h
          | cons d b =>
            rw [List.length_cons] at hk
            exact hstep (t := .escaped d) (fun hl => ih (by omega) hl) hn hlt trivial h
        · exact hstep (t := .plain c) (fun hl => ih (by omega) hl) hn hlt ⟨h0, h34, h92⟩ h

/-- The loop ends with the text of the tokens that it reads, and only so. -/
theorem unescapeLoop_eq_some_iff {nMax : Nat} {b u : List UInt8} :
    unescapeLoop nMax [] [] (b.map some) = some u ↔
      ∃ ts, Reads nMax 0 b ts ∧ u = renderedText ts := by
  constructor
  · intro h
    obtain ⟨ts, hts⟩ := exists_reads b.length (Nat.le_refl _) (by rfl) h
    have heq := unescapeLoop_of_reads hts [] [] rfl
    exact ⟨ts, hts, (Option.some.inj (h.symm.trans heq)).trans (by simp)⟩
  · rintro ⟨ts, hts, rfl⟩
    exact (unescapeLoop_of_reads hts [] [] rfl).trans (by simp)

end MinervaBot
