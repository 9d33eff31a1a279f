import Mathlib.Data.List.ReduceOption

/-!
# Runs of a step function

`runSteps step` runs a partial step function with outputs over a list of inputs. Five rules lift a
statement about one step to whole runs: `runSteps_invariant` for an invariant over the state and the
outputs so far, `simulates_runSteps` for a refinement of a step relation, `runSteps_ledger` for a
measure with its gains and losses, `everyState_iff_eachStep` for the runs in which a property holds
in every state, and `runSteps_project` for a part of the state that only some steps change: it
follows a `Path` of its own.
-/

namespace Lib

variable {σ τ α β ω : Type}

/-- The run of a partial step function over a list of inputs, with its outputs. -/
def runSteps (step : σ → α → Option (σ × ω)) : σ → List α → Option (σ × List ω)
  | s, [] => some (s, [])
  | s, a :: as =>
    match step s a with
    | none => none
    | some (s', o) =>
      match runSteps step s' as with
      | none => none
      | some (s'', os) => some (s'', o :: os)

/-- The runs of a step relation with outputs. -/
inductive Steps (A : τ → α → ω → τ → Prop) : τ → List α → List ω → τ → Prop
  | nil : Steps A t [] [] t
  | cons : A t a o t' → Steps A t' as os t'' → Steps A t (a :: as) (o :: os) t''

/-- A run of one step and the rest. -/
theorem runSteps_cons {step : σ → α → Option (σ × ω)} {s s' s'' : σ} {a : α} {o : ω}
    {as : List α} {os : List ω} (h : step s a = some (s', o))
    (hr : runSteps step s' as = some (s'', os)) :
    runSteps step s (a :: as) = some (s'', o :: os) := by
  simp [runSteps, h, hr]

/-- A run over a nonempty list is a step and a run. -/
theorem runSteps_cons_inv {step : σ → α → Option (σ × ω)} {s s'' : σ} {a : α} {as : List α}
    {os : List ω} (h : runSteps step s (a :: as) = some (s'', os)) :
    ∃ s' o os', step s a = some (s', o) ∧ runSteps step s' as = some (s'', os') ∧
      os = o :: os' := by
  unfold runSteps at h
  split at h
  · cases h
  · next s' o hs =>
    split at h
    · cases h
    · next u us hr =>
      cases h
      exact ⟨s', o, us, hs, hr, rfl⟩

/-- A run and a run from where it ends. -/
theorem runSteps_append {step : σ → α → Option (σ × ω)} {bs : List α} {s' s'' : σ} {os₂ : List ω}
    (hbs : runSteps step s' bs = some (s'', os₂)) : ∀ {as : List α} {s : σ} {os₁ : List ω},
      runSteps step s as = some (s', os₁) → runSteps step s (as ++ bs) = some (s'', os₁ ++ os₂)
  | [], s, os₁, has => by
    cases has
    exact hbs
  | a :: as, s, os₁, has => by
    obtain ⟨s₁, o, os', hs, hr, rfl⟩ := runSteps_cons_inv has
    exact runSteps_cons hs (runSteps_append hbs hr)

/-- A run over two lists is a run over the one and then over the other. -/
theorem runSteps_append_inv {step : σ → α → Option (σ × ω)} {bs : List α} {s'' : σ} :
    ∀ {as : List α} {s : σ} {os : List ω}, runSteps step s (as ++ bs) = some (s'', os) →
      ∃ s' os₁ os₂, runSteps step s as = some (s', os₁) ∧ runSteps step s' bs = some (s'', os₂)
  | [], s, os, h => ⟨s, [], os, rfl, h⟩
  | _ :: _, _, _, h => by
    obtain ⟨s₁, o, os', hs, hr, rfl⟩ := runSteps_cons_inv h
    obtain ⟨s', os₁, os₂, has, hbs⟩ := runSteps_append_inv hr
    exact ⟨s', o :: os₁, os₂, runSteps_cons hs has, hbs⟩

/-- The last step of a run. -/
theorem runSteps_concat_inv {step : σ → α → Option (σ × ω)} {as : List α} {a : α} {s s'' : σ}
    {os : List ω} (h : runSteps step s (as ++ [a]) = some (s'', os)) :
    ∃ s' os' o, runSteps step s as = some (s', os') ∧ step s' a = some (s'', o) := by
  obtain ⟨s', os', _, has, ha⟩ := runSteps_append_inv h
  obtain ⟨t, o, _, hstep, hnil, -⟩ := runSteps_cons_inv ha
  cases hnil
  exact ⟨s', os', o, has, hstep⟩

/-- The invariant rule. What every step over an allowed input preserves, the outputs so far
included, a run over allowed inputs preserves. -/
theorem runSteps_invariant {step : σ → α → Option (σ × ω)} {I : List ω → σ → Prop}
    {Ok : α → Prop}
    (hstep : ∀ log s a s' o, I log s → Ok a → step s a = some (s', o) → I (log ++ [o]) s') :
    ∀ {as : List α} {log : List ω} {s s' : σ} {os : List ω}, I log s → (∀ a ∈ as, Ok a) →
      runSteps step s as = some (s', os) → I (log ++ os) s'
  | [], log, s, s', os, hinv, _, h => by
    cases h
    rwa [List.append_nil]
  | a :: as, log, s, s', os, hinv, hok, h => by
    obtain ⟨s₁, o, os', hs, hr, rfl⟩ := runSteps_cons_inv h
    have hinv' := hstep log s a s₁ o hinv (hok a (.head _)) hs
    have hrest := runSteps_invariant hstep hinv' (fun b hb => hok b (.tail _ hb)) hr
    rwa [List.append_assoc, List.singleton_append] at hrest

/-- What every step preserves, a run preserves. -/
theorem runSteps_preserves {step : σ → α → Option (σ × ω)} {P : σ → Prop}
    (hstep : ∀ s a s' o, P s → step s a = some (s', o) → P s') :
    ∀ {as : List α} {s s' : σ} {os : List ω}, P s → runSteps step s as = some (s', os) → P s'
  | [], s, s', os, hs, h => by
    cases h
    exact hs
  | a :: as, s, s', os, hs, h => by
    obtain ⟨s₁, o, os', hfirst, hr, rfl⟩ := runSteps_cons_inv h
    exact runSteps_preserves hstep (hstep s a s₁ o hs hfirst) hr

/-- Forward simulation over runs. Each step of a related pair is defined, and it is matched by the
relation if the state it reaches is `Good`; then a run whose states are all `Good` is matched. -/
theorem simulates_runSteps {step : σ → α → Option (σ × ω)} {A : τ → α → ω → τ → Prop}
    {R : σ → τ → Prop} {Good : σ → Prop}
    (hstep : ∀ s t a, R s t → ∃ s' o, step s a = some (s', o) ∧
      (Good s' → ∃ t', A t a o t' ∧ R s' t')) :
    ∀ (as : List α) {s : σ} {t : τ}, R s t →
      (∀ pre s' os, pre <+: as → runSteps step s pre = some (s', os) → Good s') →
      ∃ s' os t', runSteps step s as = some (s', os) ∧ Steps A t as os t' ∧ R s' t'
  | [], s, t, hR, _ => ⟨s, [], t, rfl, .nil, hR⟩
  | a :: as, s, t, hR, hgood => by
    obtain ⟨s', o, hs, hmatch⟩ := hstep s t a hR
    obtain ⟨t', hA, hR'⟩ := hmatch (hgood [a] s' [o] (by simp) (runSteps_cons hs rfl))
    obtain ⟨s'', os, t'', hrun, hsteps, hR''⟩ := simulates_runSteps hstep as hR'
      fun pre u us hpre hu => hgood (a :: pre) u (o :: us) (by simpa using hpre) (runSteps_cons hs hu)
    exact ⟨s'', o :: os, t'', runSteps_cons hs hrun, .cons hA hsteps, hR''⟩

/-- Two systems in step. If each step takes a related pair to a related pair with the same output,
then two runs over the same actions have the same outputs. -/
theorem lockstep_runSteps {step : σ → α → Option (σ × ω)} {step' : τ → α → Option (τ × ω)}
    {R : σ → τ → Prop} (hstep : ∀ s t a, R s t → ∃ s' t' o, step s a = some (s', o) ∧
      step' t a = some (t', o) ∧ R s' t') :
    ∀ (as : List α) {s : σ} {t : τ}, R s t →
      ∃ s' t' os, runSteps step s as = some (s', os) ∧ runSteps step' t as = some (t', os) ∧ R s' t'
  | [], s, t, hR => ⟨s, t, [], rfl, rfl, hR⟩
  | a :: as, s, t, hR => by
    obtain ⟨s', t', o, hs, ht, hR'⟩ := hstep s t a hR
    obtain ⟨s'', t'', os, hrun, hrun', hR''⟩ := lockstep_runSteps hstep as hR'
    exact ⟨s'', t'', o :: os, runSteps_cons hs hrun, runSteps_cons ht hrun', hR''⟩

/-! ## Counting -/

/-- The sum of a count over the steps of a run. -/
def countSteps (step : σ → α → Option (σ × ω)) (count : σ → α → Nat) : σ → List α → Nat
  | _, [] => 0
  | s, a :: as =>
    match step s a with
    | none => 0
    | some (s', _) => count s a + countSteps step count s' as

/-- The ledger rule. A measure that every step raises by what it gains and lowers by what it loses
changes over a run by the sums of both. -/
theorem runSteps_ledger {step : σ → α → Option (σ × ω)} {m : σ → Int} {gain loss : σ → α → Nat}
    (hstep : ∀ s a s' o, step s a = some (s', o) → m s' + loss s a = m s + gain s a) :
    ∀ {as : List α} {s s' : σ} {os : List ω}, runSteps step s as = some (s', os) →
      m s' + countSteps step loss s as = m s + countSteps step gain s as
  | [], s, s', os, h => by
    cases h
    rfl
  | a :: as, s, s', os, h => by
    obtain ⟨s₁, o, os', hs, hr, rfl⟩ := runSteps_cons_inv h
    have hrest := runSteps_ledger hstep hr
    have hfirst := hstep s a s₁ o hs
    simp only [countSteps, hs]
    omega

/-- The ledger rule for a measure that is only raised, and that follows the steps from states with
an invariant. -/
theorem runSteps_gains {step : σ → α → Option (σ × ω)} {I : σ → Prop} {m : σ → Int}
    {gain : σ → α → Nat}
    (hstep : ∀ s a s' o, I s → step s a = some (s', o) → I s' ∧ m s' = m s + gain s a) :
    ∀ {as : List α} {s s' : σ} {os : List ω}, I s → runSteps step s as = some (s', os) →
      m s' = m s + countSteps step gain s as
  | [], s, s', os, _, h => by
    cases h
    exact (Int.add_zero _).symm
  | a :: as, s, s', os, hs, h => by
    obtain ⟨s₁, o, os', hfirst, hr, rfl⟩ := runSteps_cons_inv h
    obtain ⟨hs₁, hm⟩ := hstep s a s₁ o hs hfirst
    have hrest := runSteps_gains hstep hs₁ hr
    simp only [countSteps, hfirst]
    omega

/-! ## Properties of all states of a run -/

section
variable {step : σ → α → Option (σ × ω)}

/-- `P` holds in every state that a run goes through. -/
def EveryState (step : σ → α → Option (σ × ω)) (s : σ) (as : List α) (P : σ → Prop) : Prop :=
  ∀ pre s' os, pre <+: as → runSteps step s pre = some (s', os) → P s'

/-- Every step that a run takes meets `C` in the state before it. -/
def EachStep (step : σ → α → Option (σ × ω)) (s : σ) (as : List α) (C : σ → α → Prop) : Prop :=
  ∀ pre a s₁ os s₂ o, pre ++ [a] <+: as → runSteps step s pre = some (s₁, os) →
    step s₁ a = some (s₂, o) → C s₁ a

theorem everyState_nil {s : σ} {P : σ → Prop} : EveryState step s [] P ↔ P s := by
  constructor
  · exact fun h => h [] s [] (List.prefix_refl _) rfl
  · intro h pre s' os hpre hrun
    obtain rfl := List.prefix_nil.1 hpre
    cases hrun
    exact h

/-- The first state, and those after the first step. -/
theorem everyState_cons {s : σ} {a : α} {as : List α} {P : σ → Prop} :
    EveryState step s (a :: as) P ↔
      P s ∧ ∀ s' o, step s a = some (s', o) → EveryState step s' as P := by
  constructor
  · refine fun h => ⟨h [] s [] List.nil_prefix rfl, fun s' o hs pre s'' os hpre hrun => ?_⟩
    exact h (a :: pre) s'' (o :: os) (List.cons_prefix_cons.2 ⟨rfl, hpre⟩) (runSteps_cons hs hrun)
  · rintro ⟨h, hrest⟩ pre s'' os hpre hrun
    cases pre with
    | nil =>
      cases hrun
      exact h
    | cons b pre =>
      obtain ⟨rfl, hpre'⟩ := List.cons_prefix_cons.1 hpre
      obtain ⟨s', o, os', hs, hrun', rfl⟩ := runSteps_cons_inv hrun
      exact hrest s' o hs pre s'' os' hpre' hrun'

theorem eachStep_nil {s : σ} {C : σ → α → Prop} : EachStep step s [] C := by
  intro pre a s₁ os s₂ o hpre
  have := hpre.length_le
  simp at this

/-- The first step, and those after it. -/
theorem eachStep_cons {s : σ} {a : α} {as : List α} {C : σ → α → Prop} :
    EachStep step s (a :: as) C ↔
      ∀ s' o, step s a = some (s', o) → C s a ∧ EachStep step s' as C := by
  constructor
  · refine fun h s' o hs => ⟨?_, fun pre b s₁ os s₂ o' hpre hrun hb => ?_⟩
    · exact h [] a s [] s' o (List.prefix_append [a] as) rfl hs
    · exact h (a :: pre) b s₁ (o :: os) s₂ o' (List.cons_prefix_cons.2 ⟨rfl, hpre⟩)
        (runSteps_cons hs hrun) hb
  · intro h pre b s₁ os s₂ o hpre hrun hb
    cases pre with
    | nil =>
      obtain ⟨rfl, -⟩ := List.cons_prefix_cons.1 hpre
      cases hrun
      exact (h s₂ o hb).1
    | cons c pre =>
      obtain ⟨rfl, hpre'⟩ := List.cons_prefix_cons.1 hpre
      obtain ⟨s', o', os', hs, hrun', rfl⟩ := runSteps_cons_inv hrun
      exact (h s' o' hs).2 pre b s₁ os' s₂ o hpre' hrun' hb

/-- The rule for a property that holds in every state of a run exactly if every step meets a
condition, for runs through states that are all `Good`: the steps that meet it keep an invariant
that gives the property, and a step from there that does not meet it loses the property. -/
theorem everyState_iff_eachStep_of_good {I P Good : σ → Prop} {C : σ → α → Prop}
    (hP : ∀ s, I s → P s)
    (hkeep : ∀ s a s' o, I s → C s a → step s a = some (s', o) → Good s' → I s')
    (hlose : ∀ s a s' o, I s → ¬ C s a → step s a = some (s', o) → Good s' → ¬ P s') :
    ∀ (as : List α) {s : σ}, I s → EveryState step s as Good →
      (EveryState step s as P ↔ EachStep step s as C)
  | [], s, hs, _ => by
    rw [everyState_nil]
    exact ⟨fun _ => eachStep_nil, fun _ => hP s hs⟩
  | a :: as, s, hs, hgood => by
    obtain ⟨-, hgoods⟩ := everyState_cons.1 hgood
    have hfirst : ∀ {s' o}, step s a = some (s', o) → Good s' := fun hstep =>
      hgoods _ _ hstep [] _ [] List.nil_prefix rfl
    rw [everyState_cons, eachStep_cons]
    constructor
    · rintro ⟨-, hrest⟩ s' o hstep
      have hs' := hrest s' o hstep
      have hc : C s a := by
        by_contra hc
        exact hlose s a s' o hs hc hstep (hfirst hstep) (hs' [] s' [] List.nil_prefix rfl)
      have hI' := hkeep s a s' o hs hc hstep (hfirst hstep)
      exact ⟨hc, (everyState_iff_eachStep_of_good hP hkeep hlose as hI' (hgoods s' o hstep)).1 hs'⟩
    · refine fun h => ⟨hP s hs, fun s' o hstep => ?_⟩
      obtain ⟨hc, hrest⟩ := h s' o hstep
      have hI' := hkeep s a s' o hs hc hstep (hfirst hstep)
      exact (everyState_iff_eachStep_of_good hP hkeep hlose as hI' (hgoods s' o hstep)).2 hrest

/-- The rule for runs through any states. -/
theorem everyState_iff_eachStep {I P : σ → Prop} {C : σ → α → Prop} (hP : ∀ s, I s → P s)
    (hkeep : ∀ s a s' o, I s → C s a → step s a = some (s', o) → I s')
    (hlose : ∀ s a s' o, I s → ¬ C s a → step s a = some (s', o) → ¬ P s') (as : List α) {s : σ}
    (hs : I s) : EveryState step s as P ↔ EachStep step s as C := by
  have hgood : EveryState step s as fun _ => True := fun _ _ _ _ _ => trivial
  exact everyState_iff_eachStep_of_good hP
    (fun s a s' o hI hC hstep _ => hkeep s a s' o hI hC hstep)
    (fun s a s' o hI hC hstep _ => hlose s a s' o hI hC hstep) as hs hgood

/-- A property of the states that every step keeps if it meets the condition. -/
theorem EachStep.everyState {P : σ → Prop} {C : σ → α → Prop}
    (hkeep : ∀ s a s' o, P s → C s a → step s a = some (s', o) → P s') :
    ∀ {as : List α} {s : σ}, P s → EachStep step s as C → EveryState step s as P
  | [], _, hs, _ => everyState_nil.2 hs
  | a :: as, s, hs, h => by
    refine everyState_cons.2 ⟨hs, fun s' o hstep => ?_⟩
    obtain ⟨hc, hrest⟩ := eachStep_cons.1 h s' o hstep
    exact EachStep.everyState hkeep (hkeep s a s' o hs hc hstep) hrest

end

/-! ## Paths of a labelled relation -/

/-- The paths of a labelled step relation. -/
inductive Path (R : τ → β → τ → Prop) : τ → List β → τ → Prop
  | nil : Path R t [] t
  | cons : R t b t' → Path R t' bs t'' → Path R t (b :: bs) t''

/-- A path over two lists is a path over the one and then over the other. -/
theorem Path.append_inv {R : τ → β → τ → Prop} {cs : List β} {t'' : τ} :
    ∀ {bs : List β} {t : τ}, Path R t (bs ++ cs) t'' → ∃ t', Path R t bs t' ∧ Path R t' cs t''
  | [], t, h => ⟨t, .nil, h⟩
  | b :: bs, t, h => by
    cases h with
    | cons hstep hrest =>
      obtain ⟨t', hbs, hcs⟩ := hrest.append_inv
      exact ⟨t', .cons hstep hbs, hcs⟩

/-- Every label of a path is the label of a step. -/
theorem Path.exists_step {R : τ → β → τ → Prop} {t t' : τ} {bs : List β} (h : Path R t bs t') :
    ∀ b ∈ bs, ∃ u u', R u b u' := by
  induction h with
  | nil => exact fun b hb => (nomatch hb)
  | cons hR _ ih =>
    intro b hb
    rcases List.mem_cons.1 hb with rfl | hb
    · exact ⟨_, _, hR⟩
    · exact ih b hb

/-- What no step with an allowed label changes, a path over allowed labels does not change. -/
theorem Path.frame {γ : Type} {R : τ → β → τ → Prop} {Ok : β → Prop} {f : τ → γ}
    (hstep : ∀ t b t', Ok b → R t b t' → f t' = f t) {t t' : τ} {bs : List β}
    (h : Path R t bs t') : (∀ b ∈ bs, Ok b) → f t' = f t := by
  induction h with
  | nil => exact fun _ => rfl
  | cons hR _ ih =>
    intro hok
    rw [ih fun b hb => hok b (.tail _ hb), hstep _ _ _ (hok _ (.head _)) hR]

/-- The part of a path that concerns `f`: if a step changes `f` by its label where the label
concerns it, and otherwise leaves it, then `f` at the end is determined by the labels that concern
it. -/
theorem Path.foldl_filter {γ : Type} {R : τ → β → τ → Prop} {about : β → Bool} {eff : γ → β → γ}
    {f : τ → γ} (hstep : ∀ t b t', R t b t' → f t' = if about b then eff (f t) b else f t)
    {t t' : τ} {bs : List β} (h : Path R t bs t') : f t' = (bs.filter about).foldl eff (f t) := by
  induction h with
  | nil => rfl
  | @cons t b t₁ bs t₂ hR _ ih =>
    have hfirst := hstep _ _ _ hR
    cases hb : about b with
    | true =>
      rw [if_pos hb] at hfirst
      rw [List.filter_cons_of_pos hb, List.foldl_cons, ih, hfirst]
    | false =>
      rw [if_neg (by rw [hb]; exact Bool.false_ne_true)] at hfirst
      rw [List.filter_cons_of_neg (by rw [hb]; exact Bool.false_ne_true), ih, hfirst]

/-- A list splits at the last label with a property. -/
theorem exists_last {p : β → Prop} :
    ∀ {bs : List β}, (∃ b ∈ bs, p b) →
      ∃ pre b post, bs = pre ++ b :: post ∧ p b ∧ ∀ c ∈ post, ¬ p c
  | [], ⟨_, hb, _⟩ => (nomatch hb)
  | b :: bs, h => by
    by_cases hrest : ∃ c ∈ bs, p c
    · obtain ⟨pre, c, post, rfl, hc, hpost⟩ := exists_last hrest
      exact ⟨b :: pre, c, post, rfl, hc, hpost⟩
    · have hb : p b := by
        obtain ⟨c, hc, hpc⟩ := h
        rcases List.mem_cons.1 hc with rfl | hc
        · exact hpc
        · exact absurd ⟨c, hc, hpc⟩ hrest
      exact ⟨[], b, bs, rfl, hb, fun c hc hpc => hrest ⟨c, hc, hpc⟩⟩

/-- A part `f` of the state that follows a relation of its own. If each step either leaves the part
and puts out nothing, or is a step of the part and puts out its label, then a run of the whole is a
path of the part. -/
theorem runSteps_project {step : σ → α → Option (σ × Option β)} {R : τ → β → τ → Prop} {f : σ → τ}
    (hstep : ∀ s a s' out, step s a = some (s', out) →
      out = none ∧ f s' = f s ∨ ∃ b, out = some b ∧ R (f s) b (f s')) :
    ∀ {as : List α} {s s' : σ} {outs : List (Option β)},
      runSteps step s as = some (s', outs) → Path R (f s) outs.reduceOption (f s')
  | [], s, s', outs, h => by
    cases h
    exact .nil
  | a :: as, s, s', outs, h => by
    obtain ⟨s₁, out, outs', hs, hr, rfl⟩ := runSteps_cons_inv h
    have hrest := runSteps_project hstep hr
    rcases hstep s a s₁ out hs with ⟨rfl, hf⟩ | ⟨b, rfl, hR⟩
    · rw [List.reduceOption_cons_of_none, ← hf]
      exact hrest
    · rw [List.reduceOption_cons_of_some]
      exact .cons hR hrest

end Lib
