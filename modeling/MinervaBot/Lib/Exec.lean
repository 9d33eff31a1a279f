/-!
# Executions that may fault or block

`Exec σ α` is a call in a thread of a program with shared state `σ`: it returns, it faults (a
signal such as SIGSEGV that a handler may catch), it does something the language leaves undefined,
or it blocks forever on a lock. The state it leaves is part of the result in every case, since a
fault or a block happens in the middle of a call. `Exec.Preserves` is the invariant rule for such
calls, closed under sequencing and under the fault handler. `Exec.Triple` is for calls that neither
fault nor block.
-/

namespace Lib

/-- How a call ends. -/
inductive Outcome (α : Type) where
  | returned (a : α)
  | segv
  | undefined
  | blocked
  deriving DecidableEq

/-- The end of a computation that is undefined where it has no value. -/
def Outcome.ofOption {α : Type} : Option α → Outcome α
  | some a => .returned a
  | none => .undefined

/-- A call that runs over the state `σ` and returns an `α` if it returns. -/
def Exec (σ α : Type) := σ → Outcome α × σ

namespace Exec

variable {σ τ α β : Type}

/-- Sequencing: what comes after a call runs only if the call returns. -/
def bind (x : Exec σ α) (f : α → Exec σ β) : Exec σ β := fun s =>
  match x s with
  | (.returned a, s') => f a s'
  | (.segv, s') => (.segv, s')
  | (.undefined, s') => (.undefined, s')
  | (.blocked, s') => (.blocked, s')

instance : Monad (Exec σ) where
  pure a := fun s => (.returned a, s)
  bind := Exec.bind

/-- Read the state. -/
def get : Exec σ σ := fun s => (.returned s, s)

/-- Change the state. -/
def modify (f : σ → σ) : Exec σ Unit := fun s => (.returned (), f s)

/-- The access that faults, such as a read through a NULL pointer. -/
def segv : Exec σ α := fun s => (.segv, s)

/-- A lock that is never released. -/
def block : Exec σ α := fun s => (.blocked, s)

/-- A computation that is undefined where it has no value. -/
def ofOption (x : Option α) : Exec σ α := fun s => (.ofOption x, s)

/-- Run `x`; a fault in it jumps to `h`. -/
def catchSegv (x h : Exec σ α) : Exec σ α := fun s =>
  match x s with
  | (.segv, s') => h s'
  | r => r

/-- Run a call on a part of the state. -/
def zoom (part : τ → σ) (put : τ → σ → τ) (x : Exec σ α) : Exec τ α := fun t =>
  ((x (part t)).1, put t (x (part t)).2)

@[simp] theorem pure_apply (a : α) (s : σ) : (pure a : Exec σ α) s = (.returned a, s) := rfl
@[simp] theorem get_apply (s : σ) : (get : Exec σ σ) s = (.returned s, s) := rfl
@[simp] theorem modify_apply (f : σ → σ) (s : σ) : modify f s = (.returned (), f s) := rfl
@[simp] theorem segv_apply (s : σ) : (segv : Exec σ α) s = (.segv, s) := rfl
@[simp] theorem block_apply (s : σ) : (block : Exec σ α) s = (.blocked, s) := rfl
@[simp] theorem ofOption_apply (x : Option α) (s : σ) :
    (ofOption x : Exec σ α) s = (.ofOption x, s) := rfl

/-- A call after a call that returns. -/
theorem bind_returned {x : Exec σ α} {s s' : σ} {a : α} (h : x s = (.returned a, s'))
    (f : α → Exec σ β) : (x >>= f) s = f a s' := by
  show Exec.bind x f s = _
  rw [Exec.bind, h]

/-- Nothing runs after a call that faults. -/
theorem bind_segv {x : Exec σ α} {s s' : σ} (h : x s = (.segv, s')) (f : α → Exec σ β) :
    (x >>= f) s = (.segv, s') := by
  show Exec.bind x f s = _
  rw [Exec.bind, h]

/-- Nothing runs after a call that is undefined. -/
theorem bind_undefined {x : Exec σ α} {s s' : σ} (h : x s = (.undefined, s'))
    (f : α → Exec σ β) : (x >>= f) s = (.undefined, s') := by
  show Exec.bind x f s = _
  rw [Exec.bind, h]

/-- Nothing runs after a call that blocks. -/
theorem bind_blocked {x : Exec σ α} {s s' : σ} (h : x s = (.blocked, s')) (f : α → Exec σ β) :
    (x >>= f) s = (.blocked, s') := by
  show Exec.bind x f s = _
  rw [Exec.bind, h]

/-- A call whose result is not used leaves what it leaves alone. -/
theorem bind_pure_snd (x : Exec σ α) (b : β) (s : σ) :
    ((x >>= fun _ => Pure.pure b) s).2 = (x s).2 := by
  show (Exec.bind x _ s).2 = _
  rw [Exec.bind]
  rcases x s with ⟨_ | _ | _ | _, s'⟩ <;> rfl

/-- A fault handler that does nothing leaves what the call leaves. -/
theorem catchSegv_pure_snd (x : Exec σ α) (a : α) (s : σ) :
    (catchSegv x (Pure.pure a) s).2 = (x s).2 := by
  unfold catchSegv
  rcases x s with ⟨_ | _ | _ | _, s'⟩ <;> rfl

/-- Mapping the identity changes nothing. -/
theorem bind_pure_comp_id (x : Exec σ α) : id <$> x = x := by
  funext s
  show Exec.bind x _ s = x s
  rw [Exec.bind]
  rcases x s with ⟨_ | _ | _ | _, s'⟩ <;> rfl

/-- Sequencing is associative. -/
theorem bind_bind (x : Exec σ α) (f : α → Exec σ β) {γ : Type} (g : β → Exec σ γ) :
    x >>= f >>= g = x >>= fun a => f a >>= g := by
  funext s
  show Exec.bind (Exec.bind x f) g s = Exec.bind x _ s
  simp only [Exec.bind]
  rcases x s with ⟨_ | _ | _ | _, s'⟩ <;> rfl

instance : LawfulMonad (Exec σ) :=
  .mk' _ bind_pure_comp_id (fun _ _ => rfl) fun x f g => bind_bind x f g

/-! ## Invariants -/

/-- Whatever way `x` ends, it keeps `P`. -/
def Preserves (P : σ → Prop) (x : Exec σ α) : Prop :=
  ∀ s, P s → P (x s).2

variable {P : σ → Prop}

/-- A value keeps every invariant. -/
theorem Preserves.pure (a : α) : Preserves P (Pure.pure a : Exec σ α) := fun _ h => h

/-- A change of the state that keeps the invariant. -/
theorem Preserves.modify {f : σ → σ} (h : ∀ s, P s → P (f s)) : Preserves P (Exec.modify f) := h

/-- A value that may be missing keeps every invariant. -/
theorem Preserves.ofOption (x : Option α) : Preserves P (Exec.ofOption x) := fun _ h => h

/-- A sequence keeps what its parts keep. -/
theorem Preserves.bind {x : Exec σ α} {f : α → Exec σ β} (hx : Preserves P x)
    (hf : ∀ a, Preserves P (f a)) : Preserves P (x >>= f) := by
  intro s hs
  have h := hx s hs
  rcases hr : x s with ⟨_ | _ | _ | _, s'⟩ <;> rw [hr] at h
  · rw [bind_returned hr]
    exact hf _ s' h
  · rw [bind_segv hr]; exact h
  · rw [bind_undefined hr]; exact h
  · rw [bind_blocked hr]; exact h

/-- A call under a fault handler keeps what both keep. -/
theorem Preserves.catchSegv {x h : Exec σ α} (hx : Preserves P x) (hh : Preserves P h) :
    Preserves P (catchSegv x h) := by
  intro s hs
  have hp := hx s hs
  unfold Exec.catchSegv
  rcases hr : x s with ⟨_ | _ | _ | _, s'⟩ <;> rw [hr] at hp
  · exact hp
  · exact hh s' hp
  · exact hp
  · exact hp

/-- A call on a part of the state keeps what no change of that part breaks. -/
theorem Preserves.zoom {part : τ → σ} {put : τ → σ → τ} {Q : τ → Prop} (x : Exec σ α)
    (h : ∀ t s, Q t → Q (put t s)) : Preserves Q (zoom part put x) :=
  fun t ht => h t _ ht

/-! ## Triples -/

/-- From a state with `P`, `x` neither faults nor blocks, and if it returns `a`, it leaves a state
with `Q a`. Nothing is said of what is undefined. -/
def Triple (P : σ → Prop) (x : Exec σ α) (Q : α → σ → Prop) : Prop :=
  ∀ s, P s → (x s).1 = .undefined ∨ ∃ a s', x s = (.returned a, s') ∧ Q a s'

variable {Q : α → σ → Prop}

/-- The rule for a value. -/
theorem Triple.pure {a : α} (h : ∀ s, P s → Q a s) : Triple P (Pure.pure a : Exec σ α) Q :=
  fun s hs => .inr ⟨a, s, rfl, h s hs⟩

/-- The rule for a change of the state. -/
theorem Triple.modify {f : σ → σ} {Q : Unit → σ → Prop} (h : ∀ s, P s → Q () (f s)) :
    Triple P (Exec.modify f) Q :=
  fun s hs => .inr ⟨(), f s, rfl, h s hs⟩

/-- The rule for a value that may be missing. -/
theorem Triple.ofOption {x : Option α} (h : ∀ a s, P s → Q a s) :
    Triple P (Exec.ofOption x) Q := by
  intro s hs
  cases x with
  | none => exact .inl rfl
  | some a => exact .inr ⟨a, s, rfl, h a s hs⟩

/-- A sequence goes from the state before its first part to the state after its second. -/
theorem Triple.bind {x : Exec σ α} {f : α → Exec σ β} {R : β → σ → Prop} (hx : Triple P x Q)
    (hf : ∀ a, Triple (Q a) (f a) R) : Triple P (x >>= f) R := by
  intro s hs
  rcases hx s hs with hundef | ⟨a, s', hret, hq⟩
  · have hr : x s = (.undefined, (x s).2) := by rw [← hundef]
    exact .inl (by rw [bind_undefined hr])
  · rw [bind_returned hret]
    exact hf a s' hq

/-- A fault handler has nothing to do for a call that does not fault. -/
theorem Triple.catchSegv {x h : Exec σ α} (hx : Triple P x Q) : Triple P (catchSegv x h) Q := by
  intro s hs
  unfold Exec.catchSegv
  rcases hx s hs with hundef | ⟨a, s', hret, hq⟩
  · rcases hr : x s with ⟨_ | _ | _ | _, s'⟩ <;> rw [hr] at hundef <;> cases hundef
    exact .inl rfl
  · exact .inr ⟨a, s', by rw [hret], hq⟩

/-- A call on a part of the state. -/
theorem Triple.zoom {part : τ → σ} {put : τ → σ → τ} {x : Exec σ α} (hx : Triple P x Q)
    {R : α → τ → Prop} (h : ∀ t a s, Q a s → R a (put t s)) :
    Triple (fun t => P (part t)) (zoom part put x) R := by
  intro t ht
  rcases hx (part t) ht with hundef | ⟨a, s', hret, hq⟩
  · exact .inl hundef
  · exact .inr ⟨a, put t s', by rw [Exec.zoom, hret], h t a s' hq⟩

/-! ## Calls that return -/

/-- `x` returns in every state. -/
def Returns (x : Exec σ α) : Prop :=
  ∀ s, ∃ a s', x s = (.returned a, s')

/-- A value is returned. -/
theorem Returns.pure (a : α) : Returns (Pure.pure a : Exec σ α) := fun s => ⟨a, s, rfl⟩

/-- A change of the state returns. -/
theorem Returns.modify (f : σ → σ) : Returns (Exec.modify f) := fun s => ⟨(), f s, rfl⟩

/-- A value that is there is returned. -/
theorem Returns.ofOption (a : α) : Returns (Exec.ofOption (some a) : Exec σ α) :=
  fun s => ⟨a, s, rfl⟩

/-- A sequence of calls that return. -/
theorem Returns.bind {x : Exec σ α} {f : α → Exec σ β} (hx : Returns x) (hf : ∀ a, Returns (f a)) :
    Returns (x >>= f) := by
  intro s
  obtain ⟨a, s', hret⟩ := hx s
  rw [bind_returned hret]
  exact hf a s'

/-- What returns is defined. -/
theorem Returns.ne_undefined {x : Exec σ α} (hx : Returns x) (s : σ) : (x s).1 ≠ .undefined := by
  obtain ⟨a, s', hret⟩ := hx s
  intro hundef
  rw [hret] at hundef
  cases hundef

/-! ## What a call yields from a state -/

/-- From the state `s`, `x` returns, with a result and a state of which `R` holds. -/
def Yields (x : Exec σ α) (s : σ) (R : α → σ → Prop) : Prop :=
  ∃ a s', x s = (.returned a, s') ∧ R a s'

/-- The rule for a value. -/
theorem Yields.pure {R : α → σ → Prop} {a : α} {s : σ} (h : R a s) :
    (Pure.pure a : Exec σ α).Yields s R :=
  ⟨a, s, rfl, h⟩

/-- The rule for a read of the state. -/
theorem Yields.get {s : σ} : (Exec.get : Exec σ σ).Yields s fun a s' => s = a ∧ s = s' :=
  ⟨s, s, rfl, rfl, rfl⟩

/-- The rule for a value that is there. -/
theorem Yields.ofOption {R : α → σ → Prop} {x : Option α} {a : α} {s : σ} (hx : x = some a)
    (h : R a s) : (Exec.ofOption x).Yields s R :=
  ⟨a, s, by rw [hx]; rfl, h⟩

/-- A sequence yields what its second part yields from what the first one leaves. -/
theorem Yields.bind {x : Exec σ α} {f : α → Exec σ β} {s : σ} {Q : α → σ → Prop}
    {R : β → σ → Prop} (hx : x.Yields s Q) (hf : ∀ a s', Q a s' → (f a).Yields s' R) :
    (x >>= f).Yields s R := by
  obtain ⟨a, s', hret, hq⟩ := hx
  obtain ⟨b, s'', hret', hr⟩ := hf a s' hq
  exact ⟨b, s'', by rw [bind_returned hret, hret'], hr⟩

/-- The rule of consequence. -/
theorem Yields.mono {x : Exec σ α} {s : σ} {Q R : α → σ → Prop} (hx : x.Yields s Q)
    (h : ∀ a s', Q a s' → R a s') : x.Yields s R := by
  obtain ⟨a, s', hret, hq⟩ := hx
  exact ⟨a, s', hret, h a s' hq⟩

/-- A call on a part of the state. -/
theorem Yields.zoom {part : τ → σ} {put : τ → σ → τ} {x : Exec σ α} {t : τ} {Q : α → σ → Prop}
    {R : α → τ → Prop} (hx : x.Yields (part t) Q) (h : ∀ a s, Q a s → R a (put t s)) :
    (Exec.zoom part put x).Yields t R := by
  obtain ⟨a, s', hret, hq⟩ := hx
  exact ⟨a, put t s', by rw [Exec.zoom, hret], h a s' hq⟩

/-! ## Simulation -/

/-- Where `x` returns, `y` returns the same, and the states that they leave are related again. -/
def Simulates (R : σ → τ → Prop) (x : Exec σ α) (y : Exec τ α) : Prop :=
  ∀ s t a s', R s t → x s = (.returned a, s') → y.Yields t fun b t' => a = b ∧ R s' t'

/-- The parts of a sequence that returns. -/
theorem returned_of_bind {x : Exec σ α} {f : α → Exec σ β} {s s'' : σ} {b : β}
    (h : (x >>= f) s = (.returned b, s'')) :
    ∃ a s', x s = (.returned a, s') ∧ f a s' = (.returned b, s'') := by
  rcases hx : x s with ⟨_ | _ | _ | _, s'⟩
  · rw [bind_returned hx] at h
    exact ⟨_, _, rfl, h⟩
  · rw [bind_segv hx] at h
    cases h
  · rw [bind_undefined hx] at h
    cases h
  · rw [bind_blocked hx] at h
    cases h

/-- A value that was returned was there. -/
theorem returned_of_ofOption {x : Option α} {s s' : σ} {a : α}
    (h : (Exec.ofOption x) s = (.returned a, s')) : x = some a ∧ s = s' := by
  cases x with
  | none => cases h
  | some b =>
    cases h
    exact ⟨rfl, rfl⟩

variable {R : σ → τ → Prop}

/-- A value simulates itself. -/
theorem Simulates.pure (a : α) : Simulates R (Pure.pure a) (Pure.pure a) := by
  intro s t b s' hR hret
  cases hret
  exact .pure ⟨rfl, hR⟩

/-- Sequences simulate each other part by part. -/
theorem Simulates.bind {x : Exec σ α} {y : Exec τ α} {f : α → Exec σ β} {g : α → Exec τ β}
    (hxy : Simulates R x y) (hfg : ∀ a, Simulates R (f a) (g a)) :
    Simulates R (x >>= f) (y >>= g) := by
  intro s t b s'' hR hret
  obtain ⟨a, s', hx, hf⟩ := returned_of_bind hret
  refine (hxy s t a s' hR hx).bind ?_
  rintro _ t' ⟨rfl, hR'⟩
  exact hfg a s' t' b s'' hR' hf

/-- Changes of related states. -/
theorem Simulates.modify {f : σ → σ} {g : τ → τ} (h : ∀ s t, R s t → R (f s) (g t)) :
    Simulates R (Exec.modify f) (Exec.modify g) := by
  intro s t b s' hR hret
  cases hret
  exact ⟨(), g t, rfl, rfl, h s t hR⟩

/-- Branches on the same condition. -/
theorem Simulates.ite {c : Prop} [Decidable c] {x x' : Exec σ α} {y y' : Exec τ α}
    (hx : Simulates R x y) (hx' : Simulates R x' y') :
    Simulates R (if c then x else x') (if c then y else y') := by
  split
  · exact hx
  · exact hx'

end Exec

end Lib
