import MinervaBot.Connect
import MinervaBot.IrcActions

/-!
# Runs of `main`

Connections do not mix: what `irc_loop` has in its buffers and has done is what it makes of the
chunks that this connection has delivered since its login has ended (`loop_isolated`).
-/

namespace MinervaBot

open Lib

section
variable {config : LoginConfig} {m m' : MainState} {act : MainAct} {u : Unit}

/-! ## One connection after the other -/

/-- The chunk that a step receives. -/
def MainAct.chunk? : MainAct → Option Chunk
  | .recv (.data chunk) => some chunk
  | _ => none

/-- The step is an attempt to connect. -/
def MainAct.isConnect : MainAct → Bool
  | .connect _ => true
  | _ => false

/-- `main` handles lines in this state of `irc_loop`. -/
def MainState.Loops (m : MainState) (s : LoopState) : Prop :=
  m.phase = .loop s ∨ m.phase = .loopRecv s

/-- During the login the arrays of `irc_loop` are untouched. -/
def MainState.FreshLoop (m : MainState) : Prop :=
  ∀ login loop, m.phase = .login login loop → ∃ buf nickbuf, loop = .init buf nickbuf

theorem MainState.FreshLoop.step (h : m.FreshLoop) (hstep : mainStep config m act = some (m', u)) :
    m'.FreshLoop := by
  obtain ⟨phase, done, last⟩ := m
  cases act with
  | signal =>
    cases hstep
    exact h
  | connect c =>
    cases phase with
    | retry =>
      cases hstep
      intro login loop hphase
      simp only [MainState.retry] at hphase
      split at hphase
      · cases hphase
      · split at hphase
        · cases hphase
          exact ⟨_, _, rfl⟩
        · cases hphase
    | _ => cases hstep
  | test =>
    cases phase with
    | loop s =>
      cases hstep
      intro login loop hphase
      cases done <;> cases hphase
    | _ => cases hstep
  | recv r =>
    cases phase with
    | login s loop =>
      cases hstep
      intro login loop' hphase
      simp only [afterLoginRecv] at hphase
      split at hphase
      · split at hphase <;> cases hphase
      · cases hphase
        exact h s loop rfl
    | loopRecv s =>
      cases hstep
      intro login loop hphase
      cases r <;> cases hphase
    | _ => cases hstep

/-- Where a step into `irc_loop` comes from: from `irc_loop` in the same state, with a chunk, or
with an error, or from a login that ends. -/
theorem mainStep_loops {s : LoopState} (hstep : mainStep config m act = some (m', u))
    (hs : m'.Loops s) :
    act.isConnect = false ∧
      (m.Loops s ∧ act.chunk? = none ∨
        (∃ chunk s₀, m.Loops s₀ ∧ act.chunk? = some chunk ∧
          s = ircLoop [(false, .data chunk)] s₀) ∨
        ∃ login, m.phase = .login login s ∧ m'.phase = .loop s) := by
  obtain ⟨phase, done, last⟩ := m
  cases act with
  | signal =>
    cases hstep
    exact ⟨rfl, .inl ⟨hs, rfl⟩⟩
  | connect c =>
    cases phase with
    | retry =>
      cases hstep
      rcases hs with hs | hs
      all_goals
        simp only [MainState.retry] at hs
        split at hs
        · cases hs
        · split at hs <;> cases hs
    | _ => cases hstep
  | test =>
    cases phase with
    | loop s₀ =>
      cases hstep
      cases done with
      | true => rcases hs with hs | hs <;> cases hs
      | false =>
        rcases hs with hs | hs
        · cases hs
        · cases hs
          exact ⟨rfl, .inl ⟨.inl rfl, rfl⟩⟩
    | _ => cases hstep
  | recv r =>
    cases phase with
    | login login loop =>
      cases hstep
      refine ⟨rfl, .inr (.inr ⟨login, ?_⟩)⟩
      simp only [MainState.Loops, afterLoginRecv] at hs ⊢
      split at hs
      · split at hs
        · obtain ⟨⟨⟩⟩ | ⟨⟨⟩⟩ := hs
          exact ⟨rfl, by simp_all⟩
        · obtain ⟨⟨⟩⟩ | ⟨⟨⟩⟩ := hs
      · obtain ⟨⟨⟩⟩ | ⟨⟨⟩⟩ := hs
    | loopRecv s₀ =>
      cases hstep
      cases r with
      | eof => rcases hs with hs | hs <;> cases hs
      | error =>
        rcases hs with hs | hs
        · cases hs
          exact ⟨rfl, .inl ⟨.inr rfl, rfl⟩⟩
        · cases hs
      | data chunk =>
        rcases hs with hs | hs
        · cases hs
          exact ⟨rfl, .inr (.inl ⟨chunk, s₀, .inr rfl, rfl, rfl⟩)⟩
        · cases hs
    | _ => cases hstep

/-- In every run of `main`: where it handles lines, what `irc_loop` has in its buffer, the lines
that it has handled and what it has done are those of an `irc_loop` that starts with the chunks that
this connection has delivered since its login has ended, and it has done what these lines ask for.
-/
theorem loop_isolated (acts : List MainAct) : ∀ {m : MainState} {os : List Unit} {s : LoopState},
    runSteps (mainStep config) mainInit acts = some (m, os) → m.Loops s →
      ∃ pre post m₀ os₀ buf nickbuf, acts = pre ++ post ∧
        runSteps (mainStep config) mainInit pre = some (m₀, os₀) ∧
        m₀.phase = .loop (.init buf nickbuf) ∧ (∀ act ∈ post, act.isConnect = false) ∧
        s = ircLoop (received (post.filterMap MainAct.chunk?)) (.init buf nickbuf) ∧
        s.actions = s.lines.flatMap lineActions := by
  suffices hsuffices : ∀ {m : MainState} {os : List Unit} {s : LoopState},
      runSteps (mainStep config) mainInit acts = some (m, os) → m.Loops s →
        ∃ pre post m₀ os₀ buf nickbuf, acts = pre ++ post ∧
          runSteps (mainStep config) mainInit pre = some (m₀, os₀) ∧
          m₀.phase = .loop (.init buf nickbuf) ∧ (∀ act ∈ post, act.isConnect = false) ∧
          s = ircLoop (received (post.filterMap MainAct.chunk?)) (.init buf nickbuf) by
    intro m os s h hs
    obtain ⟨pre, post, m₀, os₀, buf, nickbuf, hacts, hpre, hphase, hpost, rfl⟩ := hsuffices h hs
    exact ⟨pre, post, m₀, os₀, buf, nickbuf, hacts, hpre, hphase, hpost, rfl,
      ircLoop_actions buf nickbuf _⟩
  induction acts using List.reverseRecOn with
  | nil =>
    intro m os s h hs
    cases h
    rcases hs with hs | hs <;> cases hs
  | append_singleton acts act ih =>
    intro m os s h hs
    obtain ⟨m₁, os₁, o, hrun, hstep⟩ := runSteps_concat_inv h
    obtain ⟨hconnect, hcases⟩ := mainStep_loops hstep hs
    have hpost : ∀ {post : List MainAct}, (∀ act ∈ post, act.isConnect = false) →
        ∀ act' ∈ post ++ [act], act'.isConnect = false := fun h act' hact' =>
      (List.mem_append.1 hact').elim (h act') fun h' => List.mem_singleton.1 h' ▸ hconnect
    rcases hcases with ⟨hloops, hnone⟩ | ⟨chunk, s₀, hloops, hchunk, rfl⟩ | ⟨login, hlogin, hloop⟩
    · obtain ⟨pre, post, m₀, os₀, buf, nickbuf, rfl, hpre, hphase, hall, rfl⟩ := ih hrun hloops
      refine ⟨pre, post ++ [act], m₀, os₀, buf, nickbuf, List.append_assoc .., hpre, hphase,
        hpost hall, ?_⟩
      rw [List.filterMap_append, List.filterMap_cons_none hnone, List.filterMap_nil,
        List.append_nil]
    · obtain ⟨pre, post, m₀, os₀, buf, nickbuf, rfl, hpre, hphase, hall, rfl⟩ := ih hrun hloops
      refine ⟨pre, post ++ [act], m₀, os₀, buf, nickbuf, List.append_assoc .., hpre, hphase,
        hpost hall, ?_⟩
      rw [List.filterMap_append, List.filterMap_cons_some hchunk, List.filterMap_nil,
        ircLoop_received_concat]
    · have hfresh : m₁.FreshLoop :=
        runSteps_preserves (fun _ _ _ _ h hstep => h.step hstep) (by rintro login loop ⟨⟩) hrun
      obtain ⟨buf, nickbuf, rfl⟩ := hfresh login s hlogin
      exact ⟨acts ++ [act], [], m, os, buf, nickbuf, (List.append_nil _).symm, h, hloop,
        List.forall_mem_nil _, rfl⟩

/-- The `PING` behind a login. -/
def pingRun : List MainAct :=
  [.connect ⟨true, true, fun _ => 0, fun _ => 0, fun _ => 0⟩,
    .recv (.data ⟨(CString.lit ":s 001 n :hi\r\n").bytes, by decide, by decide⟩), .test,
    .recv (.data ⟨(CString.lit "PING :x\r\n").bytes, by decide, by decide⟩)]

theorem loop_isolated_ping : ∃ m os s,
    runSteps (mainStep ⟨CString.lit "u", CString.lit "r", CString.lit "n", none⟩) mainInit pingRun =
        some (m, os) ∧ MainState.Loops m s ∧
      ∃ pre post m₀ os₀ buf nickbuf, pingRun = pre ++ post ∧
        runSteps (mainStep ⟨CString.lit "u", CString.lit "r", CString.lit "n", none⟩) mainInit pre =
          some (m₀, os₀) ∧
        m₀.phase = .loop (.init buf nickbuf) ∧ (∀ act ∈ post, act.isConnect = false) ∧
        s = ircLoop (received (post.filterMap MainAct.chunk?)) (.init buf nickbuf) ∧
        s.actions = s.lines.flatMap lineActions :=
  ⟨_, _, _, rfl, .inl rfl, loop_isolated pingRun rfl (.inl rfl)⟩

end

end MinervaBot
