import MinervaBot.IrcLogin

/-!
# Connections

`main` connects, logs in with `irc_login`, handles lines with `irc_loop`, and starts over when one
of them gives up, until a signal has set `done`. Both loops call `net_recv` in their condition, but
they test the result in different ways: `irc_login` goes on if it is greater than `2`, `irc_loop` if
it is not `0`.

`readsOn_iff` tells for every run of `main` when it reads on from a connection exactly as long as
`net_recv` has positive results.
-/

namespace MinervaBot

open Lib

/-- What a login needs from `main`. -/
structure LoginConfig where
  user : CString
  realname : CString
  nick : CString
  password : Option CString

/-- Where `main` is: at `loop_retry`, in the `net_recv` of `irc_login` (with what the arrays of
`irc_loop` are going to hold), at the condition of `irc_loop`, in its `net_recv`, or at its end. -/
inductive MainPhase where
  | retry
  | login (s : LoginState) (loop : LoopState)
  | loop (s : LoopState)
  | loopRecv (s : LoopState)
  | exited

/-- `main` with the flag `done`; `last` is the last result of `net_recv` for this connection. -/
structure MainState where
  phase : MainPhase
  done : Bool
  last : Option NetRecv

/-- What happens at `loop_retry`: whether `net_connect` succeeds, whether `irc_login` can copy the
nick, and the bytes that are in the arrays of both loops. -/
structure Connect where
  ok : Bool
  malloc : Bool
  loginBuf : Mem
  loopBuf : Mem
  nickbuf : Mem

/-- A signal comes, `main` goes on at `loop_retry` or at the condition of `irc_loop`, or `net_recv`
returns. -/
inductive MainAct where
  | signal
  | connect (c : Connect)
  | test
  | recv (r : NetRecv)

/-- At `loop_retry`. -/
def MainState.retry (config : LoginConfig) (m : MainState) (c : Connect) : MainState :=
  if m.done then { m with phase := .exited }
  else if c.ok && c.malloc then
    { m with
      phase := .login (.init c.loginBuf config.user config.realname config.nick config.password)
        (.init c.loopBuf c.nickbuf)
      last := none }
  else m

/-- Where `main` is after `irc_login` has handled a result of `net_recv`, and its loop has ended
there or not. -/
def afterLoginRecv (loop : LoopState) (res : LoginState × Bool) : MainPhase :=
  if res.2 then (if res.1.loginSuccess then .loop loop else .retry) else .login res.1 loop

/-- Where `main` is after `irc_loop` has handled a result of `net_recv`. -/
def afterLoopRecv (s : LoopState) (r : NetRecv) : MainPhase :=
  match r with
  | .eof => .retry
  | r => .loop (ircLoop [(false, r)] s)

/-- One step of `main`, from the first `loop_retry` on. -/
def mainStep (config : LoginConfig) (m : MainState) : MainAct → Option (MainState × Unit)
  | .signal => some ({ m with done := true }, ())
  | .connect c =>
    match m.phase with
    | .retry => some (m.retry config c, ())
    | _ => none
  | .test =>
    match m.phase with
    | .loop s =>
      -- with `done` the loop sends its `QUIT` and ends
      some ({ m with phase := if m.done then .retry else .loopRecv s }, ())
    | _ => none
  | .recv r =>
    match m.phase with
    | .login s loop =>
      some ({ m with phase := afterLoginRecv loop (loginRecv s r), last := some r }, ())
    | .loopRecv s => some ({ m with phase := afterLoopRecv s r, last := some r }, ())
    | _ => none

/-- `main` before it connects for the first time. -/
def mainInit : MainState where
  phase := .retry
  done := false
  last := none

/-- The result is greater than `0`. -/
def NetRecv.positive : NetRecv → Bool
  | .data _ => true
  | _ => false

/-- `main` is in a loop that, with `done` still `0`, calls `net_recv` for this connection. -/
def MainPhase.reads : MainPhase → Bool
  | .login .. => true
  | .loop _ => true
  | .loopRecv _ => true
  | _ => false

/-- As long as `done` is `0`, `main` reads on after a positive result, and does not after another.
-/
def MainState.ReadsOn (m : MainState) : Prop :=
  m.done = false → ∀ r, m.last = some r → m.phase.reads = r.positive

/-- As long as `done` is `0`, `irc_login` gets no result of `1` or `2`, and `irc_loop` no negative
one. -/
def MainAct.Usual (m : MainState) : MainAct → Prop
  | .recv r => m.done = false →
    match m.phase, r with
    | .login .., .data chunk => chunk.rbuf.length > 2
    | .loopRecv _, .error => False
    | _, _ => True
  | _ => True

/-- The invariant: `main` reads on as it should, and a login that goes on has not succeeded. -/
structure MainState.Tracked (m : MainState) : Prop where
  readsOn : m.ReadsOn
  pending : ∀ s loop, m.phase = .login s loop → s.loginSuccess = false

section
variable {config : LoginConfig} {m m' : MainState} {u : Unit}

/-- What `main` does at `loop_retry` never depends on the connection before. -/
theorem MainState.Tracked.retry (h : m.Tracked) (c : Connect) : (m.retry config c).Tracked := by
  rw [MainState.retry]
  split
  · next hdone => exact ⟨fun hnot => absurd hdone (by simpa using hnot), by rintro s loop ⟨⟩⟩
  · split
    · refine ⟨fun _ r => by rintro ⟨⟩, ?_⟩
      rintro s loop ⟨⟩
      rfl
    · exact h

/-- `irc_login` after a result of `net_recv`. -/
theorem loginRecv_cases (s : LoginState) (r : NetRecv) :
    (∃ chunk, r = .data chunk ∧ chunk.rbuf.length > 2 ∧
        (loginRecv s r).2 = (loginRecv s r).1.loginSuccess) ∨
      (∀ chunk, r = .data chunk → ¬ chunk.rbuf.length > 2) ∧ loginRecv s r = (s, true) := by
  cases r with
  | data chunk =>
    by_cases hlen : chunk.rbuf.length > 2
    · refine .inl ⟨chunk, rfl, hlen, ?_⟩
      rw [loginRecv, if_pos hlen]
    · refine .inr ⟨?_, by rw [loginRecv, if_neg hlen]⟩
      rintro chunk' ⟨⟩
      exact hlen
  | eof => exact .inr ⟨by rintro chunk ⟨⟩, rfl⟩
  | error => exact .inr ⟨by rintro chunk ⟨⟩, rfl⟩

/-- A result of `net_recv` in `irc_login`. -/
theorem MainState.Tracked.login_iff {s : LoginState} {loop : LoopState} {done : Bool}
    {last : Option NetRecv} (h : MainState.Tracked ⟨.login s loop, done, last⟩) (r : NetRecv) :
    ((MainAct.recv r).Usual ⟨.login s loop, done, last⟩ →
        MainState.Tracked ⟨afterLoginRecv loop (loginRecv s r), done, some r⟩) ∧
      (MainState.ReadsOn ⟨afterLoginRecv loop (loginRecv s r), done, some r⟩ →
        (MainAct.recv r).Usual ⟨.login s loop, done, last⟩) := by
  have hpending := h.pending s loop rfl
  rcases loginRecv_cases s r with ⟨chunk, rfl, hlen, hended⟩ | ⟨hshort, heq⟩
  · refine ⟨fun _ => ?_, fun _ _ => hlen⟩
    generalize loginRecv s (.data chunk) = res at hended
    obtain ⟨s', ended⟩ := res
    obtain rfl : ended = s'.loginSuccess := hended
    rw [afterLoginRecv]
    by_cases hsuccess : s'.loginSuccess = true
    · rw [if_pos hsuccess, if_pos hsuccess]
      exact ⟨by rintro - r ⟨⟩; rfl, by rintro s loop ⟨⟩⟩
    · rw [if_neg hsuccess]
      refine ⟨by rintro - r ⟨⟩; rfl, ?_⟩
      rintro s₁ loop₁ ⟨⟩
      simpa using hsuccess
  · have hretry : afterLoginRecv loop (loginRecv s r) = .retry := by
      rw [heq, afterLoginRecv, if_pos rfl, if_neg (by rw [hpending]; decide)]
    rw [hretry]
    constructor
    · intro husual
      refine ⟨?_, by rintro s loop ⟨⟩⟩
      rintro hdone r' ⟨⟩
      cases r with
      | data chunk => exact absurd (husual hdone) (hshort chunk rfl)
      | eof => rfl
      | error => rfl
    · intro hreads hdone
      cases r with
      | data chunk => cases hreads hdone _ rfl
      | eof => trivial
      | error => trivial

/-- A result of `net_recv` in `irc_loop`. -/
theorem loopRecv_iff (s : LoopState) (done : Bool) (last : Option NetRecv) (r : NetRecv) :
    ((MainAct.recv r).Usual ⟨.loopRecv s, done, last⟩ →
        MainState.Tracked ⟨afterLoopRecv s r, done, some r⟩) ∧
      (MainState.ReadsOn ⟨afterLoopRecv s r, done, some r⟩ →
        (MainAct.recv r).Usual ⟨.loopRecv s, done, last⟩) := by
  cases r with
  | data chunk =>
    exact ⟨fun _ => ⟨by rintro - r ⟨⟩; rfl, by rintro s loop ⟨⟩⟩, fun _ _ => trivial⟩
  | eof => exact ⟨fun _ => ⟨by rintro - r ⟨⟩; rfl, by rintro s loop ⟨⟩⟩, fun _ _ => trivial⟩
  | error =>
    constructor
    · intro husual
      exact ⟨fun hdone => (husual hdone).elim, by rintro s loop ⟨⟩⟩
    · intro hreads hdone
      cases hreads hdone _ rfl

/-- From where `main` has read on as it should, a step does so if and only if it meets the
condition. -/
theorem MainState.Tracked.step_iff {act : MainAct} (h : m.Tracked)
    (hstep : mainStep config m act = some (m', u)) :
    (act.Usual m → m'.Tracked) ∧ (m'.ReadsOn → act.Usual m) := by
  obtain ⟨phase, done, last⟩ := m
  cases act with
  | signal =>
    cases hstep
    exact ⟨fun _ => ⟨by rintro ⟨⟩, h.pending⟩, fun _ => trivial⟩
  | connect c =>
    cases phase with
    | retry =>
      cases hstep
      exact ⟨fun _ => h.retry c, fun _ => trivial⟩
    | _ => cases hstep
  | test =>
    cases phase with
    | loop s =>
      cases hstep
      refine ⟨fun _ => ?_, fun _ => trivial⟩
      cases done with
      | true => exact ⟨by rintro ⟨⟩, by rintro s loop ⟨⟩⟩
      | false => exact ⟨h.readsOn, by rintro s loop ⟨⟩⟩
    | _ => cases hstep
  | recv r =>
    cases phase with
    | login s loop =>
      cases hstep
      exact h.login_iff r
    | loopRecv s =>
      cases hstep
      exact loopRecv_iff s done last r
    | _ => cases hstep

/-- In every run of `main`, as long as `done` is `0`, it reads on from a connection after a positive
result of `net_recv` and not after any other, if and only if, as long as `done` is `0`, `irc_login`
never gets a result of `1` or `2` and `irc_loop` never a negative one. -/
theorem readsOn_iff (config : LoginConfig) (acts : List MainAct) :
    EveryState (mainStep config) mainInit acts MainState.ReadsOn ↔
      EachStep (mainStep config) mainInit acts MainAct.Usual := by
  refine everyState_iff_eachStep (I := MainState.Tracked) (fun _ h => h.readsOn) ?_ ?_ acts ?_
  · exact fun m act m' u h husual hstep => (h.step_iff hstep).1 husual
  · exact fun m act m' u h hnot hstep hreads => hnot ((h.step_iff hstep).2 hreads)
  · exact ⟨by rintro - r ⟨⟩, by rintro s loop ⟨⟩⟩

/-- A first result of one byte ends the login, and a socket error does not end `irc_loop`, which
calls `net_recv` again. -/
theorem not_readsOn :
    ¬ EveryState (mainStep ⟨CString.lit "u", CString.lit "r", CString.lit "n", none⟩) mainInit
        [.connect ⟨true, true, fun _ => 0, fun _ => 0, fun _ => 0⟩,
          .recv (.data ⟨[58], by decide, by decide⟩)] MainState.ReadsOn ∧
      ¬ EveryState (mainStep ⟨CString.lit "u", CString.lit "r", CString.lit "n", none⟩) mainInit
        [.connect ⟨true, true, fun _ => 0, fun _ => 0, fun _ => 0⟩,
          .recv (.data ⟨(CString.lit ":s 001 n :hi\r\n").bytes, by decide, by decide⟩),
          .test, .recv .error] MainState.ReadsOn := by
  constructor
  · intro h
    cases h _ _ _ (List.prefix_refl _) rfl rfl _ rfl
  · intro h
    cases h _ _ _ (List.prefix_refl _) rfl rfl _ rfl

end

end MinervaBot
