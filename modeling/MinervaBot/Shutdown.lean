import MinervaBot.Lib.Run
import MinervaBot.MainLoop

/-!
# The end of `main`

`mainStep` goes from `loop_retry` to the end of `net_connect` at once, so it does not tell what a
signal does that comes in between. Here `main` makes a step for each call that it may wait in
(`mainThreadStep`). `mainThread_refines` says that every run of these steps is one of `mainStep`
with the same results of `net_recv`; a signal between the test of `done` and the end of
`net_connect` stands behind the connection there.

Such a signal is noticed late: `main` still connects and logs in, and `irc_login` does not look at
`done`. `shutdown_bounded` counts the steps that are left once `done` is set. How long a step takes
is left open: a call may wait for the network or for a mutex.
-/

namespace MinervaBot

open Lib

/-- Where `main` is: before the test of `done` at `loop_retry`, in `usleep`, in `net_connect`, in
the `net_recv` of `irc_login` (with what the arrays of `irc_loop` are going to hold), before one of
the tests of the loop with `irc_join` (with the channels still to join), at the condition of
`irc_loop`, in its `net_recv`, in `net_disconnect`, in `modules_deinit` and `permissions_cleanup`,
or at its end. -/
inductive MainPc where
  | retry
  | pause
  | connect
  | login (s : LoginState) (loop : LoopState)
  | join (channels : Nat) (loop : LoopState)
  | loop (s : LoopState)
  | loopRecv (s : LoopState)
  | disconnect
  | cleanup
  | exited

/-- `main` with the flag `done`; `last` is the last result of `net_recv` for this connection. -/
structure MainThread where
  pc : MainPc
  done : Bool
  last : Option NetRecv

/-- A signal comes, or `main` goes on: with a test of `done`, or behind a call. -/
inductive MainThreadAct where
  | signal
  | test
  | slept
  | connected (c : Connect)
  | recv (r : NetRecv)
  | joined
  | disconnected
  | cleanedUp

/-- Behind `net_connect`, and the start of `irc_login`. -/
def MainThread.connected (config : LoginConfig) (t : MainThread) (c : Connect) : MainThread :=
  if c.ok then
    if c.malloc then
      { t with
        pc := .login (.init c.loginBuf config.user config.realname config.nick config.password)
          (.init c.loopBuf c.nickbuf)
        last := none }
    else { t with pc := .disconnect }
  else { t with pc := .retry }

/-- Behind a result of `net_recv` in `irc_login`. -/
def MainPc.afterLogin (channels : Nat) (loop : LoopState) (res : LoginState × Bool) : MainPc :=
  if res.2 then (if res.1.loginSuccess then .join channels loop else .disconnect)
  else .login res.1 loop

/-- Behind a result of `net_recv` in `irc_loop`. -/
def MainPc.afterLoop (s : LoopState) : NetRecv → MainPc
  | .eof => .disconnect
  | r => .loop (ircLoop [(false, r)] s)

/-- One step of `main` with this number of channels to join. -/
def mainThreadStep (config : LoginConfig) (channels : Nat) (t : MainThread) :
    MainThreadAct → Option (MainThread × Unit)
  | .signal => some ({ t with done := true }, ())
  | .test =>
    match t.pc with
    | .retry => some ({ t with pc := if t.done then .cleanup else .pause }, ())
    | .loop s => some ({ t with pc := if t.done then .disconnect else .loopRecv s }, ())
    | _ => none
  | .slept =>
    match t.pc with
    | .pause => some ({ t with pc := .connect }, ())
    | _ => none
  | .connected c =>
    match t.pc with
    | .connect => some (t.connected config c, ())
    | _ => none
  | .recv r =>
    match t.pc with
    | .login s loop =>
      some ({ t with pc := .afterLogin channels loop (loginRecv s r), last := some r }, ())
    | .loopRecv s => some ({ t with pc := .afterLoop s r, last := some r }, ())
    | _ => none
  | .joined =>
    match t.pc with
    | .join (k + 1) loop => some ({ t with pc := .join k loop }, ())
    | .join 0 loop => some ({ t with pc := .loop loop }, ())
    | _ => none
  | .disconnected =>
    match t.pc with
    | .disconnect => some ({ t with pc := .retry }, ())
    | _ => none
  | .cleanedUp =>
    match t.pc with
    | .cleanup => some ({ t with pc := .exited }, ())
    | _ => none

/-- `main` before it connects for the first time. -/
def mainThreadInit : MainThread where
  pc := .retry
  done := false
  last := none

/-! ## What a step does -/

/-- A step as a relation. -/
inductive MainThreadStep (config : LoginConfig) (channels : Nat) (done : Bool)
    (last : Option NetRecv) : MainPc → MainThreadAct → MainThread → Prop
  | signal (pc : MainPc) :
      MainThreadStep config channels done last pc .signal ⟨pc, true, last⟩
  | test : MainThreadStep config channels done last .retry .test
      ⟨if done then .cleanup else .pause, done, last⟩
  | loopTest (s : LoopState) : MainThreadStep config channels done last (.loop s) .test
      ⟨if done then .disconnect else .loopRecv s, done, last⟩
  | slept : MainThreadStep config channels done last .pause .slept ⟨.connect, done, last⟩
  | connected (c : Connect) : MainThreadStep config channels done last .connect (.connected c)
      (MainThread.connected config ⟨.connect, done, last⟩ c)
  | loginRecv (s : LoginState) (loop : LoopState) (r : NetRecv) :
      MainThreadStep config channels done last (.login s loop) (.recv r)
        ⟨.afterLogin channels loop (loginRecv s r), done, some r⟩
  | loopRecv (s : LoopState) (r : NetRecv) :
      MainThreadStep config channels done last (.loopRecv s) (.recv r)
        ⟨.afterLoop s r, done, some r⟩
  | joined (k : Nat) (loop : LoopState) :
      MainThreadStep config channels done last (.join (k + 1) loop) .joined
        ⟨.join k loop, done, last⟩
  | joinedAll (loop : LoopState) :
      MainThreadStep config channels done last (.join 0 loop) .joined ⟨.loop loop, done, last⟩
  | disconnected : MainThreadStep config channels done last .disconnect .disconnected
      ⟨.retry, done, last⟩
  | cleanedUp : MainThreadStep config channels done last .cleanup .cleanedUp ⟨.exited, done, last⟩

section
variable {config : LoginConfig} {channels : Nat} {t t' : MainThread} {act : MainThreadAct} {u : Unit}

/-- What a step can be, the signal among them. -/
theorem mainThreadStep_inv (h : mainThreadStep config channels t act = some (t', u)) :
    MainThreadStep config channels t.done t.last t.pc act t' := by
  obtain ⟨pc, done, last⟩ := t
  cases act with
  | signal => cases h; exact .signal pc
  | test =>
    cases pc with
    | retry => cases h; exact .test
    | loop s => cases h; exact .loopTest s
    | _ => cases h
  | slept =>
    cases pc with
    | pause => cases h; exact .slept
    | _ => cases h
  | connected c =>
    cases pc with
    | connect => cases h; exact .connected c
    | _ => cases h
  | recv r =>
    cases pc with
    | login s loop => cases h; exact .loginRecv s loop r
    | loopRecv s => cases h; exact .loopRecv s r
    | _ => cases h
  | joined =>
    cases pc with
    | join k loop =>
      cases k with
      | zero => cases h; exact .joinedAll loop
      | succ k => cases h; exact .joined k loop
    | _ => cases h
  | disconnected =>
    cases pc with
    | disconnect => cases h; exact .disconnected
    | _ => cases h
  | cleanedUp =>
    cases pc with
    | cleanup => cases h; exact .cleanedUp
    | _ => cases h

/-! ## The runs of `mainStep` -/

/-- `main` is between the test of `done` at `loop_retry` and the end of `net_connect`. -/
def MainPc.connects : MainPc → Bool
  | .pause | .connect => true
  | _ => false

/-- The phase of `mainStep` with the same things to come. -/
def MainPc.phase : MainPc → MainPhase
  | .retry | .pause | .connect | .disconnect => .retry
  | .login s start => .login s start
  | .join _ s | .loop s => .loop s
  | .loopRecv s => .loopRecv s
  | .cleanup | .exited => .exited

/-- The state of `mainStep`. While `main` connects, a signal is still to come there. -/
def MainThread.main (t : MainThread) : MainState :=
  ⟨t.pc.phase, t.done && !t.pc.connects, t.last⟩

/-- The result of `net_recv` at a step. -/
def MainThreadAct.recv? : MainThreadAct → Option NetRecv
  | .recv r => some r
  | _ => none

/-- The result of `net_recv` at a step of `mainStep`. -/
def MainAct.recv? : MainAct → Option NetRecv
  | .recv r => some r
  | _ => none

/-- The results of `net_recv` agree where `irc_login` goes on. -/
theorem MainPc.phase_afterLogin (channels : Nat) (loop : LoopState) (res : LoginState × Bool) :
    (MainPc.afterLogin channels loop res).phase = afterLoginRecv loop res ∧
      (MainPc.afterLogin channels loop res).connects = false := by
  unfold afterLogin afterLoginRecv
  split
  · split
    · exact ⟨rfl, rfl⟩
    · exact ⟨rfl, rfl⟩
  · exact ⟨rfl, rfl⟩

/-- They agree where `irc_loop` goes on. -/
theorem MainPc.phase_afterLoop (s : LoopState) (r : NetRecv) :
    (MainPc.afterLoop s r).phase = afterLoopRecv s r ∧ (MainPc.afterLoop s r).connects = false := by
  cases r with
  | data | eof | error => exact ⟨rfl, rfl⟩

/-- `net_connect` and the signals during it, as steps of `mainStep`. -/
theorem MainThread.connected_main (config : LoginConfig) (done : Bool) (last : Option NetRecv)
    (c : Connect) :
    ∃ os, runSteps (mainStep config) ⟨.retry, false, last⟩
      (.connect c :: if done then [.signal] else []) =
        some ((MainThread.connected config ⟨.connect, done, last⟩ c).main, os) := by
  obtain ⟨ok, malloc, loginBuf, loopBuf, nickbuf⟩ := c
  cases ok with
  | false => cases done <;> exact ⟨_, rfl⟩
  | true =>
    cases malloc with
    | false => cases done <;> exact ⟨_, rfl⟩
    | true => cases done <;> exact ⟨_, rfl⟩

/-- Each step is made of at most two of `mainStep`. -/
theorem MainThreadStep.refines {done : Bool} {last : Option NetRecv} {pc : MainPc}
    (h : MainThreadStep config channels done last pc act t') :
    ∃ acts os, runSteps (mainStep config) (MainThread.main ⟨pc, done, last⟩) acts =
        some (t'.main, os) ∧
      acts.filterMap MainAct.recv? = act.recv?.toList := by
  cases h with
  | signal =>
    cases hconnects : pc.connects with
    | true =>
      refine ⟨[], [], ?_, rfl⟩
      simp only [MainThread.main, hconnects, Bool.not_true, Bool.and_false]
      rfl
    | false =>
      refine ⟨[.signal], [()], ?_, rfl⟩
      rw [MainThread.main, MainThread.main, hconnects]
      rfl
  | test =>
    cases done with
    | true => exact ⟨[.connect ⟨false, false, fun _ => 0, fun _ => 0, fun _ => 0⟩], [()], rfl, rfl⟩
    | false => exact ⟨[], [], rfl, rfl⟩
  | loopTest s => cases done <;> exact ⟨[.test], [()], rfl, rfl⟩
  | slept =>
    refine ⟨[], [], ?_, rfl⟩
    cases done <;> rfl
  | connected c =>
    obtain ⟨os, hrun⟩ := MainThread.connected_main config done last c
    refine ⟨.connect c :: if done then [.signal] else [], os, ?_, ?_⟩
    · have hmain : MainThread.main ⟨.connect, done, last⟩ = ⟨.retry, false, last⟩ :=
        congrArg (MainState.mk .retry · last) (Bool.and_false done)
      rw [hmain, hrun]
    · cases done <;> rfl
  | loginRecv s loop r =>
    refine ⟨[.recv r], [()], ?_, rfl⟩
    obtain ⟨hphase, hconnects⟩ := MainPc.phase_afterLogin channels loop
      (MinervaBot.loginRecv s r)
    rw [MainThread.main, MainThread.main, hphase, hconnects]
    rfl
  | loopRecv s r =>
    refine ⟨[.recv r], [()], ?_, rfl⟩
    obtain ⟨hphase, hconnects⟩ := MainPc.phase_afterLoop s r
    rw [MainThread.main, MainThread.main, hphase, hconnects]
    rfl
  | joined | joinedAll | disconnected | cleanedUp => exact ⟨[], [], rfl, rfl⟩

/-- Every run of these steps is one of `mainStep`, with the same results of `net_recv`. -/
theorem mainThread_refines : ∀ {acts : List MainThreadAct} {t : MainThread} {os : List Unit},
    runSteps (mainThreadStep config channels) t acts = some (t', os) →
      ∃ acts' os', runSteps (mainStep config) t.main acts' = some (t'.main, os') ∧
        acts'.filterMap MainAct.recv? = acts.filterMap MainThreadAct.recv?
  | [], t, os, h => by
    cases h
    exact ⟨[], [], rfl, rfl⟩
  | act :: acts, t, os, h => by
    obtain ⟨t₁, _, _, hstep, hrest, -⟩ := runSteps_cons_inv h
    obtain ⟨acts₁, os₁, hrun₁, hrecv₁⟩ := (mainThreadStep_inv hstep).refines
    obtain ⟨acts₂, os₂, hrun₂, hrecv₂⟩ := mainThread_refines hrest
    refine ⟨acts₁ ++ acts₂, os₁ ++ os₂, runSteps_append hrun₂ hrun₁, ?_⟩
    rw [List.filterMap_append, hrecv₁, hrecv₂]
    cases hrecv : act.recv? with
    | none => rw [List.filterMap_cons_none hrecv]; rfl
    | some r => rw [List.filterMap_cons_some hrecv]; rfl

/-! ## With `done` set -/

/-- The step is one of `main`, not a signal. -/
def MainThreadAct.isOwn : MainThreadAct → Bool
  | .signal => false
  | _ => true

/-- The step is behind `net_connect`. -/
def MainThreadAct.isConnected : MainThreadAct → Bool
  | .connected _ => true
  | _ => false

/-- `main` is in `irc_login`. -/
def MainPc.inLogin : MainPc → Bool
  | .login .. => true
  | _ => false

/-- A step of `main` other than a result of `net_recv` in `irc_login` counts. -/
def MainThread.outsideLogin (t : MainThread) (act : MainThreadAct) : Nat :=
  if act.isOwn && !t.pc.inLogin then 1 else 0

/-- The steps outside of `irc_login` that `main` has still to make with `done` set. -/
def MainPc.rank (channels : Nat) : MainPc → Nat
  | .exited => 0
  | .cleanup => 1
  | .retry => 2
  | .disconnect => 3
  | .loop _ => 4
  | .loopRecv _ => 5
  | .join k _ => 5 + k
  | .login .. => 5 + channels
  | .connect => 6 + channels
  | .pause => 7 + channels

/-- With `done` set each step outside of `irc_login` brings `main` nearer to its end. -/
theorem MainThreadStep.rank_le {last : Option NetRecv} {pc : MainPc}
    (h : MainThreadStep config channels true last pc act t') :
    t'.done = true ∧
      t'.pc.rank channels + MainThread.outsideLogin ⟨pc, true, last⟩ act ≤ pc.rank channels := by
  cases h with
  | signal => exact ⟨rfl, Nat.le_refl _⟩
  | test => exact ⟨rfl, Nat.le_refl 2⟩
  | loopTest s => exact ⟨rfl, Nat.le_refl 4⟩
  | slept =>
    refine ⟨rfl, ?_⟩
    show 6 + channels + 1 ≤ 7 + channels
    omega
  | connected c =>
    unfold MainThread.connected
    split
    · split
      · refine ⟨rfl, ?_⟩
        show 5 + channels + 1 ≤ 6 + channels
        omega
      · refine ⟨rfl, ?_⟩
        show 3 + 1 ≤ 6 + channels
        omega
    · refine ⟨rfl, ?_⟩
      show 2 + 1 ≤ 6 + channels
      omega
  | loginRecv s loop r =>
    refine ⟨rfl, ?_⟩
    show (MainPc.afterLogin channels loop _).rank channels ≤ 5 + channels
    unfold MainPc.afterLogin
    split
    · split
      · exact Nat.le_refl _
      · show 3 ≤ 5 + channels
        omega
    · exact Nat.le_refl _
  | loopRecv s r =>
    cases r with
    | eof => exact ⟨rfl, Nat.le_succ 4⟩
    | data | error => exact ⟨rfl, Nat.le_refl 5⟩
  | joined k loop => exact ⟨rfl, Nat.le_refl (5 + k + 1)⟩
  | joinedAll loop => exact ⟨rfl, Nat.le_refl 5⟩
  | disconnected => exact ⟨rfl, Nat.le_refl 3⟩
  | cleanedUp => exact ⟨rfl, Nat.le_refl 1⟩

/-- With `done` set, and neither between the test of `done` and the end of `net_connect` nor in
`irc_login`, `main` does not get there any more. -/
theorem MainThreadStep.stays_out {last : Option NetRecv} {pc : MainPc}
    (h : MainThreadStep config channels true last pc act t') (hconnects : pc.connects = false)
    (hlogin : pc.inLogin = false) :
    t'.pc.connects = false ∧ t'.pc.inLogin = false ∧ act.isConnected = false := by
  cases h with
  | signal => exact ⟨hconnects, hlogin, rfl⟩
  | slept | connected => cases hconnects
  | loginRecv => cases hlogin
  | loopRecv s r =>
    cases r with
    | data | eof | error => exact ⟨rfl, rfl, rfl⟩
  | test | loopTest | joined | joinedAll | disconnected | cleanedUp => exact ⟨rfl, rfl, rfl⟩

/-- The steps left outside of `irc_login`. -/
theorem MainThread.outsideLogin_le : ∀ {acts : List MainThreadAct} {t : MainThread}
    {os : List Unit}, t.done = true →
    runSteps (mainThreadStep config channels) t acts = some (t', os) →
      countSteps (mainThreadStep config channels) MainThread.outsideLogin t acts ≤
        t.pc.rank channels
  | [], _, _, _, _ => Nat.zero_le _
  | act :: acts, t, os, hdone, h => by
    obtain ⟨t₁, _, _, hstep, hrest, -⟩ := runSteps_cons_inv h
    have hinv := mainThreadStep_inv hstep
    rw [hdone] at hinv
    obtain ⟨hdone₁, hrank⟩ := hinv.rank_le
    have hleft := MainThread.outsideLogin_le hdone₁ hrest
    have hcount : MainThread.outsideLogin ⟨t.pc, true, t.last⟩ act = t.outsideLogin act := rfl
    simp only [countSteps, hstep]
    omega

/-- Where `main` stays out of `irc_login`, all its steps are steps outside of it, and it does not
connect. -/
theorem MainThread.countP_isOwn : ∀ {acts : List MainThreadAct} {t : MainThread}
    {os : List Unit}, t.done = true → t.pc.connects = false → t.pc.inLogin = false →
    runSteps (mainThreadStep config channels) t acts = some (t', os) →
      acts.countP MainThreadAct.isOwn =
        countSteps (mainThreadStep config channels) MainThread.outsideLogin t acts ∧
      ∀ act ∈ acts, act.isConnected = false
  | [], _, _, _, _, _, _ => ⟨rfl, List.forall_mem_nil _⟩
  | act :: acts, t, os, hdone, hconnects, hlogin, h => by
    obtain ⟨t₁, _, _, hstep, hrest, -⟩ := runSteps_cons_inv h
    have hinv := mainThreadStep_inv hstep
    rw [hdone] at hinv
    obtain ⟨hconnects₁, hlogin₁, hact⟩ := hinv.stays_out hconnects hlogin
    obtain ⟨hcount, hacts⟩ := MainThread.countP_isOwn hinv.rank_le.1 hconnects₁ hlogin₁ hrest
    refine ⟨?_, List.forall_mem_cons.2 ⟨hact, hacts⟩⟩
    simp only [countSteps, hstep, List.countP_cons, hcount, MainThread.outsideLogin, hlogin,
      Bool.not_false, Bool.and_true]
    exact Nat.add_comm _ _

/-- `main` has no more channels to join than there are. -/
theorem MainThreadStep.join_le {done : Bool} {last : Option NetRecv} {pc : MainPc}
    (h : MainThreadStep config channels done last pc act t')
    (hpc : ∀ k loop, pc = .join k loop → k ≤ channels) :
    ∀ k loop, t'.pc = .join k loop → k ≤ channels := by
  intro k loop hjoin
  cases h with
  | signal => exact hpc k loop hjoin
  | test | loopTest => cases done <;> cases hjoin
  | connected c =>
    unfold MainThread.connected at hjoin
    split at hjoin
    · split at hjoin <;> cases hjoin
    · cases hjoin
  | loginRecv s loop' r =>
    simp only [MainPc.afterLogin] at hjoin
    split at hjoin
    · split at hjoin
      · cases hjoin
        exact Nat.le_refl _
      · cases hjoin
    · cases hjoin
  | loopRecv s r => cases r <;> cases hjoin
  | joined k' loop' =>
    cases hjoin
    exact Nat.le_of_succ_le (hpc _ _ rfl)
  | slept | joinedAll | disconnected | cleanedUp => cases hjoin

/-- In every run, wherever `main` is when `done` is set: it makes at most seven more steps and one
for each channel, but for the results of `net_recv` that `irc_login` waits for. And where it is
neither between the test of `done` at `loop_retry` and the end of `net_connect` nor in `irc_login`,
it makes at most five more steps and one for each channel in all, and does not connect again. -/
theorem shutdown_bounded {acts acts' : List MainThreadAct} {os os' : List Unit}
    (hrun : runSteps (mainThreadStep config channels) mainThreadInit acts = some (t, os))
    (hdone : t.done = true)
    (hrest : runSteps (mainThreadStep config channels) t acts' = some (t', os')) :
    countSteps (mainThreadStep config channels) MainThread.outsideLogin t acts' ≤ 7 + channels ∧
      (t.pc.connects = false → t.pc.inLogin = false →
        acts'.countP MainThreadAct.isOwn ≤ 5 + channels ∧
          ∀ act ∈ acts', act.isConnected = false) := by
  have hjoin : ∀ k loop, t.pc = .join k loop → k ≤ channels :=
    runSteps_preserves (P := fun t : MainThread => ∀ k loop, t.pc = .join k loop → k ≤ channels)
      (fun _ _ _ _ h hstep => (mainThreadStep_inv hstep).join_le h) (by rintro k loop ⟨⟩) hrun
  have hleft := MainThread.outsideLogin_le hdone hrest
  constructor
  · refine hleft.trans ?_
    cases hpc : t.pc with
    | join k loop => exact (Nat.add_le_add_left (hjoin k loop hpc) 5).trans (by omega)
    | _ => simp only [MainPc.rank]; omega
  · intro hconnects hlogin
    obtain ⟨hcount, hacts⟩ := MainThread.countP_isOwn hdone hconnects hlogin hrest
    refine ⟨hcount.trans_le (hleft.trans ?_), hacts⟩
    cases hpc : t.pc with
    | join k loop => exact Nat.add_le_add_left (hjoin k loop hpc) 5
    | pause | connect => rw [hpc] at hconnects; cases hconnects
    | _ => simp only [MainPc.rank]; omega

end

/-- The configuration of the run below. -/
def stopConfig : LoginConfig :=
  ⟨CString.lit "u", CString.lit "r", CString.lit "n", none⟩

/-- A signal comes while `main` waits before it connects. -/
def signalRun : List MainThreadAct :=
  [.test, .signal]

/-- `main` connects, logs in, joins a channel and ends. -/
def stopRun : List MainThreadAct :=
  [.slept, .connected ⟨true, true, fun _ => 0, fun _ => 0, fun _ => 0⟩,
    .recv (.data ⟨(CString.lit ":s 001 n :welcome\r\n").bytes, by decide, by decide⟩), .joined, .joined,
    .test, .disconnected, .test, .cleanedUp]

/-- `main` still logs in and joins its channel before it ends: eight steps. -/
theorem shutdown_bounded_pause : ∃ t os t' os',
    runSteps (mainThreadStep stopConfig 1) mainThreadInit signalRun = some (t, os) ∧
      t.done = true ∧ runSteps (mainThreadStep stopConfig 1) t stopRun = some (t', os') ∧
      t'.pc = .exited ∧
      countSteps (mainThreadStep stopConfig 1) MainThread.outsideLogin t stopRun = 8 ∧
      countSteps (mainThreadStep stopConfig 1) MainThread.outsideLogin t stopRun ≤ 7 + 1 := by
  have hrun : runSteps (mainThreadStep stopConfig 1) mainThreadInit signalRun =
      some (⟨.pause, true, none⟩, [(), ()]) := rfl
  exact ⟨_, _, _, _, hrun, rfl, rfl, rfl, rfl, (shutdown_bounded hrun rfl rfl).1⟩

end MinervaBot
