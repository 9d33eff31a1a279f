import Mathlib.Logic.Function.Basic
import MinervaBot.Lib.CString
import MinervaBot.Lib.Run

/-!
# The calculator

`bot_math.c` hands the arguments of `calc` and `eval` to libleo, which parses and calculates them
and calls back for variables and functions. libleo is not part of the program: a `Leo` is what one
of its functions does with the callbacks, and a `LeoLib` has its functions and the numbers and texts
of `double`. Which functions these are is left open, but not that they have a state of their own:
what they do depends on their arguments and on what the callbacks return. Several threads may run
`handle_calc` at a time, and share `ans`; they take turns at every callback.

`calc_answers` says what the threads answer and where the value of `ans` comes from.
-/

namespace MinervaBot

open Lib

/-- What a function of libleo does until it returns: it sets `error`, or calls `variable_resolver`
or `function_resolver` and goes on with what that returns (`none` for `NULL`). -/
inductive Leo (D A : Type) where
  | ret (a : A)
  | setError (text : CString) (k : Leo D A)
  | resolveVariable (name : CString) (k : D → Leo D A)
  | resolveFunction (name : CString) (argv : List D) (k : Option D → Leo D A)

/-- libleo, with queues `Q`, and the constants and texts of `double`, here `D`. What `syardRun` and
`rpnCalc` do depends on the text and the queue alone; `runFunction` is `run_function` with the error
that it sets, if any. -/
structure LeoLib (D Q : Type) where
  syardRun : CString → Leo D (Option Q)
  rpnCalc : Q → Leo D (Option D)
  runFunction : CString → List D → Option D × Option CString
  funcNotFound : CString
  zero : D
  e : D
  pi : D
  g : D → CString

/-- `func_wl`. -/
def funcWl : List CString :=
  ["sin", "cos", "tan", "asin", "acos", "atan", "atan2", "exp", "exp2", "exp10", "log", "log10",
    "log2", "logb", "pow", "sqrt", "cbrt", "hypot", "expm1", "log1p", "sinh", "cosh", "tanh",
    "asinh", "acosh", "atanh", "erf", "erfc", "lgamma", "gamma", "tgamma", "j0", "j1", "y0", "y1",
    "fabs", "fmod"].map CString.lit

/-- The loop of `check_func_wl` over the rest of `func_wl`. -/
def checkFuncWlFrom (f : CString) : List CString → Bool
  | [] => false
  | wl :: rest => if wl = f then true else checkFuncWlFrom f rest

/-- `check_func_wl`. -/
def checkFuncWl (f : CString) : Bool :=
  checkFuncWlFrom f funcWl

section
variable {D Q : Type}

/-- `variable_resolver`, with the value of `ans`. -/
def variableResolver (lib : LeoLib D Q) (ans : D) (name : CString) : D :=
  match name.bytes.head? with
  | some 101 => if name.bytes[1]? = none then lib.e else lib.zero
  | some 112 =>
    if name.bytes[1]? = some 105 ∧ name.bytes[2]? = none then lib.pi else lib.zero
  | some 97 =>
    if name.bytes[1]? = some 110 ∧ name.bytes[2]? = some 115 ∧ name.bytes[3]? = none then ans
    else lib.zero
  | _ => lib.zero

/-- `function_resolver`: what it returns, and the `error` it leaves. -/
def functionResolver (lib : LeoLib D Q) (error : Option CString) (name : CString) (argv : List D) :
    Option D × Option CString :=
  if checkFuncWl name then
    let r := lib.runFunction name argv
    (r.1, r.2.or error)
  else (none, some lib.funcNotFound)

/-- A function of libleo has returned, or goes on. -/
inductive LeoNext (D A : Type) where
  | returned (a : A)
  | goesOn (p : Leo D A) (error : Option CString)

/-- What a function of libleo does next. -/
def Leo.next {A : Type} (lib : LeoLib D Q) (ans : D) (error : Option CString) : Leo D A → LeoNext D A
  | .ret a => .returned a
  | .setError text k => .goesOn k (some text)
  | .resolveVariable name k => .goesOn (k (variableResolver lib ans name)) error
  | .resolveFunction name argv k =>
    let r := functionResolver lib error name argv
    .goesOn (k r.1) r.2

/-- What `handle_calc` says. -/
inductive CalcReply (D : Type) where
  | parseError (error : Option CString)
  | calcError (error : Option CString)
  | value (r : D)

/-- The text of a reply; `none` where the format is given `NULL`. -/
def CalcReply.text (lib : LeoLib D Q) (nick : CString) : CalcReply D → Option CString
  | .parseError error =>
    error.map fun text => nick ++ CString.lit ": Error parsing expression: " ++ text
  | .calcError error =>
    error.map fun text => nick ++ CString.lit ": Error calculating expression: " ++ text
  | .value r => some (nick ++ CString.lit ": " ++ lib.g r)

/-- Where a thread is in `handle_calc`: in `syard_run`, in `rpn_calc`, or before the assignment to
`ans`. -/
inductive CalcPc (D Q : Type) where
  | parsing (p : Leo D (Option Q))
  | calculating (p : Leo D (Option D))
  | storing (r : D)

/-- A call of `handle_calc`: the sender's nick, `where`, `lapi.error`, and where it is. -/
structure CalcThread (D Q : Type) where
  nick : CString
  where' : CString
  error : Option CString
  pc : CalcPc D Q

/-- A message that `handle_calc` sends. -/
structure CalcMsg (D : Type) where
  where' : CString
  nick : CString
  reply : CalcReply D

/-- `ans`, the threads in `handle_calc`, and the messages they have sent. -/
structure CalcState (T D Q : Type) where
  ans : D
  threads : T → Option (CalcThread D Q)
  sent : List (T × CalcMsg D)

/-- A thread starts `handle_calc`, or goes on in it. -/
inductive CalcAct (T : Type) where
  | start (t : T) (nick where' args : CString)
  | run (t : T)

variable {T : Type}

/-- The module as it is loaded. -/
def CalcState.init (lib : LeoLib D Q) : CalcState T D Q where
  ans := lib.zero
  threads := fun _ => none
  sent := []

variable [DecidableEq T]

/-- The state with another place for a thread. -/
def CalcState.setThread (s : CalcState T D Q) (t : T) (th : Option (CalcThread D Q)) :
    CalcState T D Q :=
  { s with threads := Function.update s.threads t th }

/-- A thread sends its reply, and is then elsewhere or done. -/
def CalcState.reply (s : CalcState T D Q) (t : T) (th : CalcThread D Q) (reply : CalcReply D)
    (pc : Option (CalcPc D Q)) : CalcState T D Q :=
  { s.setThread t (pc.map fun pc => { th with pc }) with
    sent := s.sent ++ [(t, ⟨th.where', th.nick, reply⟩)] }

/-- The next step of a thread in `handle_calc`. -/
def CalcState.run (lib : LeoLib D Q) (s : CalcState T D Q) (t : T) (th : CalcThread D Q) :
    CalcState T D Q :=
  match th.pc with
  | .parsing p =>
    match p.next lib s.ans th.error with
    | .goesOn p error => s.setThread t (some { th with error, pc := .parsing p })
    | .returned none => s.reply t th (.parseError th.error) none
    | .returned (some q) => s.setThread t (some { th with pc := .calculating (lib.rpnCalc q) })
  | .calculating p =>
    match p.next lib s.ans th.error with
    | .goesOn p error => s.setThread t (some { th with error, pc := .calculating p })
    | .returned none => s.reply t th (.calcError th.error) none
    | .returned (some r) => s.reply t th (.value r) (some (.storing r))
  | .storing r => { s.setThread t none with ans := r }

/-- One step. -/
def calcStep (lib : LeoLib D Q) (s : CalcState T D Q) :
    CalcAct T → Option (CalcState T D Q × Unit)
  | .start t nick where' args =>
    match s.threads t with
    | some _ => none
    | none => some (s.setThread t (some ⟨nick, where', none, .parsing (lib.syardRun args)⟩), ())
  | .run t => (s.threads t).map fun th => (s.run lib t th, ())

/-! ## Steps -/

/-- The thread is still in libleo. -/
def CalcPc.Busy : CalcPc D Q → Prop
  | .parsing _ | .calculating _ => True
  | .storing _ => False

/-- The steps, each with what it needs and what it leaves: a call starts, it goes on in libleo, it
answers without a value or with one, or it stores the value. -/
inductive CalcStep (lib : LeoLib D Q) (s : CalcState T D Q) : CalcAct T → CalcState T D Q → Prop
  | start : s.threads t = none →
      CalcStep lib s (.start t nick where' args)
        (s.setThread t (some ⟨nick, where', none, .parsing (lib.syardRun args)⟩))
  | goesOn : s.threads t = some th → th.pc.Busy → pc.Busy →
      CalcStep lib s (.run t) (s.setThread t (some { th with error, pc }))
  | fail : s.threads t = some th → th.pc.Busy → (∀ r, reply ≠ .value r) →
      CalcStep lib s (.run t) (s.reply t th reply none)
  | value : s.threads t = some th → th.pc.Busy →
      CalcStep lib s (.run t) (s.reply t th (.value r) (some (.storing r)))
  | store : s.threads t = some th → th.pc = .storing r →
      CalcStep lib s (.run t) { s.setThread t none with ans := r }

variable {lib : LeoLib D Q} {s s' : CalcState T D Q} {act : CalcAct T} {u : Unit}

/-- The next step of a thread is one of these. -/
theorem calcStep_run {t : T} {th : CalcThread D Q} (h : s.threads t = some th) :
    CalcStep lib s (.run t) (s.run lib t th) := by
  obtain ⟨nick, where', error, pc⟩ := th
  cases pc with
  | parsing p =>
    simp only [CalcState.run]
    split
    · exact .goesOn h trivial trivial
    · exact .fail h trivial fun r => by rintro ⟨⟩
    · exact .goesOn h trivial trivial
  | calculating p =>
    simp only [CalcState.run]
    split
    · exact .goesOn h trivial trivial
    · exact .fail h trivial fun r => by rintro ⟨⟩
    · exact .value h trivial
  | storing r => exact .store h rfl

/-- Every step of the function is one of these. -/
theorem calcStep_inv (h : calcStep lib s act = some (s', u)) : CalcStep lib s act s' := by
  cases act with
  | start t nick where' args =>
    simp only [calcStep] at h
    split at h
    · cases h
    · next hnone =>
      cases h
      exact .start hnone
  | run t =>
    obtain ⟨th, hth, heq⟩ := Option.map_eq_some_iff.1 h
    cases heq
    exact calcStep_run hth

/-! ## Runs -/

/-- A libleo that reads every text as `sin(ans)`. -/
def sinLib : LeoLib Int Unit where
  syardRun := fun _ => .ret (some ())
  rpnCalc := fun _ => .resolveVariable (CString.lit "ans") fun a =>
    .resolveFunction (CString.lit "sin") [a] .ret
  runFunction := fun _ argv => (argv.head?, none)
  funcNotFound := CString.lit "Function not found"
  zero := 0
  e := 2
  pi := 3
  g := CString.ofInt

/-- Two threads calculate in turns. -/
def twoCalcs : List (CalcAct Bool) :=
  [.start false (CString.lit "a") (CString.lit "#c") (CString.lit "sin(ans)"), .run false,
    .start true (CString.lit "b") (CString.lit "#d") (CString.lit "sin(ans)"), .run false, .run true,
    .run false, .run true, .run false, .run false]

/-- The channel and the nick of a command that a thread starts. -/
def CalcAct.asked (t : T) : CalcAct T → Option (CString × CString)
  | .start t' nick where' _ => if t' = t then some (where', nick) else none
  | .run _ => none

/-- The channels and nicks of the messages of a thread. -/
def CalcState.answered (s : CalcState T D Q) (t : T) : List (CString × CString) :=
  (s.sent.filter fun m => m.1 = t).map fun m => (m.2.where', m.2.nick)

/-- The command that a thread has still to answer. -/
def unanswered : Option (CalcThread D Q) → List (CString × CString)
  | some ⟨nick, where', _, .parsing _⟩ | some ⟨nick, where', _, .calculating _⟩ => [(where', nick)]
  | _ => []

theorem unanswered_of_busy {th : CalcThread D Q} (h : th.pc.Busy) :
    unanswered (some th) = [(th.where', th.nick)] := by
  obtain ⟨nick, where', error, pc⟩ := th
  cases pc with
  | parsing | calculating => rfl
  | storing => exact h.elim

/-- A message is an answer of the thread that sends it. -/
theorem answered_append (sent : List (T × CalcMsg D)) (t t' : T) (m : CalcMsg D) :
    ((sent ++ [(t', m)]).filter fun m => m.1 = t).map (fun m => (m.2.where', m.2.nick)) =
      (sent.filter fun m => m.1 = t).map (fun m => (m.2.where', m.2.nick)) ++
        if t = t' then [(m.where', m.nick)] else [] := by
  rw [List.filter_append, List.map_append]
  by_cases ht : t' = t
  · simp [ht]
  · simp [ht, Ne.symm ht]

/-- The answer of a thread takes the place of the command that it had to answer. -/
theorem answered_reply {t t' : T} {th : CalcThread D Q} {reply : CalcReply D}
    {pc : Option (CalcPc D Q)} (hth : s.threads t' = some th) (hbusy : th.pc.Busy)
    (hpc : unanswered (pc.map fun pc => { th with pc }) = []) :
    (s.reply t' th reply pc).answered t ++ unanswered ((s.reply t' th reply pc).threads t) =
      s.answered t ++ unanswered (s.threads t) := by
  have hsent : (s.reply t' th reply pc).answered t =
      s.answered t ++ if t = t' then [(th.where', th.nick)] else [] := answered_append s.sent t t' _
  have hthreads : (s.reply t' th reply pc).threads t =
      if t = t' then pc.map fun pc => { th with pc } else s.threads t := Function.update_apply ..
  rw [hsent, hthreads]
  split
  · next heq => rw [hpc, List.append_nil, heq, hth, unanswered_of_busy hbusy]
  · rw [List.append_nil]

/-- A step leaves the answers of a thread, with the command that it has still to answer, as they
are, unless the thread starts a command. -/
theorem calcStep_answered (h : CalcStep lib s act s') (t : T) :
    s'.answered t ++ unanswered (s'.threads t) =
      s.answered t ++ unanswered (s.threads t) ++ (act.asked t).toList := by
  cases h with
  | @start t' nick where' args hidle =>
    show s.answered t ++ unanswered (Function.update s.threads t' _ t) = _
    rw [Function.update_apply, CalcAct.asked]
    by_cases ht : t = t'
    · rw [if_pos ht, if_pos ht.symm, ht, hidle]
      exact congrArg (· ++ _) (List.append_nil _).symm
    · rw [if_neg ht, if_neg (Ne.symm ht), Option.toList_none, List.append_nil]
  | @goesOn t' th pc error hth hbusy hbusy' =>
    show s.answered t ++ unanswered (Function.update s.threads t' _ t) = _
    rw [Function.update_apply, CalcAct.asked, Option.toList_none, List.append_nil]
    split
    · next heq => rw [heq, hth, unanswered_of_busy hbusy, unanswered_of_busy hbusy']
    · rfl
  | fail hth hbusy _ =>
    rw [answered_reply hth hbusy rfl, CalcAct.asked, Option.toList_none, List.append_nil]
  | value hth hbusy =>
    rw [answered_reply hth hbusy rfl, CalcAct.asked, Option.toList_none, List.append_nil]
  | @store t' th r hth hpc =>
    obtain ⟨nick, where', error, pc⟩ := th
    obtain rfl : pc = .storing r := hpc
    show s.answered t ++ unanswered (Function.update s.threads t' none t) = _
    rw [Function.update_apply, CalcAct.asked, Option.toList_none, List.append_nil]
    split
    · next heq => rw [heq, hth]; rfl
    · rfl

/-- A run adds the commands that a thread starts to those that it has answered or has still to
answer. -/
theorem runCalc_answered {t : T} : ∀ {acts : List (CalcAct T)} {s : CalcState T D Q} {os : List Unit},
    runSteps (calcStep lib) s acts = some (s', os) →
      s'.answered t ++ unanswered (s'.threads t) =
        s.answered t ++ unanswered (s.threads t) ++ acts.filterMap (CalcAct.asked t)
  | [], s, _, h => by
    cases h
    exact (List.append_nil _).symm
  | act :: acts, s, _, h => by
    obtain ⟨s₁, _, _, hstep, hrun, -⟩ := runSteps_cons_inv h
    rw [runCalc_answered hrun, calcStep_answered (calcStep_inv hstep), List.append_assoc,
      List.filterMap_cons]
    cases act.asked t <;> rfl

/-- `ans` is `0` or has been announced, and so is what is about to be stored. -/
structure CalcState.Announced (lib : LeoLib D Q) (s : CalcState T D Q) : Prop where
  ans : s.ans = lib.zero ∨ ∃ m ∈ s.sent, m.2.reply = .value s.ans
  storing : ∀ t th r, s.threads t = some th → th.pc = .storing r →
    ∃ m ∈ s.sent, m.2.reply = .value r

/-- A thread that is put elsewhere, with messages added. -/
theorem CalcState.Announced.setThread {t : T} {th : Option (CalcThread D Q)}
    {sent : List (T × CalcMsg D)} (h : s.Announced lib)
    (hsub : ∀ m ∈ s.sent, m ∈ sent)
    (hth : ∀ th', th = some th' → ∀ r, th'.pc = .storing r → ∃ m ∈ sent, m.2.reply = .value r) :
    CalcState.Announced lib { s.setThread t th with sent } := by
  refine ⟨h.ans.imp_right fun ⟨m, hm, hr⟩ => ⟨m, hsub m hm, hr⟩, fun t' th' r hth' hpc => ?_⟩
  replace hth' : Function.update s.threads t th t' = some th' := hth'
  rw [Function.update_apply] at hth'
  split at hth'
  · exact hth th' hth' r hpc
  · obtain ⟨m, hm, hr⟩ := h.storing t' th' r hth' hpc
    exact ⟨m, hsub m hm, hr⟩

theorem CalcPc.Busy.ne_storing {pc : CalcPc D Q} (h : pc.Busy) (r : D) : pc ≠ .storing r := by
  rintro rfl
  exact h

/-- Every step keeps it. -/
theorem CalcState.Announced.step (h : s.Announced lib) (hstep : CalcStep lib s act s') :
    s'.Announced lib := by
  cases hstep with
  | start =>
    refine h.setThread (fun _ hm => hm) fun th' hth' r hpc => ?_
    cases hth'
    cases hpc
  | goesOn _ _ hbusy =>
    refine h.setThread (fun _ hm => hm) fun th' hth' r hpc => ?_
    cases hth'
    exact absurd hpc (hbusy.ne_storing r)
  | fail =>
    refine h.setThread (fun _ hm => List.mem_append_left _ hm) fun th' hth' => ?_
    cases hth'
  | value =>
    refine h.setThread (fun _ hm => List.mem_append_left _ hm) fun th' hth' r hpc => ?_
    cases hth'
    cases hpc
    exact ⟨_, List.mem_append_right _ (List.mem_singleton_self _), rfl⟩
  | @store t _ _ hth hpc =>
    have hrest : CalcState.Announced lib { s.setThread t none with sent := s.sent } :=
      h.setThread (fun _ hm => hm) fun th' hth' => by cases hth'
    exact ⟨.inr (h.storing _ _ _ hth hpc), hrest.storing⟩

/-- Whichever functions libleo has and in whatever order the threads take turns: a thread answers
each of its commands once, in order, in the channel and under the nick of the command, but for the
command that it is still at; and `ans` is `0` or a value that some thread has announced. -/
theorem calc_answers {acts : List (CalcAct T)} {os : List Unit}
    (h : runSteps (calcStep lib) (.init lib) acts = some (s, os)) :
    (∀ t, s.answered t ++ unanswered (s.threads t) = acts.filterMap (CalcAct.asked t)) ∧
      (s.ans = lib.zero ∨ ∃ m ∈ s.sent, m.2.reply = .value s.ans) := by
  refine ⟨fun t => ?_, ?_⟩
  · rw [runCalc_answered h]
    rfl
  · have hinit : CalcState.Announced lib (.init lib : CalcState T D Q) :=
      ⟨.inl rfl, by rintro t th r ⟨⟩⟩
    exact (runSteps_preserves (P := CalcState.Announced lib)
      (fun _ _ _ _ hs hstep => hs.step (calcStep_inv hstep)) hinit h).ans

/-- Two threads calculate. -/
theorem calc_answers_sin : ∃ s os,
    runSteps (calcStep sinLib) (.init (T := Bool) sinLib) twoCalcs = some (s, os) ∧
      (∀ t, s.answered t ++ unanswered (s.threads t) = twoCalcs.filterMap (CalcAct.asked t)) ∧
      (s.ans = sinLib.zero ∨ ∃ m ∈ s.sent, m.2.reply = .value s.ans) := by
  refine ⟨_, _, rfl, ?_⟩
  have hrun : runSteps (calcStep sinLib) (.init (T := Bool) sinLib) twoCalcs = some _ := rfl
  exact calc_answers hrun

end

end MinervaBot
