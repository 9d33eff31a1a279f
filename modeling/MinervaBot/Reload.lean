import MinervaBot.CommandTable
import MinervaBot.Modules

/-!
# Reloading a module

When a file in the directory of the modules was written, `modules_watchdir` unloads its module and
loads it again. Both leave their work to a thread: the one makes the calls of `unregister_cmd` of
the old library, the other the calls of `register_cmd` of the new one. `threadpool_queue_deinit`
joins the first before the second is started, but its threads are created detached, and the join of
a detached thread does not wait.

`reload_keeps_commands_iff` tells for which orders of the calls the new commands are bound in the
end. `reload_keeps_commands_of_joinable` shows that the join would have been enough.
-/

namespace MinervaBot

open Lib

variable {H : Type}

/-! ## The last call for a word -/

/-- The name a call is for. -/
def CommandOp.cmdname : CommandOp H → CString
  | .register _ cmdname _ => cmdname
  | .unregister cmdname => cmdname

/-- The name and the handler of a registration, `none` for a removal. -/
def CommandOp.registration? : CommandOp H → Option (CString × H)
  | .register _ cmdname handler => handler.map fun handler => (cmdname, handler)
  | .unregister _ => none

/-- The name of a removal, `none` for a registration. -/
def CommandOp.removal? : CommandOp H → Option CString
  | .register .. => none
  | .unregister cmdname => some cmdname

section
variable {cmds cmds' : CommandTree H} {calloc : Nat → Bool} {cmdname : CString} {r : Int} {w : Word}

/-- A call is a step of the map. -/
theorem CallStep.mapStep {call : LoggedCall H} (h : CallStep cmds call cmds') :
    CommandMap.Step cmds.find call.1 call.2 cmds'.find := by
  obtain ⟨cmds₁, ret, hstep, hmap⟩ := commandStep_refines cmds call.1
  obtain ⟨rfl, rfl⟩ := Prod.mk.inj (Option.some.inj (h.symm.trans hstep))
  exact hmap

/-- A call leaves the words it is not for. -/
theorem CallStep.find_of_ne {call : LoggedCall H} (h : CallStep cmds call cmds')
    (hw : lowercase call.1.cmdname.bytes ≠ some w) : cmds'.find w = cmds.find w := by
  obtain ⟨op, r⟩ := call
  have hmap := h.mapStep
  generalize cmds'.find = m at hmap ⊢
  cases hmap with
  | register hw' =>
    refine Function.update_of_ne ?_ _ _
    rintro rfl
    exact hw hw'
  | unregister hw' =>
    refine Function.update_of_ne ?_ _ _
    rintro rfl
    exact hw hw'
  | failed => rfl

/-- A registration returns `0` and binds its word, or it returns a negative number. -/
theorem CallStep.register_cases {handler : Option H}
    (h : CallStep cmds (.register calloc cmdname handler, r) cmds') :
    (r = 0 ∧ ∃ w, lowercase cmdname.bytes = some w ∧ cmds'.find w = handler) ∨ r < 0 := by
  have hmap := h.mapStep
  generalize cmds'.find = m at hmap ⊢
  cases hmap with
  | register hw => exact .inl ⟨rfl, _, hw, Function.update_self _ _ _⟩
  | failed hr => exact .inr hr

/-- A removal unbinds its word. -/
theorem CallStep.find_unregister (h : CallStep cmds (.unregister cmdname, r) cmds')
    (hw : lowercase cmdname.bytes = some w) : cmds'.find w = none := by
  cases h
  exact modulesUnregisterCmdLoop_unbinds cmds hw

end

/-- The registrations of a log, in order. -/
def registrations (log : List (LoggedCall H)) : List (CString × H) :=
  log.filterMap fun call => call.1.registration?

/-- The names of the removals of a log, in order. -/
def removals (log : List (LoggedCall H)) : List CString :=
  log.filterMap fun call => call.1.removal?

@[simp] theorem registrations_append (log log' : List (LoggedCall H)) :
    registrations (log ++ log') = registrations log ++ registrations log' :=
  List.filterMap_append

@[simp] theorem removals_append (log log' : List (LoggedCall H)) :
    removals (log ++ log') = removals log ++ removals log' :=
  List.filterMap_append

/-- A call that a job may have made without an error: a removal, or the registration of a handler
that returned `0`. -/
inductive LoggedCall.Done : LoggedCall H → Prop
  | register : Done (.register calloc cmdname (some handler), 0)
  | unregister : Done (.unregister cmdname, r)

/-- One more call without an error. -/
theorem done_concat {log : List (LoggedCall H)} {call : LoggedCall H}
    (hlog : ∀ c ∈ log, c.Done) (hcall : call.Done) : ∀ c ∈ log ++ [call], c.Done := by
  intro c hc
  rcases List.mem_append.1 hc with hc | hc
  · exact hlog c hc
  · rw [List.mem_singleton.1 hc]
    exact hcall

/-- The registrations of a log are among its calls. -/
theorem mem_of_mem_registrations {log : List (LoggedCall H)} {p : CString × H}
    (hp : p ∈ registrations log) :
    ∃ call ∈ log, call.1.registration? = some p ∧ call.1.cmdname = p.1 := by
  obtain ⟨⟨op, r⟩, hmem, hcall⟩ := List.mem_filterMap.1 hp
  refine ⟨(op, r), hmem, hcall, ?_⟩
  cases op with
  | register calloc cmdname handler =>
    obtain ⟨handler, -, rfl⟩ := Option.map_eq_some_iff.1 hcall
    rfl
  | unregister cmdname => cases hcall

/-- Among calls without an error, the last one for a word decides whether it is bound. -/
theorem last_call_decides {cmds cmds' : CommandTree H} {log : List (LoggedCall H)} {w : Word}
    (hpath : Path CallStep cmds log cmds') (hdone : ∀ call ∈ log, call.Done)
    (hw : ∃ call ∈ log, lowercase call.1.cmdname.bytes = some w) :
    ∃ pre call post, log = pre ++ call :: post ∧
      (∀ c ∈ post, lowercase c.1.cmdname.bytes ≠ some w) ∧
      lowercase call.1.cmdname.bytes = some w ∧
      ((∃ p, call.1.registration? = some p ∧ call.1.cmdname = p.1 ∧ cmds'.find w = some p.2) ∨
        call.1.registration? = none ∧ cmds'.find w = none) := by
  obtain ⟨pre, call, post, rfl, hcall, hpost⟩ := exists_last hw
  obtain ⟨c₁, -, hpath⟩ := hpath.append_inv
  cases hpath with
  | cons hstep hrest =>
  have hframe := hrest.frame (f := fun c => c.find w) (fun _ _ _ hne h => h.find_of_ne hne) hpost
  refine ⟨pre, call, post, rfl, hpost, hcall, ?_⟩
  rw [hframe]
  cases hdone call (by simp) with
  | register =>
    rcases hstep.register_cases with ⟨-, w', hw', hfind⟩ | hneg
    · obtain rfl : w = w' := Option.some.inj (hcall.symm.trans hw')
      exact .inl ⟨_, rfl, rfl, hfind⟩
    · exact absurd hneg (by decide)
  | unregister => exact .inr ⟨rfl, hstep.find_unregister hcall⟩

/-- The handler that `module_init` registers for a word last. -/
def Library.handlerOf (lib : Library H) (w : Word) : Option H :=
  (lib.moduleInit.filter fun p => lowercase p.1.bytes = some w).getLast?.map (·.2)

/-- Every name that `module_init` registers is bound, to the handler it registered. -/
def Library.Bound (lib : Library H) (cmds : CommandTree H) : Prop :=
  ∀ p ∈ lib.moduleInit, ∃ w handler, lowercase p.1.bytes = some w ∧
    lib.handlerOf w = some handler ∧ cmds.find w = some handler

/-- The condition on the order of the calls: a removal of a word that `module_init` registers comes
before a registration of this word. -/
def Library.RemovedFirst (lib : Library H) (log : List (LoggedCall H)) : Prop :=
  ∀ pre cmdname r post w, log = pre ++ (.unregister cmdname, r) :: post →
    lowercase cmdname.bytes = some w → (∃ p ∈ lib.moduleInit, lowercase p.1.bytes = some w) →
    ∃ p ∈ registrations post, lowercase p.1.bytes = some w

/-- The word of a registration gets the handler of the last registration for it. -/
theorem Library.handlerOf_last {lib : Library H} {w : Word} {cmdname : CString} {handler : H}
    {pre post : List (CString × H)} (h : lib.moduleInit = pre ++ (cmdname, handler) :: post)
    (hw : lowercase cmdname.bytes = some w) (hpost : ∀ p ∈ post, lowercase p.1.bytes ≠ some w) :
    lib.handlerOf w = some handler := by
  have hnil : post.filter (fun p => lowercase p.1.bytes = some w) = [] := by
    simpa [List.filter_eq_nil_iff] using hpost
  rw [Library.handlerOf, h, List.filter_append, List.filter_cons_of_pos (by simpa using hw), hnil]
  simp

/-- After calls without an error whose registrations are those of `module_init`, the names that it
registers are bound if and only if the removals came first. Every word it registers has a last call,
and this call decides. -/
theorem Library.bound_iff {lib : Library H} {cmds cmds' : CommandTree H}
    {log : List (LoggedCall H)} (hpath : Path CallStep cmds log cmds')
    (hdone : ∀ call ∈ log, call.Done) (hregs : registrations log = lib.moduleInit) :
    lib.Bound cmds' ↔ lib.RemovedFirst log := by
  constructor
  · rintro hbound pre cmdname r post w rfl hw ⟨p, hp, hpw⟩
    obtain ⟨w', handler, hpw', -, hfind⟩ := hbound p hp
    obtain rfl : w = w' := Option.some.inj (hpw.symm.trans hpw')
    obtain ⟨c₁, -, hpath⟩ := hpath.append_inv
    -- the last call for the word from the removal on
    obtain ⟨pre', call, post', hpost, -, hcall, hcases⟩ := last_call_decides hpath
      (fun call hmem => hdone call (by simp [List.mem_cons.1 hmem]))
      ⟨_, .head _, hw⟩
    rcases hcases with ⟨q, hq, hname, -⟩ | ⟨-, hnone⟩
    · have hmem : q ∈ registrations ((.unregister cmdname, r) :: post) := by
        rw [hpost]
        exact List.mem_filterMap.2 ⟨call, by simp, hq⟩
      exact ⟨q, hmem, hname ▸ hcall⟩
    · rw [hfind] at hnone
      cases hnone
  · intro hfirst p hp
    obtain ⟨call, hmem, hcall, hname⟩ := mem_of_mem_registrations (hregs ▸ hp)
    obtain ⟨w, hw⟩ : ∃ w, lowercase p.1.bytes = some w := by
      obtain ⟨c, c', hstep⟩ := hpath.exists_step call hmem
      cases hdone call hmem with
      | register =>
        rcases hstep.register_cases with ⟨-, w, hw, -⟩ | hneg
        · exact ⟨w, hname ▸ hw⟩
        · exact absurd hneg (by decide)
      | unregister => cases hcall
    obtain ⟨pre, call, post, hlog, hpost, hcallw, hcases⟩ :=
      last_call_decides hpath hdone ⟨call, hmem, hname ▸ hw⟩
    have hnone : ∀ q ∈ registrations post, lowercase q.1.bytes ≠ some w := by
      intro q hq
      obtain ⟨c, hc, -, hqname⟩ := mem_of_mem_registrations hq
      exact hqname ▸ hpost c hc
    rcases hcases with ⟨q, hq, hqname, hfind⟩ | ⟨hremoval, -⟩
    · have hinit : lib.moduleInit = registrations pre ++ q :: registrations post := by
        rw [← hregs, hlog, registrations_append]
        simp [registrations, hq]
      exact ⟨w, q.2, hw, Library.handlerOf_last hinit (hqname ▸ hcallw) hnone, hfind⟩
    · cases hdone call (by simp [hlog]) with
      | register => cases hremoval
      | unregister =>
        obtain ⟨q, hq, hqw⟩ := hfirst pre _ _ post w hlog hcallw ⟨p, hp, hw⟩
        exact absurd hqw (hnone q hq)

/-! ## The two jobs -/

/-- The steps of a reload whose jobs are at `n` and `n + 1`: the watching thread leaves the join and
loads the library, and the jobs make their calls and end. -/
inductive ReloadAct (n : Nat) (lib : Library H) : LoaderAct H → Prop
  | join : ReloadAct n lib .join
  | load : sys.dlopen = some lib → ReloadAct n lib (.load sys)
  | call : n ≤ j → ReloadAct n lib (.call j calloc)
  | finish : n ≤ j → ReloadAct n lib (.finish j)
  | fail : n ≤ j → ReloadAct n lib (.fail j)

/-- How far the thread of the old library is: the names it has removed and those it has to. -/
def DeinitAt (names : List CString) (log : List (LoggedCall H)) : Job H → Prop
  | .deinit _ _ todo => removals log ++ todo = names
  | .finished error => error = false → removals log = names
  | .init .. => False

/-- How far the thread of the new library is. Its sum of return values, none of which is positive,
is `0` as long as all its registrations succeeded. -/
def InitAt (lib : Library H) (log : List (LoggedCall H)) : Job H → Prop
  | .init _ _ todo ret =>
    registrations log ++ todo = lib.moduleInit ∧ ret ≤ 0 ∧ (ret = 0 → ∀ call ∈ log, call.Done)
  | .finished error =>
    error = false → registrations log = lib.moduleInit ∧ ∀ call ∈ log, call.Done
  | .deinit .. => False

/-- The invariant of a reload: the thread of the old library is at `n`, and that of the new one is
not there yet, or it is at `n + 1` and the watching thread reads the next event. -/
structure ReloadInv (n : Nat) (names : List CString) (lib : Library H)
    (log : List (LoggedCall H)) (s : Loader H) : Prop where
  deinit : ∃ job, s.jobs[n]? = some job ∧ DeinitAt names log job
  init : s.jobs.length = n + 1 ∧ registrations log = [] ∧ (∀ call ∈ log, call.Done) ∨
    s.jobs.length = n + 2 ∧ s.watchdog = .read ∧
      ∃ job, s.jobs[n + 1]? = some job ∧ InitAt lib log job

/-- A removal more does not concern the thread of the new library. -/
theorem InitAt.unregister {lib : Library H} {log : List (LoggedCall H)} {job : Job H}
    {cmdname : CString} {r : Int} (h : InitAt lib log job) :
    InitAt lib (log ++ [(.unregister cmdname, r)]) job := by
  have hregs : registrations (log ++ [(.unregister cmdname, r)]) = registrations log := by
    simp [registrations, CommandOp.registration?]
  cases job with
  | init ctx ctxPos todo ret =>
    exact ⟨hregs ▸ h.1, h.2.1, fun hret => done_concat (h.2.2 hret) .unregister⟩
  | deinit ctx ctxPos todo => exact h
  | finished error => exact fun he => ⟨hregs ▸ (h he).1, done_concat (h he).2 .unregister⟩

/-- A registration more does not concern the thread of the old library. -/
theorem DeinitAt.register {names : List CString} {log : List (LoggedCall H)} {job : Job H}
    {calloc : Nat → Bool} {cmdname : CString} {handler : Option H} {r : Int}
    (h : DeinitAt names log job) :
    DeinitAt names (log ++ [(.register calloc cmdname handler, r)]) job := by
  have hremovals : removals (log ++ [(.register calloc cmdname handler, r)]) = removals log := by
    simp [removals, CommandOp.removal?]
  cases job with
  | init ctx ctxPos todo ret => exact h
  | deinit ctx ctxPos todo => exact (congrArg (· ++ todo) hremovals).trans h
  | finished error => exact fun he => hremovals.trans (h he)

/-- The calls of the thread of the old library are removals. -/
theorem DeinitAt.nextCall {names : List CString} {log : List (LoggedCall H)} {job : Job H}
    {calloc : Nat → Bool} {op : CommandOp H} (h : DeinitAt names log job)
    (hop : job.nextCall calloc = some op) :
    ∃ cmdname, op = .unregister cmdname ∧
      ∀ r, DeinitAt names (log ++ [(op, r)]) (job.afterCall r) := by
  cases job with
  | init => exact h.elim
  | finished error => cases hop
  | deinit ctx ctxPos todo =>
    cases todo with
    | nil => cases hop
    | cons cmdname todo =>
      cases hop
      refine ⟨cmdname, rfl, fun r => ?_⟩
      simpa [DeinitAt, Job.afterCall, removals, CommandOp.removal?] using h

/-- The calls of the thread of the new library are registrations. -/
theorem InitAt.nextCall {lib : Library H} {log : List (LoggedCall H)} {job : Job H}
    {calloc : Nat → Bool} {op : CommandOp H} (h : InitAt lib log job)
    (hop : job.nextCall calloc = some op) :
    ∃ cmdname handler, op = .register calloc cmdname (some handler) ∧
      ∀ r, r ≤ 0 → InitAt lib (log ++ [(op, r)]) (job.afterCall r) := by
  cases job with
  | deinit => exact h.elim
  | finished error => cases hop
  | init ctx ctxPos todo ret =>
    cases todo with
    | nil => cases hop
    | cons p todo =>
      cases hop
      obtain ⟨hregs, hret, hdone⟩ := h
      refine ⟨p.1, p.2, rfl, fun r hr => ⟨?_, by omega, fun hsum => ?_⟩⟩
      · simpa [registrations, CommandOp.registration?] using hregs
      · obtain rfl : r = 0 := by omega
        exact done_concat (hdone (by omega)) .register

section
variable {n : Nat} {names : List CString} {lib : Library H} {log log' : List (LoggedCall H)}
  {s s' : Loader H} {job : Job H} {j : Nat}

/-- The job of a step of a reload is one of the two. -/
theorem ReloadInv.job_cases (h : ReloadInv n names lib log s) (hj : n ≤ j)
    (hjob : s.jobs[j]? = some job) :
    (j = n ∧ DeinitAt names log job) ∨
      (j = n + 1 ∧ s.jobs.length = n + 2 ∧ s.watchdog = .read ∧ InitAt lib log job) := by
  have hlt : j < s.jobs.length := (List.getElem?_eq_some_iff.1 hjob).1
  by_cases hjn : j = n
  · subst hjn
    obtain ⟨job', hjob', hat⟩ := h.deinit
    obtain rfl : job = job' := Option.some.inj (hjob.symm.trans hjob')
    exact .inl ⟨rfl, hat⟩
  · rcases h.init with ⟨hlen, -⟩ | ⟨hlen, hwatchdog, job', hjob', hat⟩
    · omega
    · obtain rfl : j = n + 1 := by omega
      obtain rfl : job = job' := Option.some.inj (hjob.symm.trans hjob')
      exact .inr ⟨rfl, hlen, hwatchdog, hat⟩

/-- A step of the thread of the old library. -/
theorem ReloadInv.set_deinit (h : ReloadInv n names lib log s)
    (hjobs : s'.jobs = s.jobs.set n job) (hwatchdog : s'.watchdog = s.watchdog)
    (hlog : log' = log ∨ ∃ cmdname r, log' = log ++ [(.unregister cmdname, r)])
    (hjob : DeinitAt names log' job) : ReloadInv n names lib log' s' := by
  obtain ⟨old, hold, -⟩ := h.deinit
  have hlt : n < s.jobs.length := (List.getElem?_eq_some_iff.1 hold).1
  refine ⟨⟨job, by rw [hjobs, List.getElem?_set_self hlt], hjob⟩, ?_⟩
  rw [hjobs, hwatchdog, List.length_set, List.getElem?_set_ne (Nat.succ_ne_self n).symm]
  rcases hlog with rfl | ⟨cmdname, r, rfl⟩
  · exact h.init
  · rcases h.init with ⟨hlen, hregs, hdone⟩ | ⟨hlen, hread, job', hjob', hat⟩
    · exact .inl ⟨hlen, by simpa [registrations, CommandOp.registration?] using hregs,
        done_concat hdone .unregister⟩
    · exact .inr ⟨hlen, hread, job', hjob', hat.unregister⟩

/-- A step of the thread of the new library. -/
theorem ReloadInv.set_init (h : ReloadInv n names lib log s) (hlen : s.jobs.length = n + 2)
    (hread : s.watchdog = .read) (hjobs : s'.jobs = s.jobs.set (n + 1) job)
    (hwatchdog : s'.watchdog = s.watchdog)
    (hlog : log' = log ∨
      ∃ calloc cmdname handler r, log' = log ++ [(.register calloc cmdname handler, r)])
    (hjob : InitAt lib log' job) : ReloadInv n names lib log' s' := by
  obtain ⟨old, hold, hat⟩ := h.deinit
  refine ⟨⟨old, ?_, ?_⟩, .inr ⟨?_, hwatchdog.trans hread, job, ?_, hjob⟩⟩
  · rw [hjobs, List.getElem?_set_ne (Nat.succ_ne_self n), hold]
  · rcases hlog with rfl | ⟨calloc, cmdname, handler, r, rfl⟩
    · exact hat
    · exact hat.register
  · rw [hjobs, List.length_set, hlen]
  · rw [hjobs, List.getElem?_set_self (by omega)]

/-- A call of one of the two threads. -/
theorem ReloadInv.call {op : CommandOp H} {r : Int} {calloc : Nat → Bool}
    (h : ReloadInv n names lib log s) (hj : n ≤ j) (hjob : s.jobs[j]? = some job)
    (hop : job.nextCall calloc = some op) (hcall : CallStep s.cmds (op, r) s'.cmds)
    (hwatchdog : s'.watchdog = s.watchdog) (hjobs : s'.jobs = s.jobs.set j (job.afterCall r)) :
    ReloadInv n names lib (log ++ [(op, r)]) s' := by
  rcases h.job_cases hj hjob with ⟨rfl, hat⟩ | ⟨rfl, hlen, hread, hat⟩
  · obtain ⟨cmdname, rfl, hat'⟩ := hat.nextCall hop
    exact h.set_deinit hjobs hwatchdog (.inr ⟨cmdname, r, rfl⟩) (hat' r)
  · obtain ⟨cmdname, handler, rfl, hat'⟩ := hat.nextCall hop
    have hr : r ≤ 0 := by
      rcases hcall.register_cases with ⟨rfl, -⟩ | hneg
      · exact Int.le_refl 0
      · exact Int.le_of_lt hneg
    exact h.set_init hlen hread hjobs hwatchdog (.inr ⟨calloc, cmdname, some handler, r, rfl⟩)
      (hat' r hr)

/-- Every step of a reload keeps the invariant, one case for each step. -/
theorem ReloadInv.step {modDir : CString} {detached : Bool} {act : LoaderAct H}
    {out : Option (LoggedCall H)} (h : ReloadInv n names lib log s) (hact : ReloadAct n lib act)
    (hstep : loaderStep modDir detached s act = some (s', out)) :
    ReloadInv n names lib (log ++ out.toList) s' := by
  cases hact with
  | join =>
    obtain ⟨job, evt, hjoin, -, rfl, -, -, hjobs⟩ := loaderStep_join hstep
    rw [Option.toList_none, List.append_nil]
    refine ⟨hjobs ▸ h.deinit, .inl ?_⟩
    rcases h.init with hinit | ⟨-, hread, -⟩
    · exact hjobs ▸ hinit
    · cases hjoin.symm.trans hread
  | load hlib =>
    obtain ⟨name, hload, rfl, -, hread, hjobs⟩ := loaderStep_load hstep
    rw [Option.toList_none, List.append_nil]
    rcases h.init with ⟨hlen, hregs, hdone⟩ | ⟨-, hread', -⟩
    · rcases hjobs with hjobs | ⟨lib', ctx, ctxPos, hlib', hjobs⟩
      · exact ⟨hjobs ▸ h.deinit, .inl ⟨hjobs ▸ hlen, hregs, hdone⟩⟩
      · obtain rfl : lib = lib' := Option.some.inj (hlib.symm.trans hlib')
        obtain ⟨old, hold, hat⟩ := h.deinit
        refine ⟨⟨old, ?_, hat⟩, .inr ⟨?_, hread, .init ctx ctxPos lib.moduleInit 0, ?_, ?_⟩⟩
        · rw [hjobs, List.getElem?_append_left (by omega), hold]
        · rw [hjobs, List.length_append, hlen, List.length_singleton]
        · rw [hjobs, ← hlen, List.getElem?_concat_length]
        · exact ⟨by rw [hregs, List.nil_append], Int.le_refl 0, fun _ => hdone⟩
    · cases hload.symm.trans hread'
  | call hj =>
    obtain ⟨job, op, r, hjob, hop, rfl, hcall, hwatchdog, hjobs⟩ := loaderStep_call hstep
    exact h.call hj hjob hop hcall hwatchdog hjobs
  | finish hj =>
    obtain ⟨job, error, hjob, rfl, -, hwatchdog, hjobs, hcases⟩ := loaderStep_finish hstep
    rw [Option.toList_none, List.append_nil]
    rcases h.job_cases hj hjob with ⟨rfl, hat⟩ | ⟨rfl, hlen, hread, hat⟩
    · refine h.set_deinit hjobs hwatchdog (.inl rfl) fun _ => ?_
      rcases hcases with ⟨ctx, ctxPos, ret, rfl, -⟩ | ⟨ctx, ctxPos, rfl⟩
      · exact hat.elim
      · exact (List.append_nil _).symm.trans hat
    · refine h.set_init hlen hread hjobs hwatchdog (.inl rfl) fun herror => ?_
      rcases hcases with ⟨ctx, ctxPos, ret, rfl, hret⟩ | ⟨ctx, ctxPos, rfl⟩
      · exact ⟨(List.append_nil _).symm.trans hat.1, hat.2.2 (hret herror)⟩
      · exact hat.elim
  | fail hj =>
    obtain ⟨job, hjob, rfl, -, hwatchdog, hjobs⟩ := loaderStep_fail hstep
    rw [Option.toList_none, List.append_nil]
    rcases h.job_cases hj hjob with ⟨rfl, -⟩ | ⟨rfl, hlen, hread, -⟩
    · exact h.set_deinit hjobs hwatchdog (.inl rfl) nofun
    · exact h.set_init hlen hread hjobs hwatchdog (.inl rfl) nofun

/-- The invariant holds once the event has started the thread of the old library. -/
theorem ReloadInv.event {evt : InotifyEvent} (h : s.cleanupOf evt.name = some names) :
    ReloadInv s.jobs.length names lib [] (watchdirEvent true s evt) := by
  obtain ⟨ctx, ctxPos, hevent⟩ := watchdirEvent_of_cleanupOf h
  rw [hevent]
  refine ⟨⟨.deinit ctx ctxPos names, List.getElem?_concat_length, rfl⟩, .inl ⟨?_, rfl, nofun⟩⟩
  exact List.length_append

/-- Without an error, the thread of the new library has made its registrations. -/
theorem ReloadInv.finished (h : ReloadInv n names lib log s)
    (hinit : s.jobs[n + 1]? = some (.finished false)) :
    registrations log = lib.moduleInit ∧ ∀ call ∈ log, call.Done := by
  rcases h.job_cases (Nat.le_succ n) hinit with ⟨hne, -⟩ | ⟨-, -, -, hdone⟩
  · omega
  · exact hdone rfl

end

/-- One more output of a run in its log. -/
theorem callLog_concat (outs : List (Option (LoggedCall H))) (out : Option (LoggedCall H)) :
    callLog (outs ++ [out]) = callLog outs ++ out.toList := by
  rw [callLog, List.reduceOption_append]
  cases out <;> rfl

/-- What holds after the event and is kept by every step of a reload holds after it, besides the
invariant. -/
theorem reload_invariant {modDir : CString} {detached : Bool} {s s' : Loader H}
    {evt : InotifyEvent} {names : List CString} {lib : Library H} {acts : List (LoaderAct H)}
    {outs : List (Option (LoggedCall H))} {P : List (LoggedCall H) → Loader H → Prop}
    (hold : s.cleanupOf evt.name = some names)
    (hacts : ∀ act ∈ acts, ReloadAct s.jobs.length lib act)
    (hrun : runSteps (loaderStep modDir detached) s (.event true evt :: acts) = some (s', outs))
    (hstart : P [] (watchdirEvent true s evt))
    (hstep : ∀ log u act u' out, ReloadInv s.jobs.length names lib log u → P log u →
      ReloadAct s.jobs.length lib act → loaderStep modDir detached u act = some (u', out) →
      P (log ++ out.toList) u') :
    ReloadInv s.jobs.length names lib (callLog outs) s' ∧ P (callLog outs) s' := by
  obtain ⟨s₁, out, outs', hevent, hrest, rfl⟩ := runSteps_cons_inv hrun
  simp only [loaderStep] at hevent
  split at hevent
  · cases hevent
    have hkeep : ∀ os u act u' out,
        ReloadInv s.jobs.length names lib (callLog os) u ∧ P (callLog os) u →
        ReloadAct s.jobs.length lib act → loaderStep modDir detached u act = some (u', out) →
        ReloadInv s.jobs.length names lib (callLog (os ++ [out])) u' ∧
          P (callLog (os ++ [out])) u' := by
      rintro os u act u' out ⟨hinv, hP⟩ hact hu
      rw [callLog_concat]
      exact ⟨hinv.step hact hu, hstep _ u act u' out hinv hP hact hu⟩
    have hbegin : ReloadInv s.jobs.length names lib (callLog [none]) (watchdirEvent true s evt) ∧
        P (callLog [none]) (watchdirEvent true s evt) := ⟨.event hold, hstart⟩
    exact runSteps_invariant hkeep hbegin hacts hrest
  · cases hevent

/-- A reload whose two threads end without an error has made the removals of the old library and the
registrations of the new one. In the end every name that the new library registers is bound to the
handler it registered if and only if each removal of such a name came before a registration of it.
-/
theorem reload_keeps_commands_iff {modDir : CString} {s s' : Loader H} {evt : InotifyEvent}
    {names : List CString} {lib : Library H} {acts : List (LoaderAct H)}
    {outs : List (Option (LoggedCall H))} (hold : s.cleanupOf evt.name = some names)
    (hacts : ∀ act ∈ acts, ReloadAct s.jobs.length lib act)
    (hrun : runSteps (loaderStep modDir poolDetached) s (.event true evt :: acts) = some (s', outs))
    (hdeinit : s'.jobs[s.jobs.length]? = some (.finished false))
    (hinit : s'.jobs[s.jobs.length + 1]? = some (.finished false)) :
    removals (callLog outs) = names ∧ registrations (callLog outs) = lib.moduleInit ∧
      (lib.Bound s'.cmds ↔ lib.RemovedFirst (callLog outs)) := by
  obtain ⟨hinv, -⟩ := reload_invariant hold hacts hrun (P := fun _ _ => True) trivial
    fun _ _ _ _ _ _ _ _ _ => trivial
  obtain ⟨hregs, hdone⟩ := hinv.finished hinit
  rcases hinv.job_cases (Nat.le_refl _) hdeinit with ⟨-, hremovals⟩ | ⟨hne, -⟩
  · exact ⟨hremovals rfl, hregs, Library.bound_iff (loaderRun_cmds hrun) hdone hregs⟩
  · omega

/-- A module with one command, which its `module_cleanup` removes. -/
def kickModule : Library Nat where
  moduleInit := [(CString.lit "kick", 7)]
  moduleCleanup := some [CString.lit "kick"]

/-- A load of the module in which nothing fails. -/
def kickSys : LoadSys Nat where
  dlopen := some kickModule
  realloc := none
  calloc := true
  queued := true

/-- The module is loaded at the start and its thread runs to the end. -/
def kickLoad : List (LoaderAct Nat) :=
  [.loadmod kickSys (CString.lit "bot_kick.so"), .call 0 fun _ => true, .finish 0]

/-- With the old library's thread first, the command is kept. -/
theorem reload_keeps_commands_iff_kick :
    ∃ s s' outs outs',
      runSteps (loaderStep (CString.lit "modules/") poolDetached) loaderInit kickLoad =
        some (s, outs) ∧
      runSteps (loaderStep (CString.lit "modules/") poolDetached) s
        [.event true ⟨false, CString.lit "bot_kick.so"⟩, .join, .load kickSys,
          .call 1 fun _ => true, .finish 1, .call 2 fun _ => true, .finish 2] =
        some (s', outs') ∧
      kickModule.RemovedFirst (callLog outs') := by
  have hval : ((runSteps (loaderStep (CString.lit "modules/") poolDetached) loaderInit
      kickLoad).bind fun r =>
        (runSteps (loaderStep (CString.lit "modules/") poolDetached) r.1
          [.event true ⟨false, CString.lit "bot_kick.so"⟩, .join, .load kickSys,
            .call 1 fun _ => true, .finish 1, .call 2 fun _ => true, .finish 2]).map fun r' =>
          (r.1.cleanupOf (CString.lit "bot_kick.so"), r.1.jobs.length, r'.1.jobs,
            r'.1.cmds.find [10, 8, 2, 10])) =
      some (some [CString.lit "kick"], 1, [.finished false, .finished false, .finished false],
        some 7) := by
    decide +kernel
  obtain ⟨⟨s, outs⟩, hload, hval⟩ := Option.bind_eq_some_iff.1 hval
  obtain ⟨⟨s', outs'⟩, hrun, hval⟩ := Option.map_eq_some_iff.1 hval
  simp only [Prod.mk.injEq] at hval
  obtain ⟨hold, hlen, hjobs, hfind⟩ := hval
  refine ⟨s, s', outs, outs', hload, hrun, ?_⟩
  have hacts : ∀ act ∈ [.join, .load kickSys, .call 1 fun _ => true, .finish 1,
      .call 2 fun _ => true, .finish 2], ReloadAct s.jobs.length kickModule act := by
    rw [hlen]
    simp only [List.forall_mem_cons]
    exact ⟨.join, .load rfl, .call (by decide), .finish (by decide), .call (by decide),
      .finish (by decide), nofun⟩
  have hkept := reload_keeps_commands_iff hold hacts hrun (by rw [hjobs, hlen]; rfl)
    (by rw [hjobs, hlen]; rfl)
  refine hkept.2.2.1 fun p hp => ?_
  rw [List.mem_singleton.1 hp]
  exact ⟨[10, 8, 2, 10], 7, by decide, by decide, hfind⟩

/-- With the new library's thread first, the command is lost: both threads end without an error, and
`kick` is not bound. -/
theorem reload_loses_commands :
    kickModule.moduleCleanup = some (kickModule.moduleInit.map (·.1)) ∧
    ∃ s s' outs outs',
      runSteps (loaderStep (CString.lit "modules/") poolDetached) loaderInit kickLoad =
        some (s, outs) ∧
      runSteps (loaderStep (CString.lit "modules/") poolDetached) s
        [.event true ⟨false, CString.lit "bot_kick.so"⟩, .join, .load kickSys,
          .call 2 fun _ => true, .finish 2, .call 1 fun _ => true, .finish 1] =
        some (s', outs') ∧
      s'.jobs = [.finished false, .finished false, .finished false] ∧
      ¬ kickModule.Bound s'.cmds := by
  have hval : ((runSteps (loaderStep (CString.lit "modules/") poolDetached) loaderInit
      kickLoad).bind fun r =>
        (runSteps (loaderStep (CString.lit "modules/") poolDetached) r.1
          [.event true ⟨false, CString.lit "bot_kick.so"⟩, .join, .load kickSys,
            .call 2 fun _ => true, .finish 2, .call 1 fun _ => true, .finish 1]).map fun r' =>
          (r'.1.jobs, r'.1.cmds.find [10, 8, 2, 10])) =
      some ([.finished false, .finished false, .finished false], none) := by
    decide +kernel
  obtain ⟨⟨s, outs⟩, hload, hval⟩ := Option.bind_eq_some_iff.1 hval
  obtain ⟨⟨s', outs'⟩, hrun, hval⟩ := Option.map_eq_some_iff.1 hval
  simp only [Prod.mk.injEq] at hval
  obtain ⟨hjobs, hfind⟩ := hval
  refine ⟨rfl, s, s', outs, outs', hload, hrun, hjobs, fun hbound => ?_⟩
  obtain ⟨w, handler, hw, -, hbind⟩ := hbound (CString.lit "kick", 7) (.head _)
  have hkick : lowercase (CString.lit "kick").bytes = some [10, 8, 2, 10] := by decide
  obtain rfl : w = [10, 8, 2, 10] := Option.some.inj (hw.symm.trans hkick)
  rw [hfind] at hbind
  cases hbind

/-! ## Threads that can be joined -/

/-- A reload with threads that can be joined. In the join only removals were made; after it the
thread of the old library has ended, and no removal has followed a registration. -/
inductive JoinedAt (n : Nat) (log : List (LoggedCall H)) (s : Loader H) : Prop
  | joining : s.watchdog = .join n evt → s.jobs.length = n + 1 → registrations log = [] →
      JoinedAt n log s
  | joined : s.jobs[n]? = some (.finished error) → (∀ job evt, s.watchdog ≠ .join job evt) →
      log = pre ++ post → registrations pre = [] → removals post = [] → JoinedAt n log s

/-- Once no removal follows a registration, the removals came first. -/
theorem JoinedAt.removedFirst {n : Nat} {lib : Library H} {log : List (LoggedCall H)}
    {s : Loader H} (h : JoinedAt n log s) (hregs : registrations log = lib.moduleInit) :
    lib.RemovedFirst log := by
  rintro pre' cmdname r post' w hlog - ⟨p, hp, hpw⟩
  rw [← hregs] at hp
  refine ⟨p, ?_, hpw⟩
  cases h with
  | joining _ _ hnil =>
    rw [hnil] at hp
    cases hp
  | @joined error pre post _ _ hsplit hpre hpost =>
    rw [hsplit, registrations_append, hpre, List.nil_append] at hp
    rcases List.append_eq_append_iff.1 (hsplit.symm.trans hlog) with
      ⟨as, -, has⟩ | ⟨bs, -, hbs⟩
    · -- the removal would be among the last calls
      rw [has, removals_append] at hpost
      simp [removals, CommandOp.removal?] at hpost
    · cases bs with
      | nil =>
        rw [List.nil_append] at hbs
        rw [← hbs] at hpost
        simp [removals, CommandOp.removal?] at hpost
      | cons b bs =>
        rw [List.cons_append] at hbs
        obtain ⟨-, hpost'⟩ := List.cons.inj hbs
        rw [hpost', registrations_append]
        exact List.mem_append_right _ hp

section
variable {n : Nat} {names : List CString} {lib : Library H} {log : List (LoggedCall H)}
  {s s' : Loader H} {modDir : CString}

/-- The end of one of the two threads. -/
theorem JoinedAt.finish {j : Nat} {error : Bool} (h : JoinedAt n log s)
    (hwatchdog : s'.watchdog = s.watchdog) (hjobs : s'.jobs = s.jobs.set j (.finished error)) :
    JoinedAt n log s' := by
  cases h with
  | joining hjoin hlen hregs =>
    exact .joining (hwatchdog.trans hjoin) (by rw [hjobs, List.length_set, hlen]) hregs
  | @joined error' pre post hjob hread hsplit hpre hpost =>
    rw [← hwatchdog] at hread
    by_cases hj : j = n
    · subst hj
      have hlt : j < s.jobs.length := (List.getElem?_eq_some_iff.1 hjob).1
      exact .joined (by rw [hjobs, List.getElem?_set_self hlt]) hread hsplit hpre hpost
    · exact .joined (by rw [hjobs, List.getElem?_set_ne hj, hjob]) hread hsplit hpre hpost

/-- A call of one of the two threads. -/
theorem JoinedAt.call {j : Nat} {job : Job H} {op : CommandOp H} {r : Int} {calloc : Nat → Bool}
    (h : JoinedAt n log s) (hinv : ReloadInv n names lib log s) (hj : n ≤ j)
    (hjob : s.jobs[j]? = some job) (hop : job.nextCall calloc = some op)
    (hwatchdog : s'.watchdog = s.watchdog) (hjobs : s'.jobs = s.jobs.set j (job.afterCall r)) :
    JoinedAt n (log ++ [(op, r)]) s' := by
  rcases hinv.job_cases hj hjob with ⟨rfl, hat⟩ | ⟨rfl, hlen, hread, hat⟩
  · obtain ⟨cmdname, rfl, -⟩ := hat.nextCall hop
    cases h with
    | joining hjoin hlen hregs =>
      refine .joining (hwatchdog.trans hjoin) (by rw [hjobs, List.length_set, hlen]) ?_
      simpa [registrations, CommandOp.registration?] using hregs
    | joined hfinished =>
      cases hfinished.symm.trans hjob
      cases hop
  · obtain ⟨cmdname, handler, rfl, -⟩ := hat.nextCall hop
    cases h with
    | joining _ hlen' => omega
    | @joined error pre post hfinished hnojoin hsplit hpre hpost =>
      have hfinished' : s'.jobs[n]? = some (.finished error) := by
        rw [hjobs, List.getElem?_set_ne (Nat.succ_ne_self n), hfinished]
      refine .joined hfinished' (hwatchdog ▸ hnojoin) (by rw [hsplit, List.append_assoc]) hpre ?_
      simpa [removals, CommandOp.removal?] using hpost

/-- Every step of a reload with threads that can be joined, one case for each step. -/
theorem JoinedAt.step {act : LoaderAct H} {out : Option (LoggedCall H)} (h : JoinedAt n log s)
    (hinv : ReloadInv n names lib log s) (hact : ReloadAct n lib act)
    (hstep : loaderStep modDir false s act = some (s', out)) :
    JoinedAt n (log ++ out.toList) s' := by
  cases hact with
  | join =>
    obtain ⟨job, evt, hjoin, hjoined, rfl, -, hnext, hjobs⟩ := loaderStep_join hstep
    rw [Option.toList_none, List.append_nil]
    cases h with
    | joining hwatchdog hlen hregs =>
      obtain ⟨rfl, rfl⟩ := Watchdog.join.inj (hwatchdog.symm.trans hjoin)
      obtain ⟨job, hjob, hfinished⟩ := (Option.any_eq_true _ _).1 hjoined
      cases job with
      | finished error =>
        refine .joined (hjobs ▸ hjob) (fun job' evt' h => ?_) (List.append_nil log).symm hregs rfl
        rw [hnext, InotifyEvent.next] at h
        split at h <;> cases h
      | init => cases hfinished
      | deinit => cases hfinished
    | joined _ hwatchdog => exact absurd hjoin (hwatchdog job evt)
  | load hlib =>
    obtain ⟨name, hload, rfl, -, hread, hjobs⟩ := loaderStep_load hstep
    rw [Option.toList_none, List.append_nil]
    cases h with
    | joining hwatchdog => cases hwatchdog.symm.trans hload
    | @joined error pre post hjob hnojoin hsplit hpre hpost =>
      have hlt : n < s.jobs.length := (List.getElem?_eq_some_iff.1 hjob).1
      have hjob' : s'.jobs[n]? = some (.finished error) := by
        rcases hjobs with hjobs | ⟨lib', ctx, ctxPos, -, hjobs⟩
        · rw [hjobs, hjob]
        · rw [hjobs, List.getElem?_append_left hlt, hjob]
      exact .joined hjob' (fun job evt h => by cases hread.symm.trans h) hsplit hpre hpost
  | call hj =>
    obtain ⟨job, op, r, hjob, hop, rfl, -, hwatchdog, hjobs⟩ := loaderStep_call hstep
    exact h.call hinv hj hjob hop hwatchdog hjobs
  | finish hj =>
    obtain ⟨job, error, -, rfl, -, hwatchdog, hjobs, -⟩ := loaderStep_finish hstep
    rw [Option.toList_none, List.append_nil]
    exact h.finish hwatchdog hjobs
  | fail hj =>
    obtain ⟨job, -, rfl, -, hwatchdog, hjobs⟩ := loaderStep_fail hstep
    rw [Option.toList_none, List.append_nil]
    exact h.finish hwatchdog hjobs

end

/-- With threads that are not created detached, a reload whose two threads end without an error
keeps the commands. -/
theorem reload_keeps_commands_of_joinable {modDir : CString} {s s' : Loader H} {evt : InotifyEvent}
    {names : List CString} {lib : Library H} {acts : List (LoaderAct H)}
    {outs : List (Option (LoggedCall H))} (hold : s.cleanupOf evt.name = some names)
    (hacts : ∀ act ∈ acts, ReloadAct s.jobs.length lib act)
    (hrun : runSteps (loaderStep modDir false) s (.event true evt :: acts) = some (s', outs))
    (hinit : s'.jobs[s.jobs.length + 1]? = some (.finished false)) : lib.Bound s'.cmds := by
  obtain ⟨ctx, ctxPos, hevent⟩ := watchdirEvent_of_cleanupOf hold
  have hstart : JoinedAt s.jobs.length [] (watchdirEvent true s evt) := by
    rw [hevent]
    exact .joining rfl List.length_append rfl
  obtain ⟨hinv, hjoined⟩ := reload_invariant hold hacts hrun hstart
    fun _ _ _ _ _ hinv h hact hstep => h.step hinv hact hstep
  obtain ⟨hregs, hdone⟩ := hinv.finished hinit
  exact (Library.bound_iff (loaderRun_cmds hrun) hdone hregs).2 (hjoined.removedFirst hregs)

end MinervaBot
