import MinervaBot.LoaderContexts
import MinervaBot.Reload

/-!
# Handlers of closed modules

`modules_check_cmd` queues a job with a handler from the command tree, and the job calls it later.
The handler is code of a library, and the library is closed with its context: when its cleanup has
run, when its `module_init` fails, or at once when it has no `module_cleanup`. None of these looks
at the tree or at the queued commands.

Here a handler carries the number of the context whose library it is in. `handlersOpen_iff` tells
for every run when no step can call a handler of a closed library, and no word is bound to one.
-/

namespace MinervaBot

open Lib

variable {H : Type}

/-! ## Handlers of libraries -/

/-- A handler with the number of the context whose library it is in. -/
abbrev OwnedHandler (H : Type) := Nat × H

/-- A library that is opened for a context. -/
def Library.owned (ctx : Nat) (lib : Library H) : Library (OwnedHandler H) where
  moduleInit := lib.moduleInit.map fun p => (p.1, (ctx, p.2))
  moduleCleanup := lib.moduleCleanup

/-- The answers of the system when the next context is `ctx`. -/
def LoadSys.owned (ctx : Nat) (sys : LoadSys H) : LoadSys (OwnedHandler H) where
  dlopen := sys.dlopen.map (Library.owned ctx)
  realloc := sys.realloc
  calloc := sys.calloc
  queued := sys.queued

/-- A step of the loader when the next context is `ctx`. -/
def LoaderAct.owned (ctx : Nat) : LoaderAct H → LoaderAct (OwnedHandler H)
  | .loadmod sys modFile => .loadmod (sys.owned ctx) modFile
  | .event queued evt => .event queued evt
  | .join => .join
  | .load sys => .load (sys.owned ctx)
  | .call j calloc => .call j calloc
  | .finish j => .finish j
  | .fail j => .fail j

/-! ## Commands and modules -/

/-- The loader with the commands that were queued, `none` for one that has run. -/
structure Dispatcher (H : Type) where
  loader : Loader (OwnedHandler H)
  jobs : List (Option (QueueCmd (OwnedHandler H)))

/-- The state after `modules_init`. -/
def dispatcherInit : Dispatcher H where
  loader := loaderInit
  jobs := []

/-- A step: `modules_check_cmd` gets a message, a command runs, or a step of the loader. -/
inductive DispatcherAct (H : Type) where
  | checkCmd (queued : Bool) (sender target message : CString)
  | run (job : Nat)
  | loader (act : LoaderAct H)

/-- One step, and the handler that it calls. A command is lost when its thread is not created. -/
def dispatcherStep (modDir cmdPrefix : CString) (s : Dispatcher H) :
    DispatcherAct H → Option (Dispatcher H × Option (OwnedHandler H))
  | .checkCmd queued sender target message =>
    match modulesCheckCmd cmdPrefix s.loader.cmds sender target message with
    | none => some (s, none)
    | some cmd => some (if queued then { s with jobs := s.jobs ++ [some cmd] } else s, none)
  | .run j =>
    s.jobs[j]?.join.map fun cmd => ({ s with jobs := s.jobs.set j none }, some cmd.handler)
  | .loader act =>
    (loaderStep modDir poolDetached s.loader (act.owned s.loader.ctxs.length)).map fun r =>
      ({ s with loader := r.1 }, none)

/-- No step that can be taken calls a handler of a closed library, and no word is bound to one. -/
structure Dispatcher.HandlersOpen (modDir cmdPrefix : CString) (s : Dispatcher H) : Prop where
  calls : ∀ act s' handler, dispatcherStep modDir cmdPrefix s act = some (s', some handler) →
    handler.1 ∉ s.loader.freed
  bound : ∀ w handler, s.loader.cmds.find w = some handler → handler.1 ∉ s.loader.freed

/-- The context that a step closes. -/
def LoaderAct.closing (s : Loader H) : LoaderAct H → Option Nat
  | .event _ evt =>
    if (s.cleanupOf evt.name).isSome then none
    else (s.findModule evt.name).bind fun i => s.loaded[i]?.join
  | act => (act.closes s).map (·.1)

/-- A step that closes a library finds no word bound to one of its handlers and no command queued
with one, and a `module_init` whose library is closed registers nothing. -/
structure DispatcherAct.Released (s : Dispatcher H) (act : DispatcherAct H) : Prop where
  closes : ∀ (act' : LoaderAct H) ctx, act = .loader act' →
    (act'.owned s.loader.ctxs.length).closing s.loader = some ctx →
    (∀ w handler, s.loader.cmds.find w = some handler → handler.1 ≠ ctx) ∧
      ∀ cmd, some cmd ∈ s.jobs → cmd.handler.1 ≠ ctx
  registers : ∀ j calloc ctx ctxPos cmdname handler todo ret, act = .loader (.call j calloc) →
    s.loader.jobs[j]? = some (.init ctx ctxPos ((cmdname, handler) :: todo) ret) →
    (modulesRegisterCmd calloc s.loader.cmds cmdname (some handler)).1 = 0 → ctx ∉ s.loader.freed

/-! ## What a step of the loader changes -/

section
variable {modDir : CString} {s s' : Loader H} {act : LoaderAct H} {out : Option (LoggedCall H)}

/-- A load closes nothing. -/
theorem freed_modulesLoadmod {modFile : CString} {sys : LoadSys H}
    (h : modulesLoadmod modDir sys s modFile = some s') : s'.freed = s.freed := by
  obtain ⟨t, ht, htable⟩ := modulesLoadmod_table h
  have hreleased : t.released = s.freed := by
    rcases ht with rfl | ⟨moved, n, rfl⟩
    · rfl
    · rfl
  rw [← hreleased]
  rcases htable with ⟨hsame, -⟩ | ⟨i, -, -, hacquire | hrequest⟩
  · rw [← hsame]
    rfl
  · show s'.table.released = _
    rw [hacquire]
    rfl
  · show s'.table.released = _
    rw [hrequest]
    rfl

/-- An event closes the module it finds if this has no `module_cleanup`. -/
theorem freed_watchdirEvent (queued : Bool) (s : Loader H) (evt : InotifyEvent) :
    (watchdirEvent queued s evt).freed =
      s.freed ++ (LoaderAct.closing s (.event queued evt)).toList := by
  show (watchdirEvent queued s evt).table.released = _
  rcases watchdirEvent_table queued s evt with ⟨hnot, htable⟩ | ⟨i, ctx, hfind, hctx, hcases⟩
  · have hnone : LoaderAct.closing s (.event queued evt) = none := by
      rw [LoaderAct.closing, hnot, Option.bind_none, ite_self]
    rw [htable, hnone]
    exact (List.append_nil _).symm
  · rcases hcases with ⟨hnone, htable⟩ | ⟨hsome, htable⟩
    · have hclosing : LoaderAct.closing s (.event queued evt) = some ctx := by
        rw [LoaderAct.closing, hnone, hfind]
        simp [hctx]
      rw [htable, hclosing]
      rfl
    · have hnone : LoaderAct.closing s (.event queued evt) = none := by
        rw [LoaderAct.closing, if_pos hsome]
      rw [htable, hnone]
      cases queued <;> exact (List.append_nil _).symm

/-- The end of a job closes the context it clears the entry of. -/
theorem freed_ends {j : Nat} (hact : act = .finish j ∨ act = .fail j)
    (h : loaderStep modDir poolDetached s act = some (s', out)) :
    s'.freed = s.freed ++ (act.closing s).toList := by
  obtain ⟨job, error, -, -, rfl⟩ := loaderStep_ends hact h
  have hclosing : act.closing s = (act.closes s).map (·.1) := by
    rcases hact with rfl | rfl <;> rfl
  rw [hclosing]
  cases act.closes s with
  | none => exact (List.append_nil _).symm
  | some t => rfl

/-- A step adds the context that it closes to those that are closed. -/
theorem freed_loaderStep (h : loaderStep modDir poolDetached s act = some (s', out)) :
    s'.freed = s.freed ++ (act.closing s).toList := by
  have hsame : s'.freed = s.freed → act.closing s = none →
      s'.freed = s.freed ++ (act.closing s).toList := by
    intro hfreed hnone
    rw [hfreed, hnone]
    exact (List.append_nil _).symm
  cases loaderStep_inv h with
  | loadmod hload => exact hsame (freed_modulesLoadmod hload) rfl
  | event hread => exact freed_watchdirEvent _ s _
  | join hwatchdog hjoined => exact hsame rfl rfl
  | @load _ sys s₁ hwatchdog hload =>
    have hfreed : s₁.freed = s.freed := freed_modulesLoadmod hload
    exact hsame hfreed rfl
  | call hjob hop hcmds => exact hsame rfl rfl
  | finish hjob hfinish => exact freed_ends (.inl rfl) h
  | fail hjob hfail => exact freed_ends (.inr rfl) h

/-- An event starts at most a cleanup. -/
theorem jobs_watchdirEvent (queued : Bool) (s : Loader H) (evt : InotifyEvent) :
    (watchdirEvent queued s evt).jobs = s.jobs ∨
      ∃ ctx ctxPos names,
        (watchdirEvent queued s evt).jobs = s.jobs ++ [.deinit ctx ctxPos names] := by
  unfold watchdirEvent modulesUnloadmod
  grind

end

/-! ## Handlers keep their contexts -/

/-- A `module_init` registers handlers of its own library. -/
def Loader.Owned (s : Loader (OwnedHandler H)) : Prop :=
  ∀ ctx ctxPos todo ret, .init ctx ctxPos todo ret ∈ s.jobs → ∀ p ∈ todo, p.2.1 = ctx

section
variable {modDir : CString} {s s' : Loader (OwnedHandler H)}
variable {out : Option (LoggedCall (OwnedHandler H))}

/-- Jobs that register nothing may be added. -/
theorem Loader.Owned.of_jobs {job : Job (OwnedHandler H)} (hs : s.Owned)
    (hjobs : s'.jobs = s.jobs ++ [job])
    (hjob : ∀ ctx ctxPos todo ret, job = .init ctx ctxPos todo ret → ∀ p ∈ todo, p.2.1 = ctx) :
    s'.Owned := by
  intro ctx ctxPos todo ret hmem
  rw [hjobs] at hmem
  rcases List.mem_append.1 hmem with hmem | hmem
  · exact hs ctx ctxPos todo ret hmem
  · exact hjob ctx ctxPos todo ret (List.mem_singleton.1 hmem).symm

/-- A job may be replaced by one with fewer registrations to make. -/
theorem Loader.Owned.of_set {job : Job (OwnedHandler H)} {j : Nat} (hs : s.Owned)
    (hjobs : s'.jobs = s.jobs.set j job)
    (hjob : ∀ ctx ctxPos todo ret, job = .init ctx ctxPos todo ret → ∀ p ∈ todo, p.2.1 = ctx) :
    s'.Owned := by
  intro ctx ctxPos todo ret hmem
  rw [hjobs] at hmem
  rcases List.mem_or_eq_of_mem_set hmem with hmem | hmem
  · exact hs ctx ctxPos todo ret hmem
  · exact hjob ctx ctxPos todo ret hmem.symm

/-- The job of a new module registers handlers of its own library. -/
theorem Loader.Owned.modulesLoadmod {modFile : CString} {sys : LoadSys H} (hs : s.Owned)
    (h : modulesLoadmod modDir (sys.owned s.ctxs.length) s modFile = some s') : s'.Owned := by
  obtain ⟨-, -, hjobs | ⟨lib, ctxPos, hlib, hjobs⟩⟩ := modulesLoadmod_cases h
  · intro ctx ctxPos todo ret hmem
    exact hs ctx ctxPos todo ret (hjobs ▸ hmem)
  · refine hs.of_jobs hjobs ?_
    rintro ctx ctxPos' todo ret ⟨⟩ p hp
    obtain ⟨lib₀, -, rfl⟩ := Option.map_eq_some_iff.1 hlib
    obtain ⟨q, -, rfl⟩ := List.mem_map.1 hp
    rfl

/-- Every step keeps this. -/
theorem Loader.Owned.step {act : LoaderAct H} (hs : s.Owned)
    (h : loaderStep modDir poolDetached s (act.owned s.ctxs.length) = some (s', out)) :
    s'.Owned := by
  cases act with
  | loadmod sys modFile =>
    cases loaderStep_inv h with
    | loadmod hload => exact hs.modulesLoadmod hload
  | event queued evt =>
    cases loaderStep_inv h with
    | event hread =>
      rcases jobs_watchdirEvent queued s evt with hjobs | ⟨ctx, ctxPos, names, hjobs⟩
      · intro ctx ctxPos todo ret hmem
        exact hs ctx ctxPos todo ret (hjobs ▸ hmem)
      · exact hs.of_jobs hjobs (by rintro ctx ctxPos todo ret ⟨⟩)
  | join =>
    cases loaderStep_inv h with
    | join hwatchdog hjoined => exact hs
  | load sys =>
    cases loaderStep_inv h with
    | @load _ _ s₁ hwatchdog hload =>
      have hs₁ : s₁.Owned := hs.modulesLoadmod hload
      exact hs₁
  | call j calloc =>
    obtain ⟨job, op, r, hjob, -, -, -, -, hjobs⟩ := loaderStep_call h
    refine hs.of_set hjobs fun ctx ctxPos todo ret hafter p hp => ?_
    cases job with
    | init ctx' ctxPos' todo' ret' =>
      cases hafter
      exact hs _ _ _ _ (List.mem_of_getElem? hjob) p (List.mem_of_mem_tail hp)
    | deinit ctx' ctxPos' todo' => cases hafter
    | finished error => cases hafter
  | finish j =>
    obtain ⟨job, error, -, -, -, -, hjobs, -⟩ := loaderStep_finish h
    exact hs.of_set hjobs (by rintro ctx ctxPos todo ret ⟨⟩)
  | fail j =>
    obtain ⟨job, -, -, -, -, hjobs⟩ := loaderStep_fail h
    exact hs.of_set hjobs (by rintro ctx ctxPos todo ret ⟨⟩)

end

/-! ## The words that are bound -/

/-- `modules_check_cmd` queues a handler that a word is bound to. -/
theorem modulesCheckCmd_bound {cmdPrefix sender target message : CString} {cmds : CommandTree H}
    {cmd : QueueCmd H} (h : modulesCheckCmd cmdPrefix cmds sender target message = some cmd) :
    ∃ w, cmds.find w = some cmd.handler := by
  rw [modulesCheckCmd] at h
  split at h
  · cases h
  · split at h
    · cases h
    · rw [modulesCheckCmdWalk_eq] at h
      obtain ⟨r, hr, rfl⟩ := Option.map_eq_some_iff.1 h
      obtain ⟨handler, hbound, rfl⟩ := Option.map_eq_some_iff.1 hr
      obtain ⟨w, -, hw⟩ := Option.bind_eq_some_iff.1 hbound
      exact ⟨w, hw⟩

/-- A call binds words to the handler it registers only. -/
theorem CallStep.bound {cmds cmds' : CommandTree H} {call : LoggedCall H} {w : Word} {handler : H}
    (h : CallStep cmds call cmds') (hw : cmds'.find w = some handler) :
    cmds.find w = some handler ∨
      ∃ calloc cmdname, call = (.register calloc cmdname (some handler), 0) := by
  obtain ⟨op, r⟩ := call
  have hmap := h.mapStep
  generalize cmds'.find = m at hmap hw
  cases hmap with
  | register hlower =>
    rw [Function.update_apply] at hw
    split at hw
    · subst hw
      exact .inr ⟨_, _, rfl⟩
    · exact .inl hw
  | unregister hlower =>
    rw [Function.update_apply] at hw
    split at hw
    · cases hw
    · exact .inl hw
  | failed => exact .inl hw

section
variable {modDir : CString} {s s' : Loader H} {act : LoaderAct H} {out : Option (LoggedCall H)}

/-- Only jobs call into the tree. -/
theorem loaderStep_out {call : LoggedCall H}
    (h : loaderStep modDir poolDetached s act = some (s', some call)) :
    ∃ j calloc, act = .call j calloc := by
  cases loaderStep_inv h with
  | call hjob hop hcmds => exact ⟨_, _, rfl⟩

/-- A step binds a word to the handler that a `module_init` registers, if at all. -/
theorem loaderStep_bound {w : Word} {handler : H}
    (h : loaderStep modDir poolDetached s act = some (s', out))
    (hw : s'.cmds.find w = some handler) :
    s.cmds.find w = some handler ∨
      ∃ j calloc ctx ctxPos cmdname todo ret, act = .call j calloc ∧
        s.jobs[j]? = some (.init ctx ctxPos ((cmdname, handler) :: todo) ret) ∧
        (modulesRegisterCmd calloc s.cmds cmdname (some handler)).1 = 0 := by
  rcases loaderStep_cmds h with ⟨-, hcmds⟩ | ⟨call, rfl, hcall⟩
  · rw [hcmds] at hw
    exact .inl hw
  · refine (hcall.bound hw).imp_right ?_
    rintro ⟨calloc, cmdname, rfl⟩
    obtain ⟨j, calloc', rfl⟩ := loaderStep_out h
    obtain ⟨job, op, r, hjob, hop, hout, -⟩ := loaderStep_call h
    cases hout
    cases job with
    | init ctx ctxPos todo ret =>
      cases todo with
      | nil => cases hop
      | cons p todo =>
        cases hop
        exact ⟨j, _, ctx, ctxPos, _, todo, ret, rfl, hjob, (Prod.mk.inj (Option.some.inj hcall)).2⟩
    | deinit ctx ctxPos todo =>
      cases todo with
      | nil => cases hop
      | cons name todo => cases hop
    | finished error => cases hop

/-- A registration that returns `0` binds a word to its handler. -/
theorem loaderStep_registers {j ctx : Nat} {calloc : Nat → Bool} {ctxPos : CtxPos} {ret : Int}
    {cmdname : CString} {handler : H} {todo : List (CString × H)}
    (h : loaderStep modDir poolDetached s (.call j calloc) = some (s', out))
    (hjob : s.jobs[j]? = some (.init ctx ctxPos ((cmdname, handler) :: todo) ret))
    (hr : (modulesRegisterCmd calloc s.cmds cmdname (some handler)).1 = 0) :
    ∃ w, s'.cmds.find w = some handler := by
  obtain ⟨job, op, r, hjob', hop, -, hcall, -⟩ := loaderStep_call h
  obtain rfl := Option.some.inj (hjob.symm.trans hjob')
  cases hop
  have hzero : r = 0 := (Prod.mk.inj (Option.some.inj hcall)).2.symm.trans hr
  rcases hcall.register_cases with ⟨-, w, -, hw⟩ | hneg
  · exact ⟨w, hw⟩
  · rw [hzero] at hneg
    cases hneg

end

/-! ## Runs -/

/-- The invariant: no queued command and no word has a handler of a closed library, and the handlers
that are still to be registered carry their contexts. -/
structure Dispatcher.Tracked (s : Dispatcher H) : Prop where
  queued : ∀ cmd, some cmd ∈ s.jobs → cmd.handler.1 ∉ s.loader.freed
  bound : ∀ w handler, s.loader.cmds.find w = some handler → handler.1 ∉ s.loader.freed
  owned : s.loader.Owned

section
variable {modDir cmdPrefix : CString} {s s' : Dispatcher H} {out : Option (OwnedHandler H)}

/-- Only commands that run call handlers. -/
theorem dispatcherStep_calls {act : DispatcherAct H} {handler : OwnedHandler H}
    (h : dispatcherStep modDir cmdPrefix s act = some (s', some handler)) :
    ∃ cmd, some cmd ∈ s.jobs ∧ cmd.handler = handler := by
  cases act with
  | checkCmd queued sender target message =>
    simp only [dispatcherStep] at h
    split at h <;> cases h
  | run j =>
    obtain ⟨cmd, hcmd, h⟩ := Option.map_eq_some_iff.1 h
    obtain ⟨-, hhandler⟩ := Prod.mk.inj h
    exact ⟨cmd, List.mem_of_getElem? (Option.join_eq_some_iff.1 hcmd), Option.some.inj hhandler⟩
  | loader act =>
    obtain ⟨r, -, h⟩ := Option.map_eq_some_iff.1 h
    cases h

/-- A queued command may run. -/
theorem Dispatcher.HandlersOpen.queued (h : s.HandlersOpen modDir cmdPrefix)
    {cmd : QueueCmd (OwnedHandler H)} (hcmd : some cmd ∈ s.jobs) :
    cmd.handler.1 ∉ s.loader.freed := by
  obtain ⟨j, hj⟩ := List.mem_iff_getElem?.1 hcmd
  refine h.calls (.run j) { s with jobs := s.jobs.set j none } cmd.handler ?_
  simp [dispatcherStep, hj]

theorem Dispatcher.Tracked.handlersOpen (h : s.Tracked) : s.HandlersOpen modDir cmdPrefix where
  calls act s' handler hstep := by
    obtain ⟨cmd, hcmd, rfl⟩ := dispatcherStep_calls hstep
    exact h.queued cmd hcmd
  bound := h.bound

/-- A step that releases what it closes keeps the invariant. -/
theorem Dispatcher.Tracked.step {act : DispatcherAct H} (hs : s.Tracked) (hact : act.Released s)
    (h : dispatcherStep modDir cmdPrefix s act = some (s', out)) : s'.Tracked := by
  cases act with
  | checkCmd queued sender target message =>
    simp only [dispatcherStep] at h
    split at h
    · cases h
      exact hs
    · next cmd hcheck =>
      cases h
      split
      · refine ⟨fun cmd' hcmd' => ?_, hs.bound, hs.owned⟩
        rcases List.mem_append.1 hcmd' with hcmd' | hcmd'
        · exact hs.queued cmd' hcmd'
        · cases List.mem_singleton.1 hcmd'
          obtain ⟨w, hw⟩ := modulesCheckCmd_bound hcheck
          exact hs.bound w _ hw
      · exact hs
  | run j =>
    obtain ⟨cmd, -, ⟨⟩⟩ := Option.map_eq_some_iff.1 h
    refine ⟨fun cmd' hcmd' => ?_, hs.bound, hs.owned⟩
    rcases List.mem_or_eq_of_mem_set hcmd' with hcmd' | hcmd'
    · exact hs.queued cmd' hcmd'
    · cases hcmd'
  | loader act =>
    obtain ⟨⟨loader, out'⟩, hstep, ⟨⟩⟩ := Option.map_eq_some_iff.1 h
    have hnot : ∀ n, n ∉ s.loader.freed →
        (∀ ctx, (act.owned s.loader.ctxs.length).closing s.loader = some ctx → n ≠ ctx) →
        n ∉ loader.freed := by
      intro n hn hne hmem
      rw [freed_loaderStep hstep] at hmem
      rcases List.mem_append.1 hmem with hmem | hmem
      · exact hn hmem
      · exact hne n (Option.mem_toList.1 hmem) rfl
    refine ⟨fun cmd hcmd => ?_, fun w handler hw => ?_, hs.owned.step hstep⟩
    · refine hnot _ (hs.queued cmd hcmd) fun ctx hclosing => ?_
      exact (hact.closes act ctx rfl hclosing).2 cmd hcmd
    · rcases loaderStep_bound hstep hw with hw | hregister
      · refine hnot _ (hs.bound w handler hw) fun ctx hclosing => ?_
        exact (hact.closes act ctx rfl hclosing).1 w handler hw
      · obtain ⟨j, calloc, ctx, ctxPos, cmdname, todo, ret, hcall, hjob, hr⟩ := hregister
        have hown : handler.1 = ctx :=
          hs.owned ctx ctxPos _ ret (List.mem_of_getElem? hjob) (cmdname, handler) (.head _)
        have hact' : act = .call j calloc := by
          cases act <;> cases hcall
          rfl
        subst hact'
        rw [hown]
        refine hnot ctx (hact.registers j calloc ctx ctxPos cmdname handler todo ret rfl hjob hr) ?_
        rintro ctx' ⟨⟩

/-- A step that does not release what it closes leaves a handler of a closed library. -/
theorem Dispatcher.Tracked.lose {act : DispatcherAct H} (hs : s.Tracked) (hact : ¬ act.Released s)
    (h : dispatcherStep modDir cmdPrefix s act = some (s', out)) :
    ¬ s'.HandlersOpen modDir cmdPrefix := by
  intro hopen
  cases act with
  | checkCmd queued sender target message =>
    exact hact ⟨by rintro act ctx ⟨⟩, by rintro j calloc ctx ctxPos cmdname handler todo ret ⟨⟩⟩
  | run j =>
    exact hact ⟨by rintro act ctx ⟨⟩, by rintro j calloc ctx ctxPos cmdname handler todo ret ⟨⟩⟩
  | loader act =>
    obtain ⟨⟨loader, out'⟩, hstep, ⟨⟩⟩ := Option.map_eq_some_iff.1 h
    have hfreed := freed_loaderStep hstep
    refine hact ⟨?_, ?_⟩
    · rintro act' ctx ⟨⟩ hclosing
      have hmem : ctx ∈ loader.freed := by
        rw [hfreed, hclosing]
        exact List.mem_append_right _ (.head _)
      constructor
      · rintro w handler hw rfl
        refine hopen.bound w handler ?_ hmem
        rcases loaderStep_cmds hstep with ⟨-, hcmds⟩ | ⟨call, rfl, -⟩
        · show loader.cmds.find w = _
          rw [hcmds]
          exact hw
        · obtain ⟨j, calloc, hcall⟩ := loaderStep_out hstep
          rw [hcall] at hclosing
          cases hclosing
      · rintro cmd hcmd rfl
        exact hopen.queued hcmd hmem
    · rintro j calloc ctx ctxPos cmdname handler todo ret ⟨⟩ hjob hr hclosed
      obtain ⟨w, hw⟩ := loaderStep_registers hstep hjob hr
      have hown : handler.1 = ctx :=
        hs.owned ctx ctxPos _ ret (List.mem_of_getElem? hjob) (cmdname, handler) (.head _)
      refine hopen.bound w handler hw ?_
      show handler.1 ∈ loader.freed
      rw [hfreed, hown]
      exact List.mem_append_left _ hclosed

/-- In every run, no step can call a handler of a closed library and no word is bound to one if and
only if every step releases what it closes: the words and the queued commands have no handler of the
library, and no `module_init` registers one later. -/
theorem handlersOpen_iff (modDir cmdPrefix : CString) (acts : List (DispatcherAct H)) :
    EveryState (dispatcherStep modDir cmdPrefix) dispatcherInit acts
        (Dispatcher.HandlersOpen modDir cmdPrefix) ↔
      EachStep (dispatcherStep modDir cmdPrefix) dispatcherInit acts DispatcherAct.Released := by
  refine everyState_iff_eachStep (I := Dispatcher.Tracked) (fun s hs => hs.handlersOpen)
    (fun s act s' out hs hact hstep => hs.step hact hstep)
    (fun s act s' out hs hact hstep => hs.lose hact hstep) acts ?_
  refine ⟨?_, fun w handler hw => ?_, ?_⟩
  · rintro cmd ⟨⟩
  · rw [show (dispatcherInit : Dispatcher H).loader.cmds = .empty from rfl, Trie.find_empty] at hw
    cases hw
  · rintro ctx ctxPos todo ret ⟨⟩

/-- A module without `module_cleanup` is deleted, and `,kick` still queues its handler. And a module
with `module_cleanup` is deleted while a command with its handler is queued. -/
theorem not_handlersOpen :
    ¬ EveryState (dispatcherStep (H := Nat) (CString.lit "./") (CString.lit ",")) dispatcherInit
        [.loader (.loadmod ⟨some ⟨[(CString.lit "kick", 7)], none⟩, some false, true, true⟩
            (CString.lit "a.so")),
          .loader (.call 0 fun _ => true), .loader (.finish 0),
          .loader (.event true ⟨true, CString.lit "a.so"⟩),
          .checkCmd true (CString.lit "a!b@c") (CString.lit "#chan") (CString.lit ",kick ann")]
        (Dispatcher.HandlersOpen (CString.lit "./") (CString.lit ",")) ∧
      ¬ EveryState (dispatcherStep (H := Nat) (CString.lit "./") (CString.lit ",")) dispatcherInit
        [.loader (.loadmod ⟨some ⟨[(CString.lit "kick", 7)], some [CString.lit "kick"]⟩, some false,
            true, true⟩ (CString.lit "a.so")),
          .loader (.call 0 fun _ => true), .loader (.finish 0),
          .checkCmd true (CString.lit "a!b@c") (CString.lit "#chan") (CString.lit ",kick ann"),
          .loader (.event true ⟨true, CString.lit "a.so"⟩),
          .loader (.call 1 fun _ => true), .loader (.finish 1)]
        (Dispatcher.HandlersOpen (CString.lit "./") (CString.lit ",")) := by
  constructor
  · intro h
    exact (h _ _ _ (List.prefix_refl _) rfl).calls (.run 0) _ (0, 7) rfl (.head _)
  · intro h
    exact (h _ _ _ (List.prefix_refl _) rfl).calls (.run 0) _ (0, 7) rfl (.head _)

end

end MinervaBot
