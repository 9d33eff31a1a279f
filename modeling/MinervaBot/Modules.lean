import MinervaBot.Commands

/-!
# Loading and unloading modules

`modules_loadmod`, `modules_unloadmod` and `modules_watchdir` of `modules.c`, with the threads that
`threadpool_queue_init` and `threadpool_queue_deinit` start for them. `Loader` is what these share:
the command tree, the array `loaded`, the contexts and the jobs. A step is a step of one thread: the
thread that watches the directory between two points where it may be overtaken, one call of a job
into the tree, or the end of a job. The slots of the pool are not part of this model. A context that
was freed while its entry stayed, as that of a library without `module_cleanup` does, keeps its
contents here: an event compares its name, and may unload it once more, in an ordinary step, where C
leaves the use of the freed block undefined.

The tree of a loader changes by the calls of its jobs only (`loaderRun_cmds`).
-/

namespace MinervaBot

open Lib

variable {H : Type}

/-! ## State -/

/-- A shared library as `dlsym` finds it: the commands that `module_init` registers, in the order of
the calls, and those that `module_cleanup` unregisters; `none` for a library without
`module_cleanup`. -/
structure Library (H : Type) where
  moduleInit : List (CString × H)
  moduleCleanup : Option (List CString)

/-- `struct core_ctx`: the handle and the file name. -/
structure CoreCtx (H : Type) where
  dlsym : Library H
  fn : CString

/-- `ctx_pos`: an index into the block that `loaded` pointed to when the pointer was taken. -/
structure CtxPos where
  block : Nat
  index : Nat
  deriving DecidableEq

/-- A thread in `threadpool_wrapper_init` or `threadpool_wrapper_deinit`: the calls its handler has
still to make, and the sum of what `register_cmd` returned so far. -/
inductive Job (H : Type) where
  | init (ctx : Nat) (ctxPos : CtxPos) (todo : List (CString × H)) (ret : Int)
  | deinit (ctx : Nat) (ctxPos : CtxPos) (todo : List CString)
  | finished (error : Bool)
  deriving DecidableEq

/-- `struct inotify_event`: a close after a write, or a deletion. -/
structure InotifyEvent where
  inDelete : Bool
  name : CString

/-- Where the thread in `modules_watchdir` is: in `read`, in the `pthread_join` of
`threadpool_queue_deinit`, or before `modules_loadmod`. -/
inductive Watchdog where
  | read
  | join (job : Nat) (evt : InotifyEvent)
  | load (name : CString)

/-- Where the thread goes on once it is done with the old module. -/
def InotifyEvent.next (evt : InotifyEvent) : Watchdog :=
  if evt.inDelete then .read else .load evt.name

/-- The state of the module loader. A context is known by its place in `ctxs`, which lists all
contexts so far; `freed` lists those that were closed and freed, which keep their contents here.
`block` numbers the blocks that `loaded` has pointed to, and jobs stay in `jobs` when they are
finished. -/
structure Loader (H : Type) where
  cmds : CommandTree H
  ctxs : List (CoreCtx H)
  freed : List Nat
  block : Nat
  loaded : List (Option Nat)
  loadedUse : Int
  jobs : List (Job H)
  watchdog : Watchdog

/-- The state after `modules_init`. -/
def loaderInit : Loader H where
  cmds := cmdsInit
  ctxs := []
  freed := []
  block := 0
  loaded := .replicate 6 none
  loadedUse := 0
  jobs := []
  watchdog := .read

/-! ## Loading -/

/-- What the system answers to `modules_loadmod`: the library, if `dlopen` and `dlsym` find one with
`module_init`; whether `realloc` succeeds and then moves the block; whether the context is
allocated; whether `threadpool_queue_init` starts its thread. -/
structure LoadSys (H : Type) where
  dlopen : Option (Library H)
  realloc : Option Bool
  calloc : Bool
  queued : Bool

/-- `PATH_MAX`. -/
def pathMax : Nat := 4096

/-- The growth of `loaded` in `modules_loadmod`; `none` if it fails. -/
def Loader.grow (realloc : Option Bool) (s : Loader H) : Option (Loader H) :=
  if s.loadedUse + 1 ≥ s.loaded.length then
    realloc.map fun moved =>
      { s with
        block := if moved then s.block + 1 else s.block
        loaded := s.loaded ++ .replicate s.loaded.length none }
  else some s

/-- A new context at a free entry of `loaded`, and the thread that initializes it. -/
def Loader.addModule (queued : Bool) (lib : Library H) (modFile : CString) (i : Nat)
    (s : Loader H) : Loader H :=
  let job := Job.init s.ctxs.length ⟨s.block, i⟩ lib.moduleInit 0
  { s with
    ctxs := s.ctxs ++ [⟨lib, modFile⟩]
    loaded := s.loaded.set i (some s.ctxs.length)
    loadedUse := s.loadedUse + 1
    jobs := if queued then s.jobs ++ [job] else s.jobs }

/-- `modules_loadmod`. There is no result if the path does not fit into `local_file`, where the
code writes behind the buffer, and if no entry is free, where it exits. -/
def modulesLoadmod (modDir : CString) (sys : LoadSys H) (s : Loader H) (modFile : CString) :
    Option (Loader H) :=
  if modFile.length + modDir.length + 1 > pathMax then none
  else
    match sys.dlopen with
    | none => some s
    | some lib =>
      match s.grow sys.realloc with
      | none => some s
      | some s =>
        match s.loaded.findIdx? (·.isNone) with
        | none => none
        | some i => some (if sys.calloc then s.addModule sys.queued lib modFile i else s)

/-! ## Unloading -/

/-- Whether an entry of `loaded` is the module of a file. -/
def Loader.isModule (s : Loader H) (name : CString) (entry : Option Nat) : Bool :=
  (entry.bind fun ctx => s.ctxs[ctx]?).any (·.fn = name)

/-- The search of `modules_watchdir`: the first entry with the module of a file. -/
def Loader.findModule (s : Loader H) (name : CString) : Option Nat :=
  s.loaded.findIdx? (s.isModule name)

/-- What `module_cleanup` of the loaded module of a file removes. -/
def Loader.cleanupOf (s : Loader H) (name : CString) : Option (List CString) := do
  let i ← s.findModule name
  let ctx ← s.loaded[i]?.join
  let coreCtx ← s.ctxs[ctx]?
  coreCtx.dlsym.moduleCleanup

/-- `modules_unloadmod` for the context at an entry of `loaded`, up to the `pthread_join`, on the
way of the watching thread through an event. -/
def modulesUnloadmod (queued : Bool) (s : Loader H) (evt : InotifyEvent) (i ctx : Nat) :
    Loader H :=
  match s.ctxs[ctx]?.bind (·.dlsym.moduleCleanup) with
  | none => { s with freed := s.freed ++ [ctx], watchdog := evt.next }
  | some names =>
    if queued then
      { s with
        jobs := s.jobs ++ [.deinit ctx ⟨s.block, i⟩ names]
        watchdog := .join s.jobs.length evt }
    else { s with loadedUse := s.loadedUse - 1, watchdog := evt.next }

/-- What `modules_watchdir` does with an event up to the `pthread_join`. A context that was freed
while its entry stayed is read like any other, which C leaves undefined. -/
def watchdirEvent (queued : Bool) (s : Loader H) (evt : InotifyEvent) : Loader H :=
  match s.findModule evt.name with
  | none => { s with watchdog := evt.next }
  | some i =>
    match s.loaded[i]?.join with
    | none => { s with watchdog := evt.next }
    | some ctx => modulesUnloadmod queued s evt i ctx

/-! ## Jobs -/

/-- The next call of a job into the command tree. -/
def Job.nextCall (calloc : Nat → Bool) : Job H → Option (CommandOp H)
  | .init _ _ ((cmdname, handler) :: _) _ => some (.register calloc cmdname (some handler))
  | .deinit _ _ (cmdname :: _) => some (.unregister cmdname)
  | _ => none

/-- A job after its next call returned `r`. -/
def Job.afterCall (r : Int) : Job H → Job H
  | .init ctx ctxPos todo ret => .init ctx ctxPos todo.tail (ret + r)
  | .deinit ctx ctxPos todo => .deinit ctx ctxPos todo.tail
  | .finished error => .finished error

/-- `*(arg->ctx_pos) = NULL`; nothing happens to `loaded` when it has moved. -/
def Loader.clearPos (ctxPos : CtxPos) (s : Loader H) : Loader H :=
  if ctxPos.block = s.block then { s with loaded := s.loaded.set ctxPos.index none } else s

/-- The entry is cleared, the library closed and the context freed. -/
def Loader.close (ctx : Nat) (ctxPos : CtxPos) (s : Loader H) : Loader H :=
  { s.clearPos ctxPos with freed := s.freed ++ [ctx] }

/-- The end of a job whose handler has made its calls: `module_init` fails if the sum of what it
got from `register_cmd` is not `0`. -/
def Job.finish (s : Loader H) : Job H → Option (Loader H × Bool)
  | .init ctx ctxPos [] ret => some (if ret ≠ 0 then (s.close ctx ctxPos, true) else (s, false))
  | .deinit ctx ctxPos [] => some (s.close ctx ctxPos, false)
  | _ => none

/-- The end of a job whose handler is left by a signal, or of a `module_init` that gives up. -/
def Job.fail (s : Loader H) : Job H → Option (Loader H × Bool)
  | .init ctx ctxPos _ _ => some (s.close ctx ctxPos, true)
  | .deinit ctx ctxPos _ => some (s.close ctx ctxPos, true)
  | .finished _ => none

/-- A job put in the place of another. -/
def Loader.setJob (s : Loader H) (j : Nat) (job : Job H) : Loader H :=
  { s with jobs := s.jobs.set j job }

/-! ## Steps -/

/-- A step of a thread: `modules_rescanall` loads a file, the watching thread takes an event, leaves
the `pthread_join` or loads, a job makes a call, ends or fails. -/
inductive LoaderAct (H : Type) where
  | loadmod (sys : LoadSys H) (modFile : CString)
  | event (queued : Bool) (evt : InotifyEvent)
  | join
  | load (sys : LoadSys H)
  | call (job : Nat) (calloc : Nat → Bool)
  | finish (job : Nat)
  | fail (job : Nat)

/-- A call of a job with what it returned. -/
abbrev LoggedCall (H : Type) := CommandOp H × Int

/-- Whether a job has ended. -/
def Job.isFinished : Job H → Bool
  | .finished _ => true
  | _ => false

/-- Whether a `pthread_join` of the thread of a job returns: at once for a detached thread, else
when the thread has ended. -/
def Loader.joined (s : Loader H) (detached : Bool) (job : Nat) : Bool :=
  detached || s.jobs[job]?.any Job.isFinished

/-- `threadpool_init` sets `PTHREAD_CREATE_DETACHED` for the threads of the pool. -/
def poolDetached : Bool := true

/-- One step, and the call into the command tree that it makes. The threads are created with or
without `PTHREAD_CREATE_DETACHED`; `modules_rescanall` waits for `modules_array_mutex`, which the
watching thread holds in the `pthread_join`. -/
def loaderStep (modDir : CString) (detached : Bool) (s : Loader H) :
    LoaderAct H → Option (Loader H × Option (LoggedCall H))
  | .loadmod sys modFile =>
    match s.watchdog with
    | .join .. => none
    | _ => (modulesLoadmod modDir sys s modFile).map fun s => (s, none)
  | .event queued evt =>
    match s.watchdog with
    | .read => some (watchdirEvent queued s evt, none)
    | _ => none
  | .join =>
    match s.watchdog with
    | .join job evt =>
      if s.joined detached job then
        some ({ s with loadedUse := s.loadedUse - 1, watchdog := evt.next }, none)
      else none
    | _ => none
  | .load sys =>
    match s.watchdog with
    | .load name =>
      (modulesLoadmod modDir sys s name).map fun s => ({ s with watchdog := .read }, none)
    | _ => none
  | .call j calloc => do
    let job ← s.jobs[j]?
    let op ← job.nextCall calloc
    let (cmds, r) ← commandStep s.cmds op
    return ({ s.setJob j (job.afterCall r) with cmds := cmds }, some (op, r))
  | .finish j => do
    let job ← s.jobs[j]?
    let (s, error) ← job.finish s
    return (s.setJob j (.finished error), none)
  | .fail j => do
    let job ← s.jobs[j]?
    let (s, error) ← job.fail s
    return (s.setJob j (.finished error), none)

/-! ## The command tree of a run -/

/-- A call, with what it returns, as a step of the tree. -/
def CallStep (cmds : CommandTree H) (call : LoggedCall H) (cmds' : CommandTree H) : Prop :=
  commandStep cmds call.1 = some (cmds', call.2)

/-- The calls of a run into the command tree, with what they returned. -/
def callLog (outs : List (Option (LoggedCall H))) : List (LoggedCall H) :=
  outs.reduceOption

/-- Clearing an entry, closing and freeing leaves the tree, the jobs and the watching thread. -/
theorem Loader.close_frame (ctx : Nat) (ctxPos : CtxPos) (s : Loader H) :
    (s.close ctx ctxPos).cmds = s.cmds ∧ (s.close ctx ctxPos).jobs = s.jobs ∧
      (s.close ctx ctxPos).watchdog = s.watchdog := by
  unfold Loader.close Loader.clearPos
  split <;> exact ⟨rfl, rfl, rfl⟩

/-- Growing `loaded` leaves the tree, the contexts, the jobs and the watching thread. -/
theorem Loader.grow_frame {realloc : Option Bool} {s s' : Loader H}
    (h : s.grow realloc = some s') :
    s'.cmds = s.cmds ∧ s'.ctxs = s.ctxs ∧ s'.jobs = s.jobs ∧ s'.watchdog = s.watchdog := by
  unfold Loader.grow at h
  split at h
  · obtain ⟨moved, -, rfl⟩ := Option.map_eq_some_iff.1 h
    exact ⟨rfl, rfl, rfl, rfl⟩
  · cases h
    exact ⟨rfl, rfl, rfl, rfl⟩

/-- What `modules_loadmod` does: it leaves the tree and the watching thread, and starts at most one
job, that of the library it opened, for a new context. -/
theorem modulesLoadmod_cases {modDir modFile : CString} {sys : LoadSys H} {s s' : Loader H}
    (h : modulesLoadmod modDir sys s modFile = some s') :
    s'.cmds = s.cmds ∧ s'.watchdog = s.watchdog ∧
      (s'.jobs = s.jobs ∨ ∃ lib ctxPos, sys.dlopen = some lib ∧
        s'.jobs = s.jobs ++ [.init s.ctxs.length ctxPos lib.moduleInit 0]) := by
  unfold modulesLoadmod at h
  split at h
  · cases h
  split at h
  · cases h
    exact ⟨rfl, rfl, .inl rfl⟩
  next lib hlib =>
  split at h
  · cases h
    exact ⟨rfl, rfl, .inl rfl⟩
  next s₁ hgrow =>
  obtain ⟨hcmds, hctxs, hjobs, hwatchdog⟩ := Loader.grow_frame hgrow
  split at h
  · cases h
  next i hi =>
  cases h
  split
  · refine ⟨hcmds, hwatchdog, ?_⟩
    by_cases hqueued : sys.queued
    · refine .inr ⟨lib, ⟨s₁.block, i⟩, hlib, ?_⟩
      rw [Loader.addModule, if_pos hqueued, hjobs, hctxs]
    · refine .inl ?_
      rw [Loader.addModule, if_neg hqueued, hjobs]
  · exact ⟨hcmds, hwatchdog, .inl hjobs⟩

/-- An event for a loaded module with `module_cleanup` starts its thread and joins it. -/
theorem watchdirEvent_of_cleanupOf {s : Loader H} {evt : InotifyEvent} {names : List CString}
    (h : s.cleanupOf evt.name = some names) :
    ∃ ctx ctxPos, watchdirEvent true s evt =
      { s with
        jobs := s.jobs ++ [.deinit ctx ctxPos names]
        watchdog := .join s.jobs.length evt } := by
  obtain ⟨i, hi, h⟩ := Option.bind_eq_some_iff.1 h
  obtain ⟨ctx, hctx, h⟩ := Option.bind_eq_some_iff.1 h
  obtain ⟨coreCtx, hcoreCtx, hnames⟩ := Option.bind_eq_some_iff.1 h
  refine ⟨ctx, ⟨s.block, i⟩, ?_⟩
  simp only [watchdirEvent, hi, hctx, modulesUnloadmod, hcoreCtx, Option.bind_some, hnames, if_true]

/-- An event leaves the tree. -/
theorem cmds_watchdirEvent (queued : Bool) (s : Loader H) (evt : InotifyEvent) :
    (watchdirEvent queued s evt).cmds = s.cmds := by
  unfold watchdirEvent modulesUnloadmod
  grind

/-- What the end of a job does: it leaves the tree and the watching thread, and fails unless the
calls of `module_init` all counted as successful. -/
theorem Job.finish_cases {s s' : Loader H} {job : Job H} {error : Bool}
    (h : job.finish s = some (s', error)) :
    s'.cmds = s.cmds ∧ s'.jobs = s.jobs ∧ s'.watchdog = s.watchdog ∧
      ((∃ ctx ctxPos ret, job = .init ctx ctxPos [] ret ∧ (error = false → ret = 0)) ∨
        ∃ ctx ctxPos, job = .deinit ctx ctxPos []) := by
  unfold Job.finish at h
  split at h
  · next ctx ctxPos ret =>
    split at h
    · cases h
      obtain ⟨hcmds, hjobs, hwatchdog⟩ := s.close_frame ctx ctxPos
      exact ⟨hcmds, hjobs, hwatchdog, .inl ⟨ctx, ctxPos, ret, rfl, nofun⟩⟩
    · next hret =>
      cases h
      exact ⟨rfl, rfl, rfl, .inl ⟨ctx, ctxPos, ret, rfl, fun _ => by simpa using hret⟩⟩
  · next ctx ctxPos =>
    cases h
    obtain ⟨hcmds, hjobs, hwatchdog⟩ := s.close_frame ctx ctxPos
    exact ⟨hcmds, hjobs, hwatchdog, .inr ⟨ctx, ctxPos, rfl⟩⟩
  · cases h

/-- What the failure of a job does: it leaves the tree and the watching thread. -/
theorem Job.fail_cases {s s' : Loader H} {job : Job H} {error : Bool}
    (h : job.fail s = some (s', error)) :
    s'.cmds = s.cmds ∧ s'.jobs = s.jobs ∧ s'.watchdog = s.watchdog ∧ error = true := by
  cases job with
  | init ctx ctxPos todo ret =>
    cases h
    obtain ⟨hcmds, hjobs, hwatchdog⟩ := s.close_frame ctx ctxPos
    exact ⟨hcmds, hjobs, hwatchdog, rfl⟩
  | deinit ctx ctxPos todo =>
    cases h
    obtain ⟨hcmds, hjobs, hwatchdog⟩ := s.close_frame ctx ctxPos
    exact ⟨hcmds, hjobs, hwatchdog, rfl⟩
  | finished error => cases h

/-- The steps of the loader, each with what it needs and what it leaves. -/
inductive LoaderStep (modDir : CString) (detached : Bool) (s : Loader H) :
    LoaderAct H → Loader H → Option (LoggedCall H) → Prop
  | loadmod : modulesLoadmod modDir sys s modFile = some s' →
      LoaderStep modDir detached s (.loadmod sys modFile) s' none
  | event : s.watchdog = .read →
      LoaderStep modDir detached s (.event queued evt) (watchdirEvent queued s evt) none
  | join : s.watchdog = .join job evt → s.joined detached job →
      LoaderStep modDir detached s .join
        { s with loadedUse := s.loadedUse - 1, watchdog := evt.next } none
  | load : s.watchdog = .load name → modulesLoadmod modDir sys s name = some s' →
      LoaderStep modDir detached s (.load sys) { s' with watchdog := .read } none
  | call {j : Nat} {job : Job H} {calloc : Nat → Bool} {op : CommandOp H} {cmds : CommandTree H}
      {r : Int} : s.jobs[j]? = some job → job.nextCall calloc = some op →
      commandStep s.cmds op = some (cmds, r) →
      LoaderStep modDir detached s (.call j calloc)
        { s.setJob j (job.afterCall r) with cmds := cmds } (some (op, r))
  | finish {j : Nat} {job : Job H} {s' : Loader H} {error : Bool} : s.jobs[j]? = some job →
      job.finish s = some (s', error) →
      LoaderStep modDir detached s (.finish j) (s'.setJob j (.finished error)) none
  | fail {j : Nat} {job : Job H} {s' : Loader H} {error : Bool} : s.jobs[j]? = some job →
      job.fail s = some (s', error) →
      LoaderStep modDir detached s (.fail j) (s'.setJob j (.finished error)) none

section
variable {modDir : CString} {detached : Bool} {s s' : Loader H} {out : Option (LoggedCall H)}

/-- Every step of the function is one of these. -/
theorem loaderStep_inv {act : LoaderAct H}
    (h : loaderStep modDir detached s act = some (s', out)) :
    LoaderStep modDir detached s act s' out := by
  cases act with
  | loadmod sys modFile =>
    simp only [loaderStep] at h
    split at h
    · cases h
    · obtain ⟨s₁, hload, ⟨⟩⟩ := Option.map_eq_some_iff.1 h
      exact .loadmod hload
  | event queued evt =>
    simp only [loaderStep] at h
    split at h
    · next hread =>
      cases h
      exact .event hread
    · cases h
  | join =>
    simp only [loaderStep] at h
    split at h
    · next job evt hjoin =>
      split at h
      · next hjoined =>
        cases h
        exact .join hjoin hjoined
      · cases h
    · cases h
  | load sys =>
    simp only [loaderStep] at h
    split at h
    · next name hwatchdog =>
      obtain ⟨s₁, hload, ⟨⟩⟩ := Option.map_eq_some_iff.1 h
      exact .load hwatchdog hload
    · cases h
  | call j calloc =>
    obtain ⟨job, hjob, h⟩ := Option.bind_eq_some_iff.1 h
    obtain ⟨op, hop, h⟩ := Option.bind_eq_some_iff.1 h
    obtain ⟨⟨cmds, r⟩, hcmds, ⟨⟩⟩ := Option.bind_eq_some_iff.1 h
    exact .call hjob hop hcmds
  | finish j =>
    obtain ⟨job, hjob, h⟩ := Option.bind_eq_some_iff.1 h
    obtain ⟨⟨s₁, error⟩, hfinish, ⟨⟩⟩ := Option.bind_eq_some_iff.1 h
    exact .finish hjob hfinish
  | fail j =>
    obtain ⟨job, hjob, h⟩ := Option.bind_eq_some_iff.1 h
    obtain ⟨⟨s₁, error⟩, hfail, ⟨⟩⟩ := Option.bind_eq_some_iff.1 h
    exact .fail hjob hfail

/-- What a call of a job does. -/
theorem loaderStep_call {j : Nat} {calloc : Nat → Bool}
    (h : loaderStep modDir detached s (.call j calloc) = some (s', out)) :
    ∃ job op r, s.jobs[j]? = some job ∧ job.nextCall calloc = some op ∧ out = some (op, r) ∧
      CallStep s.cmds (op, r) s'.cmds ∧ s'.watchdog = s.watchdog ∧
      s'.jobs = s.jobs.set j (job.afterCall r) := by
  cases loaderStep_inv h with
  | call hjob hop hcmds => exact ⟨_, _, _, hjob, hop, rfl, hcmds, rfl, rfl⟩

/-- What the end of a job does. -/
theorem loaderStep_finish {j : Nat}
    (h : loaderStep modDir detached s (.finish j) = some (s', out)) :
    ∃ job error, s.jobs[j]? = some job ∧ out = none ∧ s'.cmds = s.cmds ∧
      s'.watchdog = s.watchdog ∧ s'.jobs = s.jobs.set j (.finished error) ∧
      ((∃ ctx ctxPos ret, job = .init ctx ctxPos [] ret ∧ (error = false → ret = 0)) ∨
        ∃ ctx ctxPos, job = .deinit ctx ctxPos []) := by
  cases loaderStep_inv h with
  | finish hjob hfinish =>
    obtain ⟨hcmds, hjobs, hwatchdog, hcases⟩ := Job.finish_cases hfinish
    exact ⟨_, _, hjob, rfl, hcmds, hwatchdog, by rw [Loader.setJob, hjobs], hcases⟩

/-- What the failure of a job does. -/
theorem loaderStep_fail {j : Nat}
    (h : loaderStep modDir detached s (.fail j) = some (s', out)) :
    ∃ job, s.jobs[j]? = some job ∧ out = none ∧ s'.cmds = s.cmds ∧ s'.watchdog = s.watchdog ∧
      s'.jobs = s.jobs.set j (.finished true) := by
  cases loaderStep_inv h with
  | fail hjob hfail =>
    obtain ⟨hcmds, hjobs, hwatchdog, rfl⟩ := Job.fail_cases hfail
    exact ⟨_, hjob, rfl, hcmds, hwatchdog, by rw [Loader.setJob, hjobs]⟩

/-- What leaving the `pthread_join` does. -/
theorem loaderStep_join (h : loaderStep modDir detached s .join = some (s', out)) :
    ∃ job evt, s.watchdog = .join job evt ∧ s.joined detached job ∧ out = none ∧
      s'.cmds = s.cmds ∧ s'.watchdog = evt.next ∧ s'.jobs = s.jobs := by
  cases loaderStep_inv h with
  | join hwatchdog hjoined => exact ⟨_, _, hwatchdog, hjoined, rfl, rfl, rfl, rfl⟩

/-- What the load of an event does. -/
theorem loaderStep_load {sys : LoadSys H}
    (h : loaderStep modDir detached s (.load sys) = some (s', out)) :
    ∃ name, s.watchdog = .load name ∧ out = none ∧ s'.cmds = s.cmds ∧ s'.watchdog = .read ∧
      (s'.jobs = s.jobs ∨ ∃ lib ctx ctxPos, sys.dlopen = some lib ∧
        s'.jobs = s.jobs ++ [.init ctx ctxPos lib.moduleInit 0]) := by
  cases loaderStep_inv h with
  | load hwatchdog hload =>
    obtain ⟨hcmds, -, hjobs⟩ := modulesLoadmod_cases hload
    refine ⟨_, hwatchdog, rfl, hcmds, rfl, hjobs.imp_right ?_⟩
    rintro ⟨lib, ctxPos, hlib, hjobs⟩
    exact ⟨lib, s.ctxs.length, ctxPos, hlib, hjobs⟩

/-- A step leaves the command tree, or it is a call into it. -/
theorem loaderStep_cmds {act : LoaderAct H}
    (h : loaderStep modDir detached s act = some (s', out)) :
    out = none ∧ s'.cmds = s.cmds ∨
      ∃ call, out = some call ∧ CallStep s.cmds call s'.cmds := by
  cases loaderStep_inv h with
  | loadmod hload => exact .inl ⟨rfl, (modulesLoadmod_cases hload).1⟩
  | event hread => exact .inl ⟨rfl, cmds_watchdirEvent _ s _⟩
  | join hwatchdog hjoined => exact .inl ⟨rfl, rfl⟩
  | load hwatchdog hload => exact .inl ⟨rfl, (modulesLoadmod_cases hload).1⟩
  | call hjob hop hcmds => exact .inr ⟨_, rfl, hcmds⟩
  | finish hjob hfinish => exact .inl ⟨rfl, (Job.finish_cases hfinish).1⟩
  | fail hjob hfail => exact .inl ⟨rfl, (Job.fail_cases hfail).1⟩

/-- The tree of a run follows the calls of its jobs. -/
theorem loaderRun_cmds {acts : List (LoaderAct H)} {outs : List (Option (LoggedCall H))}
    (h : runSteps (loaderStep modDir detached) s acts = some (s', outs)) :
    Path CallStep s.cmds (callLog outs) s'.cmds :=
  runSteps_project (fun _ _ _ _ => loaderStep_cmds) h

end

end MinervaBot
