import MinervaBot.Modules

/-!
# The module core, lock by lock

The functions of `modules.c` that take `modules_cmds_mutex` or `modules_array_mutex`, step by step
as one thread makes them: each lock and each unlock stands where the source has it, on each way out.
A call either returns or ends in a `CallError`; the state it leaves is part of the result in both
cases. `Caller` is what the thread has done so far, with the variables it shares (`Loader`).
-/

namespace MinervaBot

open Lib

variable {H : Type}

/-! ## Calls -/

/-- `modules_cmds_mutex` and `modules_array_mutex`. -/
inductive ModulesMutex where
  | cmds
  | array
  deriving DecidableEq

/-- Why a call does not return: it exits the program; it writes behind an array or through `NULL`;
it locks a mutex that the thread holds; it unlocks one that the thread does not hold. -/
inductive CallError where
  | exit
  | undefined
  | relock
  | notHeld
  deriving DecidableEq

/-- The shared variables, and what the thread has done so far: the mutexes it holds, the indices of
`local_file` it wrote, the libraries it opened less those it closed, and the nodes of the command
tree it freed, each as the word that leads to it. -/
structure Caller (H : Type) where
  loader : Loader H
  held : ModulesMutex → Bool
  localFile : List Nat
  opened : Int
  freedNodes : List Word

/-- A thread that has done nothing yet. -/
def callerInit (s : Loader H) : Caller H where
  loader := s
  held := fun _ => false
  localFile := []
  opened := 0
  freedNodes := []

/-- A call of a thread. -/
abbrev CallM (H : Type) := EStateM CallError (Caller H)

namespace Caller

/-- `pthread_mutex_lock`. -/
def lock (m : ModulesMutex) : CallM H Unit := do
  let c ← get
  if c.held m then throw .relock
  set { c with held := Function.update c.held m true }

/-- `pthread_mutex_unlock`. -/
def unlock (m : ModulesMutex) : CallM H Unit := do
  let c ← get
  if !c.held m then throw .notHeld
  set { c with held := Function.update c.held m false }

/-- A change of the shared variables. -/
def modifyLoader (f : Loader H → Loader H) : CallM H Unit :=
  modify fun c => { c with loader := f c.loader }

/-- A change of the command tree. -/
def setCmds (cmds : CommandTree H) : CallM H Unit :=
  modifyLoader fun s => { s with cmds }

/-! ## The command tree -/

/-- The loop of `modules_register_cmd`. `put` puts the node at `ptr` back into the tree. -/
def modulesRegisterCmdLoop (handler : Option H) :
    (calloc : Nat → Bool) → (put : CommandTree H → CommandTree H) → (ptr : CommandTree H) →
      (cmdname : List UInt8) → CallM H Int
  | _, _, .null, _ => do
    unlock .cmds
    return -2
  | _, put, .node _ children, [] => do
    setCmds (put (.node handler children))
    unlock .cmds
    return 0
  | calloc, put, .node value children, real :: cmdname =>
    match childIndex real with
    | none => do
      unlock .cmds
      return -1
    | some i => do
      let child := (children i).grow (calloc 0)
      setCmds (put (.node value (Function.update children i child)))
      modulesRegisterCmdLoop handler (fun n => calloc (n + 1))
        (fun t => put (.node value (Function.update children i t))) child cmdname

/-- `modules_register_cmd`. -/
def modulesRegisterCmd (calloc : Nat → Bool) (cmdname : CString) (handler : Option H) :
    CallM H Int := do
  lock .cmds
  let c ← get
  modulesRegisterCmdLoop handler calloc id c.loader.cmds cmdname.bytes

/-- The loop of `modules_unregister_cmd`. -/
def modulesUnregisterCmdLoop : (put : CommandTree H → CommandTree H) → (ptr : CommandTree H) →
    (cmdname : List UInt8) → CallM H Int
  | _, .null, _ => do
    unlock .cmds
    return -3
  | put, .node _ children, [] => do
    setCmds (put (.node none children))
    unlock .cmds
    return 0
  | put, .node value children, real :: cmdname =>
    match childIndex real with
    | none => do
      unlock .cmds
      return -1
    | some i =>
      modulesUnregisterCmdLoop (fun t => put (.node value (Function.update children i t)))
        (children i) cmdname

/-- `modules_unregister_cmd`. -/
def modulesUnregisterCmd (cmdname : CString) : CallM H Int := do
  lock .cmds
  let c ← get
  modulesUnregisterCmdLoop id c.loader.cmds cmdname.bytes

/-- The end of a word in the loop of `modules_check_cmd`: with a handler the command is queued and
the function returns, without one the loop breaks, to the unlock behind it. -/
def checkCmdEnd (value : Option H) (cmdname args : CString) :
    CallM H (Option (H × CString × CString)) :=
  match value with
  | some handler => do
    unlock .cmds
    return some (handler, cmdname, args)
  | none => do
    unlock .cmds
    return none

/-- The loop of `modules_check_cmd`. -/
def modulesCheckCmdLoop (messageOrig : CString) :
    (ptr : CommandTree H) → (n : Nat) → (message : List UInt8) →
      CallM H (Option (H × CString × CString))
  | .null, _, _ => do
    unlock .cmds
    return none
  | .node value _, n, [] => checkCmdEnd value (messageOrig.take n) (messageOrig.drop n)
  | .node value children, n, real :: message =>
    if real = 32 then checkCmdEnd value (messageOrig.take n) (messageOrig.drop (n + 1))
    else
      match childIndex real with
      | none => do
        unlock .cmds
        return none
      | some i => modulesCheckCmdLoop messageOrig (children i) (n + 1) message

/-- `modules_check_cmd`. -/
def modulesCheckCmd (cmdPrefix sender target message : CString) : CallM H (Option (QueueCmd H)) := do
  if cmdPrefix.length + 1 > message.length then
    return none
  if cmdPrefix.bytes ≠ message.bytes.take cmdPrefix.length then
    return none
  lock .cmds
  let c ← get
  let r ← modulesCheckCmdLoop (message.drop 1) c.loader.cmds 0 (message.drop 1).bytes
  return r.map fun r => ⟨r.1, r.2.1, sender, target, r.2.2⟩

/-- `free` of a node. -/
def freeNode (path : Word) : CallM H Unit :=
  modify fun c => { c with freedNodes := c.freedNodes ++ [path] }

/-- A pass of the loop of `modules_cmds_clean` for the node that `path` leads to, with the call for
its child `i`. -/
def cleanChild (clean : CallM H (CommandTree H)) (path : Word) (i : Fin 26) (child : CommandTree H)
    (cleaned : Fin 26 → CommandTree H) : CallM H (Fin 26 → CommandTree H) :=
  match child with
  | .null => return cleaned
  | .node _ _ => do
    let _ ← clean
    freeNode (path ++ [i])
    return Function.update cleaned i .null

/-- `modules_cmds_clean` for the node that `path` leads to. At depth `0` this is the root, the
variable `cmds`. -/
def modulesCmdsClean : (depth : Nat) → (path : Word) → (root : CommandTree H) →
    CallM H (CommandTree H)
  | _, _, .null => throw .undefined
  | depth, path, .node value children => do
    if depth = 0 then
      lock .cmds
    let cleaned ← (List.finRange 26).foldlM (fun cleaned i =>
      cleanChild (modulesCmdsClean (depth + 1) (path ++ [i]) (children i)) path i (children i)
        cleaned) children
    if depth = 0 then
      setCmds (.node value cleaned)
      unlock .cmds
    return .node value cleaned

end Caller

/-- What the system answers to the steps of `modules_loadmod`: whether `dlopen` finds a library;
what `dlsym` finds as its `module_init`; whether `realloc` succeeds and then moves the block;
whether the context is allocated; whether `threadpool_queue_init` starts its thread. -/
structure LoadSteps (H : Type) where
  dlopen : Bool
  moduleInit : Option (Library H)
  realloc : Option Bool
  calloc : Bool
  queued : Bool

/-- The answers as the loader takes them. -/
def LoadSteps.sys (steps : LoadSteps H) : LoadSys H where
  dlopen := if steps.dlopen then steps.moduleInit else none
  realloc := steps.realloc
  calloc := steps.calloc
  queued := steps.queued

/-- The path of a module does not fit into `local_file`. -/
def PathTooLong (modDir modFile : CString) : Prop :=
  modFile.length + modDir.length + 1 > pathMax

instance (modDir modFile : CString) : Decidable (PathTooLong modDir modFile) :=
  inferInstanceAs (Decidable (_ > _))

/-- An entry of the modules directory, with what other threads make of the shared variables before
it is read, and what the system answers to its load. -/
structure DirEntry (H : Type) where
  dName : CString
  others : Loader H → Loader H
  steps : LoadSteps H

/-- What is behind the last `.` of a name, if there is one: `strrchr(name, '.') + 1`. -/
def afterLastDot (name : CString) : Option (List UInt8) :=
  if 46 ∈ name.bytes then some (name.bytes.reverse.takeWhile (· ≠ 46)).reverse else none

/-- `modules_rescanall` loads a file whose name does not start with `.` and goes on with `so` behind
its last `.`. -/
def isModuleFile (dName : CString) : Bool :=
  dName.bytes.head? ≠ some 46 && (afterLastDot dName).any fun c => c.take 2 == [115, 111]

/-- The `module_cleanup` of a context. -/
def Loader.cleanupOfCtx (s : Loader H) (ctx : Nat) : Option (List CString) :=
  s.ctxs[ctx]?.bind (·.dlsym.moduleCleanup)

/-- What `modules_unloadmod` without `wait` makes of the shared variables, for the context at an
entry of `loaded`: without `module_cleanup` the context is freed, else its thread is queued. -/
def Loader.unload (queued : Bool) (i ctx : Nat) (s : Loader H) : Loader H :=
  match s.cleanupOfCtx ctx with
  | none => { s with freed := s.freed ++ [ctx] }
  | some names =>
    { s with
      jobs := if queued then s.jobs ++ [.deinit ctx ⟨s.block, i⟩ names] else s.jobs
      loadedUse := s.loadedUse - 1 }

/-- What a pass of the loop of `modules_unloadall` makes of the shared variables. -/
def Loader.unloadEntry (queued : Nat → Bool) (s : Loader H) (i : Nat) : Loader H :=
  match s.loaded[i]?.join with
  | none => s
  | some ctx => s.unload (queued i) i ctx

/-- What `modules_unloadall` makes of the shared variables. -/
def Loader.unloadAll (queued : Nat → Bool) (s : Loader H) : Loader H :=
  let s := (List.range s.loaded.length).foldl (Loader.unloadEntry queued) s
  { s with cmds := s.cmds.cut }

namespace Caller

/-- A `memcpy` of `n` bytes to `local_file + start`, with the indices it writes. -/
def copyLocalFile (start n : Nat) : CallM H Unit := do
  modify fun c => { c with localFile := c.localFile ++ List.range' start n }
  if start + n > pathMax then throw .undefined

/-- A `dlopen` that finds a library. -/
def dlopen : CallM H Unit :=
  modify fun c => { c with opened := c.opened + 1 }

/-- `dlclose`. -/
def dlclose : CallM H Unit :=
  modify fun c => { c with opened := c.opened - 1 }

/-- `modules_loadmod` from the lock on. -/
def addContext (steps : LoadSteps H) (lib : Library H) (modFile : CString) : CallM H Unit := do
  lock .array
  let c ← get
  match c.loader.grow steps.realloc with
  | none =>
    dlclose
    unlock .array
  | some s =>
    modifyLoader fun _ => s
    match s.loaded.findIdx? (·.isNone) with
    | none => throw .exit
    | some i =>
      if steps.calloc then
        modifyLoader (·.addModule steps.queued lib modFile i)
        unlock .array
      else
        dlclose
        unlock .array

/-- `modules_loadmod`. -/
def modulesLoadmod (modDir : CString) (steps : LoadSteps H) (modFile : CString) :
    CallM H Unit := do
  -- a path that is too long is logged, and copied all the same
  copyLocalFile 0 modDir.length
  copyLocalFile modDir.length (modFile.length + 1)
  if steps.dlopen then
    dlopen
    match steps.moduleInit with
    | none => dlclose
    | some lib => addContext steps lib modFile

/-- `modules_unloadmod` without `wait`, for the context at an entry of `loaded`. -/
def modulesUnloadmod (queued : Bool) (i ctx : Nat) : CallM H Unit := do
  let c ← get
  if (c.loader.cleanupOfCtx ctx).isNone then dlclose
  modifyLoader (·.unload queued i ctx)

/-- A pass of the loop of `modules_unloadall`. -/
def modulesUnloadallEntry (queued : Nat → Bool) (i : Nat) : CallM H Unit := do
  let c ← get
  match c.loader.loaded[i]?.join with
  | none => return
  | some ctx => modulesUnloadmod (queued i) i ctx

/-- `modules_unloadall`; `queued` tells for each entry whether `threadpool_queue_deinit` starts its
thread. `threadpool_waitall` touches none of these variables. -/
def modulesUnloadall (queued : Nat → Bool) : CallM H Unit := do
  lock .array
  let c ← get
  (List.range c.loader.loaded.length).forM (modulesUnloadallEntry queued)
  let c ← get
  let _ ← modulesCmdsClean 0 [] c.loader.cmds
  unlock .array

/-- A pass of the loop of `modules_rescanall`. -/
def modulesRescanallEntry (modDir : CString) (dir : DirEntry H) : CallM H Unit := do
  modifyLoader dir.others
  if isModuleFile dir.dName then modulesLoadmod modDir dir.steps dir.dName

/-- `modules_rescanall` from the `opendir` on; the folder is `none` if it fails. -/
def modulesRescanallFolder (modDir : CString) (folder : Option (List (DirEntry H))) :
    CallM H Unit :=
  match folder with
  | none => throw .exit
  | some entries => do
    entries.forM (modulesRescanallEntry modDir)
    unlock .array

/-- `modules_rescanall`. -/
def modulesRescanall (modDir : CString) (queued : Nat → Bool) (folder : Option (List (DirEntry H))) :
    CallM H Unit := do
  let c ← get
  if c.loader.loadedUse > 0 then
    modulesUnloadall queued
  modulesRescanallFolder modDir folder

end Caller

end MinervaBot
