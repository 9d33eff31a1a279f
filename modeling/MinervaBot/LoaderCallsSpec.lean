import MinervaBot.LoaderCalls

/-!
# What the calls of the module core do

One lemma for each function of `LoaderCalls`: what it makes of the shared variables is what the
function without locks makes of them, and the mutexes are as they were
(`Caller.run_modulesRegisterCmd`, `Caller.run_modulesUnregisterCmd`, `Caller.run_modulesCheckCmd`,
`Caller.modulesLoadmod_cases`, `Caller.run_modulesUnloadall`). `modules_cmds_clean` frees the nodes
below the root, each behind those below it, and cuts them off (`Caller.run_modulesCmdsClean`).
-/

namespace MinervaBot

open Lib

variable {H : Type}

/-- The root of the tree is a variable. -/
theorem cmdsInit_ne_null : (cmdsInit : CommandTree H) ≠ .null :=
  fun h => nomatch h

/-! ## What the steps do -/

namespace Caller

section
variable {c : Caller H} {m : ModulesMutex} {α : Type}

/-- The thread after it took a mutex. -/
def locked (c : Caller H) (m : ModulesMutex) : Caller H :=
  { c with held := Function.update c.held m true }

/-- The thread after it released a mutex. -/
def unlocked (c : Caller H) (m : ModulesMutex) : Caller H :=
  { c with held := Function.update c.held m false }

/-- A change of the command tree. -/
def withCmds (c : Caller H) (cmds : CommandTree H) : Caller H :=
  { c with loader := { c.loader with cmds } }

/-- A change of the shared variables. -/
def withLoader (c : Caller H) (loader : Loader H) : Caller H :=
  { c with loader }

/-- A mutex that the caller does not hold is taken. -/
theorem run_lock (h : c.held m = false) : (lock m).run c = .ok () (c.locked m) := by
  simp [lock, h, locked]

/-- A mutex that the caller holds is given back. -/
theorem run_unlock (h : c.held m = true) : (unlock m).run c = .ok () (c.unlocked m) := by
  simp [unlock, h, unlocked]

/-- A mutex that the caller does not hold cannot be given back. -/
theorem run_unlock_notHeld (h : c.held m = false) : (unlock m).run c = .error .notHeld c := by
  simp [unlock, h]

/-- The way out of a function: unlock and return. -/
theorem run_unlock_return (h : c.held m = true) (a : α) :
    (do unlock m; return a : CallM H α).run c = .ok a (c.unlocked m) := by
  simp only [EStateM.run_bind, run_unlock h, EStateM.run_pure]

/-- A write to the variables of the loader. -/
theorem run_modifyLoader (f : Loader H → Loader H) :
    (modifyLoader f).run c = .ok () (c.withLoader (f c.loader)) := rfl

/-- A write to the tree. -/
theorem run_setCmds (cmds : CommandTree H) : (setCmds cmds).run c = .ok () (c.withCmds cmds) := rfl

/-- `dlopen` opens a library. -/
theorem run_dlopen :
    (dlopen : CallM H Unit).run c = .ok () { c with opened := c.opened + 1 } := rfl

/-- `dlclose` closes one. -/
theorem run_dlclose :
    (dlclose : CallM H Unit).run c = .ok () { c with opened := c.opened - 1 } := rfl

/-- A `free` of a node. -/
theorem run_freeNode (path : Word) : (freeNode path : CallM H Unit).run c =
    .ok () { c with freedNodes := c.freedNodes ++ [path] } := rfl

/-- A mutex that was taken is held. -/
theorem locked_held (c : Caller H) (m : ModulesMutex) : (c.locked m).held m = true :=
  Function.update_self ..

/-- A lock and an unlock leave the mutexes as they were. -/
theorem unlocked_locked (h : c.held m = false) : (c.locked m).unlocked m = c := by
  have hupd : Function.update (Function.update c.held m true) m false = c.held := by
    rw [Function.update_idem, ← h, Function.update_eq_self]
  simp [locked, unlocked, hupd]

/-- The command tree as it is. -/
theorem withCmds_self {cmds : CommandTree H} (h : c.loader.cmds = cmds) : c.withCmds cmds = c := by
  subst h
  rfl

/-! ## The command tree -/

/-- The loop of `modules_register_cmd` unlocks on each way out. Induction on the name; `put` puts
the node at `ptr` back into the tree. -/
theorem run_modulesRegisterCmdLoop (handler : Option H) (cmdname : List UInt8) :
    ∀ (calloc : Nat → Bool) (put : CommandTree H → CommandTree H) (ptr : CommandTree H)
      {c : Caller H}, c.held .cmds = true → c.loader.cmds = put ptr →
      (modulesRegisterCmdLoop handler calloc put ptr cmdname).run c =
        .ok (MinervaBot.modulesRegisterCmdLoop handler calloc ptr cmdname).1
          ((c.withCmds (put (MinervaBot.modulesRegisterCmdLoop handler calloc ptr cmdname).2)).unlocked
            .cmds) := by
  induction cmdname with
  | nil =>
    intro calloc put ptr c hheld hcmds
    cases ptr with
    | null => rw [modulesRegisterCmdLoop, run_unlock_return hheld, ← withCmds_self hcmds]; rfl
    | node value children =>
      have hheld' : (c.withCmds (put (.node handler children))).held .cmds = true := hheld
      simp only [modulesRegisterCmdLoop, EStateM.run_bind, run_setCmds, run_unlock hheld']
      rfl
  | cons real cmdname ih =>
    intro calloc put ptr c hheld hcmds
    cases ptr with
    | null => rw [modulesRegisterCmdLoop, run_unlock_return hheld, ← withCmds_self hcmds]; rfl
    | node value children =>
      rw [modulesRegisterCmdLoop, MinervaBot.modulesRegisterCmdLoop]
      cases hchild : childIndex real with
      | none => rw [run_unlock_return hheld, withCmds_self hcmds]
      | some i =>
        simp only [EStateM.run_bind, run_setCmds]
        exact ih _ _ _ hheld rfl

/-- The loop of `modules_unregister_cmd` unlocks on each way out. -/
theorem run_modulesUnregisterCmdLoop (cmdname : List UInt8) :
    ∀ (put : CommandTree H → CommandTree H) (ptr : CommandTree H) {c : Caller H},
      c.held .cmds = true → c.loader.cmds = put ptr →
      (modulesUnregisterCmdLoop put ptr cmdname).run c =
        .ok (MinervaBot.modulesUnregisterCmdLoop ptr cmdname).1
          ((c.withCmds (put (MinervaBot.modulesUnregisterCmdLoop ptr cmdname).2)).unlocked .cmds) := by
  induction cmdname with
  | nil =>
    intro put ptr c hheld hcmds
    cases ptr with
    | null => rw [modulesUnregisterCmdLoop, run_unlock_return hheld, ← withCmds_self hcmds]; rfl
    | node value children =>
      have hheld' : (c.withCmds (put (.node none children))).held .cmds = true := hheld
      simp only [modulesUnregisterCmdLoop, EStateM.run_bind, run_setCmds, run_unlock hheld']
      rfl
  | cons real cmdname ih =>
    intro put ptr c hheld hcmds
    cases ptr with
    | null => rw [modulesUnregisterCmdLoop, run_unlock_return hheld, ← withCmds_self hcmds]; rfl
    | node value children =>
      rw [modulesUnregisterCmdLoop, MinervaBot.modulesUnregisterCmdLoop]
      cases hchild : childIndex real with
      | none => rw [run_unlock_return hheld, withCmds_self hcmds]
      | some i =>
        have hself : c.loader.cmds = put (.node value (Function.update children i (children i))) := by
          rwa [Function.update_eq_self]
        exact ih _ _ hheld hself

/-- At the end of a word the mutex is released with and without a handler. -/
theorem run_checkCmdEnd (h : c.held .cmds = true) (value : Option H) (cmdname args : CString) :
    (checkCmdEnd value cmdname args).run c =
      .ok (value.map fun handler => (handler, cmdname, args)) (c.unlocked .cmds) := by
  cases value <;> exact run_unlock_return h _

/-- The loop of `modules_check_cmd` unlocks on each way out. -/
theorem run_modulesCheckCmdLoop (messageOrig : CString) (message : List UInt8) :
    ∀ (ptr : CommandTree H) (n : Nat) {c : Caller H}, c.held .cmds = true →
      (modulesCheckCmdLoop messageOrig ptr n message).run c =
        .ok (MinervaBot.modulesCheckCmdLoop messageOrig ptr n message) (c.unlocked .cmds) := by
  induction message with
  | nil =>
    intro ptr n c hheld
    cases ptr with
    | null => exact run_unlock_return hheld _
    | node value children => exact run_checkCmdEnd hheld _ _ _
  | cons real message ih =>
    intro ptr n c hheld
    cases ptr with
    | null => exact run_unlock_return hheld _
    | node value children =>
      rw [modulesCheckCmdLoop, MinervaBot.modulesCheckCmdLoop]
      split
      · exact run_checkCmdEnd hheld _ _ _
      · cases hchild : childIndex real with
        | none => exact run_unlock_return hheld _
        | some i => exact ih _ _ hheld

/-- `modules_register_cmd` makes of the tree what it makes of it as one step, and leaves the mutexes
as they were. -/
theorem run_modulesRegisterCmd (h : c.held .cmds = false) (calloc : Nat → Bool) (cmdname : CString)
    (handler : Option H) : (modulesRegisterCmd calloc cmdname handler).run c =
      .ok (MinervaBot.modulesRegisterCmd calloc c.loader.cmds cmdname handler).1
        (c.withCmds (MinervaBot.modulesRegisterCmd calloc c.loader.cmds cmdname handler).2) := by
  have hloop := run_modulesRegisterCmdLoop handler cmdname.bytes calloc id c.loader.cmds
    (c.locked_held .cmds) rfl
  simp only [modulesRegisterCmd, EStateM.run_bind, run_lock h, EStateM.run_get]
  rw [show (c.locked .cmds).loader.cmds = c.loader.cmds from rfl, hloop]
  exact congrArg (EStateM.Result.ok _) (unlocked_locked (c := c.withCmds _) h)

/-- `modules_unregister_cmd` makes of the tree what it makes of it as one step, and leaves the
mutexes as they were. -/
theorem run_modulesUnregisterCmd (h : c.held .cmds = false) (cmdname : CString) :
    (modulesUnregisterCmd cmdname).run c =
      .ok (MinervaBot.modulesUnregisterCmd c.loader.cmds cmdname).1
        (c.withCmds (MinervaBot.modulesUnregisterCmd c.loader.cmds cmdname).2) := by
  have hloop := run_modulesUnregisterCmdLoop cmdname.bytes id c.loader.cmds (c.locked_held .cmds) rfl
  simp only [modulesUnregisterCmd, EStateM.run_bind, run_lock h, EStateM.run_get]
  rw [show (c.locked .cmds).loader.cmds = c.loader.cmds from rfl, hloop]
  exact congrArg (EStateM.Result.ok _) (unlocked_locked (c := c.withCmds _) h)

/-- `modules_check_cmd` queues what it queues as one step, and leaves the mutexes as they were. -/
theorem run_modulesCheckCmd (h : c.held .cmds = false) (cmdPrefix sender target message : CString) :
    (modulesCheckCmd cmdPrefix sender target message).run c =
      .ok (MinervaBot.modulesCheckCmd cmdPrefix c.loader.cmds sender target message) c := by
  have hloop := run_modulesCheckCmdLoop (message.drop 1) (message.drop 1).bytes c.loader.cmds 0
    (c.locked_held .cmds)
  simp only [modulesCheckCmd, MinervaBot.modulesCheckCmd]
  split
  · rfl
  · split
    · rfl
    · simp only [EStateM.run_bind, run_lock h, EStateM.run_get]
      rw [show (c.locked .cmds).loader.cmds = c.loader.cmds from rfl, hloop, unlocked_locked h]
      rfl

/-- The nodes that a clean of the node at `path` frees, in order. -/
def freedBelow (path : Word) (root : CommandTree H) : List Word :=
  (root.descendants (List.finRange 26)).map (path ++ ·)

/-- The nodes that a pass of its loop frees. -/
def freedChild (path : Word) (i : Fin 26) (child : CommandTree H) : List Word :=
  match child with
  | .null => []
  | .node _ _ => freedBelow (path ++ [i]) child ++ [path ++ [i]]

/-- The nodes below a node, child by child. -/
theorem freedBelow_node (path : Word) (value : Option H) (children : Fin 26 → CommandTree H) :
    freedBelow path (.node value children) =
      (List.finRange 26).flatMap fun i => freedChild path i (children i) := by
  rw [freedBelow, Trie.descendants, List.map_flatMap]
  congr 1
  funext i
  cases hchild : children i with
  | null => simp [freedChild]
  | node v cs => simp [freedChild, freedBelow, Function.comp_def]

/-- The thread after it freed nodes. -/
def withFreed (c : Caller H) (freed : List Word) : Caller H :=
  { c with freedNodes := c.freedNodes ++ freed }

/-- Nothing freed. -/
theorem withFreed_nil (c : Caller H) : c.withFreed [] = c := by
  simp [withFreed]

/-- Nodes freed one after another. -/
theorem withFreed_withFreed (c : Caller H) (freed freed' : List Word) :
    (c.withFreed freed).withFreed freed' = c.withFreed (freed ++ freed') := by
  simp [withFreed]

/-- A pass for a child that is not `NULL`. -/
theorem run_cleanChild {clean : CallM H (CommandTree H)} {path : Word} {i : Fin 26}
    {child t : CommandTree H} (hchild : child ≠ .null)
    (hclean : clean.run c = .ok t (c.withFreed (freedBelow (path ++ [i]) child)))
    (cleaned : Fin 26 → CommandTree H) :
    (cleanChild clean path i child cleaned).run c =
      .ok (Function.update cleaned i .null) (c.withFreed (freedChild path i child)) := by
  cases child with
  | null => exact absurd rfl hchild
  | node v cs =>
    simp only [cleanChild, EStateM.run_bind, hclean, run_freeNode, EStateM.run_pure]
    exact congrArg _ (withFreed_withFreed c _ _)

/-- The loop of `modules_cmds_clean` frees what its passes free, and clears the children it passes.
Induction on the children to go. -/
theorem run_cleanChildren {path : Word} {children : Fin 26 → CommandTree H}
    {clean : Fin 26 → CallM H (CommandTree H)}
    (hclean : ∀ i (c : Caller H), children i ≠ .null →
      ∃ t, (clean i).run c = .ok t (c.withFreed (freedBelow (path ++ [i]) (children i))))
    (is : List (Fin 26)) : ∀ (cleaned : Fin 26 → CommandTree H) (c : Caller H),
      ∃ cleaned', (is.foldlM (fun cleaned i => cleanChild (clean i) path i (children i) cleaned)
          cleaned).run c =
        .ok cleaned' (c.withFreed (is.flatMap fun i => freedChild path i (children i))) ∧
        ∀ i, cleaned' i ≠ .null → cleaned' i = cleaned i ∧ (i ∈ is → children i = .null) := by
  induction is with
  | nil =>
    intro cleaned c
    exact ⟨cleaned, by simp [withFreed_nil], fun i hi => ⟨rfl, by simp⟩⟩
  | cons i is ih =>
    intro cleaned c
    simp only [List.foldlM_cons, EStateM.run_bind, List.flatMap_cons, ← withFreed_withFreed]
    by_cases hchild : children i = .null
    · obtain ⟨cleaned', hrun, hcleaned⟩ := ih cleaned c
      refine ⟨cleaned', ?_, fun j hj => ⟨(hcleaned j hj).1, fun hmem => ?_⟩⟩
      · rw [hchild, freedChild, withFreed_nil]
        exact hrun
      · rcases List.mem_cons.1 hmem with rfl | hmem
        · exact hchild
        · exact (hcleaned j hj).2 hmem
    · obtain ⟨t, ht⟩ := hclean i c hchild
      obtain ⟨cleaned', hrun, hcleaned⟩ := ih (Function.update cleaned i .null)
        (c.withFreed (freedChild path i (children i)))
      refine ⟨cleaned', ?_, fun j hj => ?_⟩
      · rw [run_cleanChild hchild ht]
        exact hrun
      · obtain ⟨heq, hrest⟩ := hcleaned j hj
        have hji : j ≠ i := by
          rintro rfl
          rw [heq, Function.update_self] at hj
          exact hj rfl
        rw [Function.update_of_ne hji] at heq
        exact ⟨heq, fun hmem => hrest ((List.mem_cons.1 hmem).resolve_left hji)⟩

/-- The loop of `modules_cmds_clean` over all children leaves none. -/
theorem run_cleanChildren_all (path : Word) {children : Fin 26 → CommandTree H}
    {clean : Fin 26 → CallM H (CommandTree H)}
    (hclean : ∀ i (c : Caller H), children i ≠ .null →
      ∃ t, (clean i).run c = .ok t (c.withFreed (freedBelow (path ++ [i]) (children i))))
    (c : Caller H) (value : Option H) :
    ((List.finRange 26).foldlM (fun cleaned i => cleanChild (clean i) path i (children i) cleaned)
      children).run c = .ok (fun _ => .null) (c.withFreed (freedBelow path (.node value children))) := by
  obtain ⟨cleaned, hrun, hcleaned⟩ := run_cleanChildren hclean (List.finRange 26) children c
  have hnull : cleaned = fun _ => .null := by
    funext i
    by_contra hne
    obtain ⟨heq, hnull⟩ := hcleaned i hne
    exact hne (heq.trans (hnull (List.mem_finRange i)))
  rw [hrun, hnull, freedBelow_node]

/-- `modules_cmds_clean` below the root frees the nodes below its node and clears all children.
Induction on the tree. -/
theorem run_modulesCmdsClean_below (root : CommandTree H) :
    ∀ (depth : Nat) (path : Word) (c : Caller H), root ≠ .null →
      ∃ t, (modulesCmdsClean (depth + 1) path root).run c =
        .ok t (c.withFreed (freedBelow path root)) := by
  induction root with
  | null => exact fun _ _ _ h => absurd rfl h
  | node value children ih =>
    intro depth path c _
    have hloop := run_cleanChildren_all path
      (fun i c hi => ih i (depth + 1) (path ++ [i]) c hi) c value
    refine ⟨.node value fun _ => .null, ?_⟩
    rw [modulesCmdsClean]
    simp only [Nat.succ_ne_zero, if_false, EStateM.run_bind, EStateM.run_pure, hloop]

/-- `modules_cmds_clean(&cmds, 0)` frees the nodes below the root and cuts them off; the root keeps
its handler, and the mutexes are as they were. -/
theorem run_modulesCmdsClean (h : c.held .cmds = false) (hroot : c.loader.cmds ≠ .null) :
    (modulesCmdsClean 0 [] c.loader.cmds).run c =
      .ok c.loader.cmds.cut
        ((c.withCmds c.loader.cmds.cut).withFreed (freedBelow [] c.loader.cmds)) := by
  obtain ⟨value, children, hcmds⟩ : ∃ value children, c.loader.cmds = .node value children := by
    cases hcmds : c.loader.cmds with
    | null => exact absurd hcmds hroot
    | node value children => exact ⟨value, children, rfl⟩
  have hloop := run_cleanChildren_all []
    (fun i c hi => run_modulesCmdsClean_below (children i) 0 ([] ++ [i]) c hi)
    (c.locked .cmds) value
  rw [hcmds, modulesCmdsClean]
  have hheld : (((c.locked .cmds).withFreed (freedBelow [] (.node value children))).withCmds
      (.node value fun _ => .null)).held .cmds = true := locked_held c .cmds
  simp only [if_true, EStateM.run_bind, run_lock h, hloop, run_setCmds, run_unlock hheld,
    EStateM.run_pure]
  exact congrArg (EStateM.Result.ok _) (unlocked_locked
    (c := (c.withCmds (.node value fun _ => .null)).withFreed
      (freedBelow [] (.node value children))) h)

/-! ## Loading and unloading -/

/-- The thread after it wrote a path to `local_file`. -/
def copied (c : Caller H) (modDir modFile : CString) : Caller H :=
  { c with
    localFile := c.localFile ++ List.range' 0 modDir.length ++
      List.range' modDir.length (modFile.length + 1) }

/-- A copy within `local_file`. -/
theorem run_copyLocalFile {start n : Nat} (h : ¬ start + n > pathMax) :
    (copyLocalFile start n).run c =
      .ok () { c with localFile := c.localFile ++ List.range' start n } := by
  simp only [copyLocalFile, EStateM.run_bind, EStateM.run_modify, if_neg h, EStateM.run_pure]

/-- A copy that goes beyond `local_file`. -/
theorem run_copyLocalFile_long {start n : Nat} (h : start + n > pathMax) :
    (copyLocalFile start n).run c =
      .error .undefined { c with localFile := c.localFile ++ List.range' start n } := by
  simp only [copyLocalFile, EStateM.run_bind, EStateM.run_modify, if_pos h]
  rfl

/-- A path that does not fit is written behind `local_file`. -/
theorem run_modulesLoadmod_long {modDir modFile : CString} (steps : LoadSteps H)
    (h : modFile.length + modDir.length + 1 > pathMax) :
    ∃ c', (modulesLoadmod modDir steps modFile).run c = .error .undefined c' ∧
      ∃ i ∈ c'.localFile, pathMax ≤ i := by
  by_cases hdir : 0 + modDir.length > pathMax
  · refine ⟨_, by rw [modulesLoadmod, EStateM.run_bind, run_copyLocalFile_long hdir],
      modDir.length - 1, ?_, by omega⟩
    exact List.mem_append_right _ (List.mem_range'_1.2 ⟨by omega, by omega⟩)
  · have hfile : modDir.length + (modFile.length + 1) > pathMax := by omega
    have hrun : (modulesLoadmod modDir steps modFile).run c =
        .error .undefined (c.copied modDir modFile) := by
      rw [modulesLoadmod, EStateM.run_bind, run_copyLocalFile hdir]
      simp only [EStateM.run_bind, run_copyLocalFile_long hfile]
      rfl
    refine ⟨_, hrun, modDir.length + modFile.length, ?_, by omega⟩
    exact List.mem_append_right _ (List.mem_range'_1.2 ⟨by omega, by omega⟩)

/-- The way out of `modules_loadmod` without a context, with the mutex free before. -/
theorem run_dlclose_unlock (h : c.held .array = false) :
    (do dlclose; unlock .array : CallM H Unit).run (c.locked .array) =
      .ok () { c with opened := c.opened - 1 } := by
  have hheld : ({ c with opened := c.opened - 1 }.locked .array).held .array = true :=
    locked_held _ .array
  rw [EStateM.run_bind, run_dlclose]
  exact (run_unlock hheld).trans
    (congrArg _ (unlocked_locked (c := { c with opened := c.opened - 1 }) h))

/-- `modules_loadmod` from the lock on, with the mutex free before. -/
theorem run_addContext (h : c.held .array = false) (steps : LoadSteps H) (lib : Library H)
    (modFile : CString) :
    (addContext steps lib modFile).run c =
      match c.loader.grow steps.realloc with
      | none => .ok () { c with opened := c.opened - 1 }
      | some s =>
        match s.loaded.findIdx? (·.isNone) with
        | none => .error .exit ((c.locked .array).withLoader s)
        | some i =>
          if steps.calloc then .ok () (c.withLoader (s.addModule steps.queued lib modFile i))
          else .ok () { c.withLoader s with opened := c.opened - 1 } := by
  simp only [addContext, EStateM.run_bind, run_lock h, EStateM.run_get]
  rw [show (c.locked .array).loader = c.loader from rfl]
  cases c.loader.grow steps.realloc with
  | none => exact run_dlclose_unlock h
  | some s =>
    simp only [EStateM.run_bind, run_modifyLoader]
    cases s.loaded.findIdx? (·.isNone) with
    | none => rfl
    | some i =>
      simp only
      split
      · have hheld : ((c.withLoader (s.addModule steps.queued lib modFile i)).locked .array).held
            .array = true := locked_held _ .array
        rw [EStateM.run_bind, run_modifyLoader]
        exact (run_unlock hheld).trans (congrArg _ (unlocked_locked (c := c.withLoader _) h))
      · exact run_dlclose_unlock (c := c.withLoader s) h

/-- `modules_loadmod` with a path that fits. -/
theorem run_modulesLoadmod {modDir modFile : CString} (steps : LoadSteps H)
    (h : ¬ modFile.length + modDir.length + 1 > pathMax) :
    (modulesLoadmod modDir steps modFile).run c =
      match steps.sys.dlopen with
      | none => .ok () (c.copied modDir modFile)
      | some lib =>
        (addContext steps lib modFile).run
          { c.copied modDir modFile with opened := c.opened + 1 } := by
  have hdir : ¬ 0 + modDir.length > pathMax := by omega
  have hfile : ¬ modDir.length + (modFile.length + 1) > pathMax := by omega
  have hcopied : (copyLocalFile modDir.length (modFile.length + 1)).run
      { c with localFile := c.localFile ++ List.range' 0 modDir.length } =
        .ok () (c.copied modDir modFile) := run_copyLocalFile hfile
  rw [modulesLoadmod, EStateM.run_bind, run_copyLocalFile hdir]
  simp only [EStateM.run_bind, hcopied, LoadSteps.sys]
  cases steps.dlopen with
  | false => rfl
  | true =>
    simp only [if_true, EStateM.run_bind, run_dlopen]
    cases steps.moduleInit with
    | none =>
      have hopened : c.opened + 1 - 1 = c.opened := by omega
      exact congrArg (fun n => EStateM.Result.ok () { c.copied modDir modFile with opened := n })
        hopened
    | some lib => rfl

/-- The call makes of the shared variables what it makes of them without locks, if there is a
result, and leaves the mutexes as they were. -/
def Loads (c : Caller H) (x : CallM H Unit) (result : Option (Loader H)) : Prop :=
  ∃ c', x.run c = .ok () c' ∧ c'.held = c.held ∧ result = some c'.loader

/-- `modules_loadmod` from the lock on exits if no entry is free. -/
theorem addContext_cases (h : c.held .array = false) {modDir modFile : CString} {steps : LoadSteps H}
    {lib : Library H} (hfit : ¬ modFile.length + modDir.length + 1 > pathMax)
    (hlib : steps.sys.dlopen = some lib) :
    c.Loads (addContext steps lib modFile)
        (MinervaBot.modulesLoadmod modDir steps.sys c.loader modFile) ∨
      MinervaBot.modulesLoadmod modDir steps.sys c.loader modFile = none ∧
        ∃ c', (addContext steps lib modFile).run c = .error .exit c' := by
  simp only [Loads, run_addContext h, MinervaBot.modulesLoadmod, if_neg hfit, hlib]
  rw [show steps.sys.realloc = steps.realloc from rfl, show steps.sys.calloc = steps.calloc from rfl,
    show steps.sys.queued = steps.queued from rfl]
  cases c.loader.grow steps.realloc with
  | none => exact .inl ⟨_, rfl, rfl, rfl⟩
  | some s =>
    simp only
    cases s.loaded.findIdx? (·.isNone) with
    | none => exact .inr ⟨rfl, _, rfl⟩
    | some i => cases steps.calloc <;> exact .inl ⟨_, rfl, rfl, rfl⟩

/-- `modules_loadmod` does what it does without locks; where there is no result, it writes behind
`local_file`, or it exits because no entry is free. -/
theorem modulesLoadmod_cases (h : c.held .array = false) (modDir : CString) (steps : LoadSteps H)
    (modFile : CString) :
    c.Loads (modulesLoadmod modDir steps modFile)
        (MinervaBot.modulesLoadmod modDir steps.sys c.loader modFile) ∨
      MinervaBot.modulesLoadmod modDir steps.sys c.loader modFile = none ∧
        ∃ c', (modulesLoadmod modDir steps modFile).run c = .error
          (if modFile.length + modDir.length + 1 > pathMax then .undefined else .exit) c' := by
  by_cases hlong : modFile.length + modDir.length + 1 > pathMax
  · obtain ⟨c', hrun, -⟩ := run_modulesLoadmod_long steps hlong
    exact .inr ⟨by rw [MinervaBot.modulesLoadmod, if_pos hlong], c', by rw [if_pos hlong, hrun]⟩
  · rw [Loads, run_modulesLoadmod steps hlong, if_neg hlong]
    cases hlib : steps.sys.dlopen with
    | none =>
      exact .inl ⟨_, rfl, rfl, by rw [MinervaBot.modulesLoadmod, if_neg hlong, hlib]; rfl⟩
    | some lib =>
      exact addContext_cases (c := { c.copied modDir modFile with opened := c.opened + 1 }) h hlong
        hlib

/-- A pass of the loop of `modules_unloadall` takes no mutex. -/
theorem run_modulesUnloadallEntry (queued : Nat → Bool) (i : Nat) (c : Caller H) :
    ∃ c', (modulesUnloadallEntry queued i).run c = .ok () c' ∧ c'.held = c.held ∧
      c'.loader = c.loader.unloadEntry queued i := by
  simp only [modulesUnloadallEntry, Loader.unloadEntry, EStateM.run_bind, EStateM.run_get]
  cases c.loader.loaded[i]?.join with
  | none => exact ⟨c, rfl, rfl, rfl⟩
  | some ctx =>
    simp only [modulesUnloadmod, EStateM.run_bind, EStateM.run_get]
    split
    · exact ⟨_, rfl, rfl, rfl⟩
    · exact ⟨_, rfl, rfl, rfl⟩

/-- The loop of `modules_unloadall` takes no mutex. -/
theorem run_modulesUnloadallLoop (queued : Nat → Bool) : ∀ (is : List Nat) (c : Caller H),
    ∃ c', (is.forM (modulesUnloadallEntry queued)).run c = .ok () c' ∧ c'.held = c.held ∧
      c'.loader = is.foldl (Loader.unloadEntry queued) c.loader
  | [], c => ⟨c, rfl, rfl, rfl⟩
  | i :: is, c => by
    obtain ⟨c₁, hrun, hheld, hloader⟩ := run_modulesUnloadallEntry queued i c
    obtain ⟨c', hrest, hheld', hloader'⟩ := run_modulesUnloadallLoop queued is c₁
    refine ⟨c', ?_, hheld'.trans hheld, ?_⟩
    · show (modulesUnloadallEntry queued i >>= fun _ => is.forM _).run c = _
      rw [EStateM.run_bind, hrun]
      exact hrest
    · rw [hloader', hloader, List.foldl_cons]

/-- Unloading leaves the command tree. -/
theorem cmds_unloadEntries (queued : Nat → Bool) : ∀ (is : List Nat) (s : Loader H),
    (is.foldl (Loader.unloadEntry queued) s).cmds = s.cmds
  | [], _ => rfl
  | i :: is, s => by
    have hentry : (s.unloadEntry queued i).cmds = s.cmds := by
      unfold Loader.unloadEntry Loader.unload
      grind
    rw [List.foldl_cons, cmds_unloadEntries queued is, hentry]

/-- `modules_unloadall` leaves the mutexes as they were. -/
theorem run_modulesUnloadall (harray : c.held .array = false) (hcmds : c.held .cmds = false)
    (hroot : c.loader.cmds ≠ .null) (queued : Nat → Bool) :
    ∃ c', (modulesUnloadall queued).run c = .ok () c' ∧ c'.held = c.held ∧
      c'.loader = c.loader.unloadAll queued := by
  obtain ⟨c₁, hloop, hheld, hloader⟩ := run_modulesUnloadallLoop queued
    (List.range c.loader.loaded.length) (c.locked .array)
  have hcmds₁ : c₁.loader.cmds = c.loader.cmds := by
    rw [hloader]
    exact cmds_unloadEntries queued _ _
  have hclean := run_modulesCmdsClean (c := c₁) (by simp [hheld, locked, hcmds])
    (by rwa [hcmds₁])
  have harray₂ : ((c₁.withCmds c₁.loader.cmds.cut).withFreed (freedBelow [] c₁.loader.cmds)).held
      .array = true := by
    show c₁.held .array = true
    rw [hheld]
    exact locked_held c .array
  refine ⟨((c₁.withCmds c₁.loader.cmds.cut).withFreed (freedBelow [] c₁.loader.cmds)).unlocked .array,
    ?_, ?_, ?_⟩
  · simp only [modulesUnloadall, EStateM.run_bind, run_lock harray, EStateM.run_get,
      show (c.locked .array).loader = c.loader from rfl, hloop, hclean]
    exact run_unlock harray₂
  · show Function.update c₁.held .array false = c.held
    rw [hheld]
    exact congrArg held (unlocked_locked harray)
  · show { c₁.loader with cmds := c₁.loader.cmds.cut } = _
    rw [hloader]
    rfl

end

end Caller

end MinervaBot
