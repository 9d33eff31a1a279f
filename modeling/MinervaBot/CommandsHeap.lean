import MinervaBot.CommandTable
import MinervaBot.Lib.HeapTrie
import MinervaBot.Reload

/-!
# The command tree on the heap

The walks of `modules.c` over the nodes as blocks: `cmds` is a block from before the first call, a
registration allocates the nodes that are missing on its way, and `modules_cmds_clean` frees them. A
walk follows the pointers in the nodes, so that one into a freed node would be undefined. `TrieIn`
relates the nodes to the trees of `Commands.lean`, with one rule per function.
`heapCommands_refines` says what calls in any order return, by the table of `CommandTable.lean`, and
that the clean behind them frees what they have allocated.
-/

namespace MinervaBot

open Lib
open Function (update)

variable {H : Type}

/-- `struct command_tree` in memory. -/
abbrev CommandNode (H : Type) := TrieNode (Fin 26) H

namespace InHeap

/-- The child that the walk of `modules_register_cmd` goes on to, allocated if there is none. -/
def growChild (calloc : Bool) (ptr : Nat) (real : Fin 26) : Exec (Heap (CommandNode H)) Ptr := do
  let node ← Heap.load some (some ptr)
  match node.children real with
  | some child => pure (some child)
  | none =>
    let child ← Heap.malloc calloc {}
    Heap.store (some ptr) { node with children := update node.children real child }
    pure child

/-- The loop of `modules_register_cmd`. -/
def modulesRegisterCmdLoop (handler : Option H) :
    (calloc : Nat → Bool) → (ptr : Ptr) → (cmdname : List UInt8) → Exec (Heap (CommandNode H)) Int
  | _, none, _ => pure (-2)
  | _, some ptr, [] => do
    let node ← Heap.load some (some ptr)
    Heap.store (some ptr) { node with value := handler }
    pure 0
  | calloc, some ptr, real :: cmdname =>
    match childIndex real with
    | none => pure (-1)
    | some i => do
      let child ← growChild (calloc 0) ptr i
      modulesRegisterCmdLoop handler (fun n => calloc (n + 1)) child cmdname

/-- The loop of `modules_unregister_cmd`. -/
def modulesUnregisterCmdLoop :
    (ptr : Ptr) → (cmdname : List UInt8) → Exec (Heap (CommandNode H)) Int
  | none, _ => pure (-3)
  | some ptr, [] => do
    let node ← Heap.load some (some ptr)
    Heap.store (some ptr) { node with value := none }
    pure 0
  | some ptr, real :: cmdname =>
    match childIndex real with
    | none => pure (-1)
    | some i => do
      let node ← Heap.load some (some ptr)
      modulesUnregisterCmdLoop (node.children i) cmdname

/-- The loop of `modules_check_cmd`. -/
def modulesCheckCmdLoop (messageOrig : CString) : (ptr : Ptr) → (n : Nat) → (message : List UInt8) →
    Exec (Heap (CommandNode H)) (Option (H × CString × CString))
  | none, _, _ => pure none
  | some ptr, n, [] => do
    let node ← Heap.load some (some ptr)
    pure (node.value.map fun handler => (handler, messageOrig.take n, messageOrig.drop n))
  | some ptr, n, real :: message =>
    if real = 32 then do
      let node ← Heap.load some (some ptr)
      pure (node.value.map fun handler => (handler, messageOrig.take n, messageOrig.drop (n + 1)))
    else
      match childIndex real with
      | none => pure none
      | some i => do
        let node ← Heap.load some (some ptr)
        modulesCheckCmdLoop messageOrig (node.children i) (n + 1) message

/-- `modules_check_cmd`. -/
def modulesCheckCmd (cmdPrefix : CString) (cmds : Nat) (sender target message : CString) :
    Exec (Heap (CommandNode H)) (Option (QueueCmd H)) :=
  if cmdPrefix.length + 1 > message.length then pure none
  else if cmdPrefix.bytes ≠ message.bytes.take cmdPrefix.length then pure none
  else do
    let found ← modulesCheckCmdLoop (message.drop 1) (some cmds) 0 (message.drop 1).bytes
    pure (found.map fun r => ⟨r.1, r.2.1, sender, target, r.2.2⟩)

/-- A pass of the loop of `modules_cmds_clean`, whose calls of itself are those of `clean`. -/
def cleanChild (clean : Ptr → Exec (Heap (CommandNode H)) Unit) (root : Ptr) (i : Fin 26) :
    Exec (Heap (CommandNode H)) Unit := do
  let node ← Heap.load some root
  if (node.children i).isSome then
    clean (node.children i)
    let node ← Heap.load some root
    Heap.free (node.children i)
    Heap.store root { node with children := update node.children i none }

/-- The loop of `modules_cmds_clean`. -/
def cleanChildren (clean : Ptr → Exec (Heap (CommandNode H)) Unit) (root : Ptr) :
    List (Fin 26) → Exec (Heap (CommandNode H)) Unit
  | [] => pure ()
  | i :: is => do
    cleanChild clean root i
    cleanChildren clean root is

/-- `modules_cmds_clean`, undefined if it calls itself to a depth beyond `fuel`. -/
def modulesCmdsClean : (fuel : Nat) → (root : Ptr) → Exec (Heap (CommandNode H)) Unit
  | 0, _ => Exec.ofOption none
  | fuel + 1, root => cleanChildren (modulesCmdsClean fuel) root (List.finRange 26)

end InHeap

section
variable {cmds : CommandTree H} {value : Option H} {children : Fin 26 → CommandTree H} {p : Nat}
  {frame : Blocks (CommandNode H)} {h : Heap (CommandNode H)}

/-! ## Walks -/

/-- The walk of a registration allocates a child where there is none. -/
theorem growChild_yields (ht : TrieIn (.node value children) (some p) frame h) (calloc : Bool)
    (i : Fin 26) : (InHeap.growChild calloc p i).Yields h fun child h' => ∃ frame',
      TrieIn ((children i).grow calloc) child frame' h' ∧ ∀ t h'', TrieIn t child frame' h'' →
        TrieIn (.node value (update children i t)) (some p) frame h'' := by
  obtain ⟨cs, rest, hchild, hole⟩ := ht.split i
  refine hchild.load_yields.bind ?_
  rintro _ _ ⟨rfl, rfl⟩
  dsimp only
  cases hcs : cs i with
  | some c =>
    rw [hcs] at hchild
    obtain ⟨value', children', hnode⟩ := hchild.exists_node
    rw [hnode] at hchild ⊢
    exact .pure ⟨_, hchild, fun t h'' ht'' => .join_self hole (by rwa [hcs])⟩
  | none =>
    rw [hcs] at hchild
    have hnull := hchild.eq_null
    rw [hnull] at hchild ⊢
    cases calloc with
    | false =>
      refine (Heap.malloc_false_yields _).bind ?_
      rintro _ _ ⟨rfl, rfl⟩
      exact (hchild.store_yields _).bind fun _ h' hchild' =>
        .pure ⟨_, hchild', fun t h'' => .join hole⟩
    | true =>
      refine hchild.malloc_yields.bind fun c h₁ hempty => ?_
      exact (hempty.store_yields _).bind fun _ h' hchild' =>
        .pure ⟨_, hchild', fun t h'' => .join hole⟩

/-- `modules_register_cmd` on the heap. Induction on the name. -/
theorem register_yields (handler : Option H) (cmdname : List UInt8) :
    ∀ (calloc : Nat → Bool) {cmds : CommandTree H} {q : Ptr} {frame : Blocks (CommandNode H)}
      {h : Heap (CommandNode H)}, TrieIn cmds q frame h →
      (InHeap.modulesRegisterCmdLoop handler calloc q cmdname).Yields h fun ret h' =>
        (modulesRegisterCmdLoop handler calloc cmds cmdname).1 = ret ∧
          TrieIn (modulesRegisterCmdLoop handler calloc cmds cmdname).2 q frame h' := by
  induction cmdname with
  | nil =>
    intro calloc cmds q frame h ht
    cases q with
    | none =>
      obtain rfl := ht.eq_null
      exact .pure ⟨rfl, ht⟩
    | some p =>
      obtain ⟨value, children, rfl⟩ := ht.exists_node
      obtain ⟨cs, hload, hstore⟩ := ht.root
      refine hload.bind ?_
      rintro _ _ ⟨rfl, rfl⟩
      exact (hstore handler).bind fun _ _ ht' => .pure ⟨rfl, ht'⟩
  | cons real cmdname ih =>
    intro calloc cmds q frame h ht
    cases q with
    | none =>
      obtain rfl := ht.eq_null
      exact .pure ⟨rfl, ht⟩
    | some p =>
      obtain ⟨value, children, rfl⟩ := ht.exists_node
      rw [InHeap.modulesRegisterCmdLoop, modulesRegisterCmdLoop]
      cases childIndex real with
      | none => exact .pure ⟨rfl, ht⟩
      | some i =>
        refine (growChild_yields ht (calloc 0) i).bind fun child h₁ hgrow => ?_
        obtain ⟨frame', hchild, hback⟩ := hgrow
        exact (ih _ hchild).mono fun ret h' hret => ⟨hret.1, hback _ _ hret.2⟩

/-- `modules_unregister_cmd` on the heap. -/
theorem unregister_yields (cmdname : List UInt8) :
    ∀ {cmds : CommandTree H} {q : Ptr} {frame : Blocks (CommandNode H)}
      {h : Heap (CommandNode H)}, TrieIn cmds q frame h →
      (InHeap.modulesUnregisterCmdLoop q cmdname).Yields h fun ret h' =>
        (modulesUnregisterCmdLoop cmds cmdname).1 = ret ∧
          TrieIn (modulesUnregisterCmdLoop cmds cmdname).2 q frame h' := by
  induction cmdname with
  | nil =>
    intro cmds q frame h ht
    cases q with
    | none =>
      obtain rfl := ht.eq_null
      exact .pure ⟨rfl, ht⟩
    | some p =>
      obtain ⟨value, children, rfl⟩ := ht.exists_node
      obtain ⟨cs, hload, hstore⟩ := ht.root
      refine hload.bind ?_
      rintro _ _ ⟨rfl, rfl⟩
      exact (hstore none).bind fun _ _ ht' => .pure ⟨rfl, ht'⟩
  | cons real cmdname ih =>
    intro cmds q frame h ht
    cases q with
    | none =>
      obtain rfl := ht.eq_null
      exact .pure ⟨rfl, ht⟩
    | some p =>
      obtain ⟨value, children, rfl⟩ := ht.exists_node
      rw [InHeap.modulesUnregisterCmdLoop, modulesUnregisterCmdLoop]
      cases childIndex real with
      | none => exact .pure ⟨rfl, ht⟩
      | some i =>
        obtain ⟨cs, rest, hchild, hole⟩ := ht.split i
        refine hchild.load_yields.bind ?_
        rintro _ _ ⟨rfl, rfl⟩
        exact (ih hchild).mono fun ret h' hret => ⟨hret.1, .join_self hole hret.2⟩

/-- The walk of `modules_check_cmd` on the heap, which changes nothing. -/
theorem checkLoop_yields (text : CString) (message : List UInt8) :
    ∀ (n : Nat) {cmds : CommandTree H} {q : Ptr} {frame : Blocks (CommandNode H)}
      {h : Heap (CommandNode H)}, TrieIn cmds q frame h →
      (InHeap.modulesCheckCmdLoop text q n message).Yields h fun found h' =>
        modulesCheckCmdLoop text cmds n message = found ∧ h = h' := by
  induction message with
  | nil =>
    intro n cmds q frame h ht
    cases q with
    | none =>
      obtain rfl := ht.eq_null
      exact .pure ⟨rfl, rfl⟩
    | some p =>
      obtain ⟨value, children, rfl⟩ := ht.exists_node
      obtain ⟨cs, hload, -⟩ := ht.root
      refine hload.bind ?_
      rintro _ _ ⟨rfl, rfl⟩
      exact .pure ⟨rfl, rfl⟩
  | cons real message ih =>
    intro n cmds q frame h ht
    cases q with
    | none =>
      obtain rfl := ht.eq_null
      exact .pure ⟨rfl, rfl⟩
    | some p =>
      obtain ⟨value, children, rfl⟩ := ht.exists_node
      rw [InHeap.modulesCheckCmdLoop, modulesCheckCmdLoop]
      split
      · obtain ⟨cs, hload, -⟩ := ht.root
        refine hload.bind ?_
        rintro _ _ ⟨rfl, rfl⟩
        exact .pure ⟨rfl, rfl⟩
      · cases childIndex real with
        | none => exact .pure ⟨rfl, rfl⟩
        | some i =>
          obtain ⟨cs, rest, hchild, -⟩ := ht.split i
          refine hchild.load_yields.bind ?_
          rintro _ _ ⟨rfl, rfl⟩
          exact ih (n + 1) hchild

/-- `modules_check_cmd` on the heap. -/
theorem check_yields (ht : TrieIn cmds (some p) frame h)
    (cmdPrefix sender target message : CString) :
    (InHeap.modulesCheckCmd cmdPrefix p sender target message).Yields h fun queued h' =>
      modulesCheckCmd cmdPrefix cmds sender target message = queued ∧ h = h' := by
  rw [InHeap.modulesCheckCmd, modulesCheckCmd]
  split
  · exact .pure ⟨rfl, rfl⟩
  · split
    · exact .pure ⟨rfl, rfl⟩
    · refine (checkLoop_yields _ _ 0 ht).bind ?_
      rintro _ _ ⟨rfl, rfl⟩
      exact .pure ⟨rfl, rfl⟩

/-! ## The clean -/

/-- What a clean of a child is for the loop over the children. -/
def Cleans (n : Nat) (clean : Ptr → Exec (Heap (CommandNode H)) Unit) : Prop :=
  ∀ {cmds : CommandTree H} {p : Nat} {frame : Blocks (CommandNode H)} {h : Heap (CommandNode H)},
    cmds.Shallow n → TrieIn cmds (some p) frame h →
      (clean (some p)).Yields h fun _ h' => TrieIn cmds.cut (some p) frame h'

/-- A pass of the loop cleans the child, frees it and cuts it off. -/
theorem cleanChild_yields {clean : Ptr → Exec (Heap (CommandNode H)) Unit} {n : Nat}
    (hclean : Cleans n clean) (hshallow : (children i).Shallow n)
    (ht : TrieIn (.node value children) (some p) frame h) :
    (InHeap.cleanChild clean (some p) i).Yields h fun _ h' =>
      TrieIn (.node value (update children i .null)) (some p) frame h' := by
  obtain ⟨cs, rest, hchild, hole⟩ := ht.split i
  refine hchild.load_yields.bind ?_
  rintro _ _ ⟨rfl, rfl⟩
  split
  · next hsome =>
    obtain ⟨c, hcs⟩ := Option.isSome_iff_exists.1 hsome
    dsimp only at hcs ⊢
    rw [hcs] at hchild ⊢
    refine (hclean hshallow hchild).bind fun _ h₁ hcut => ?_
    refine hcut.load_yields.bind ?_
    rintro _ _ ⟨rfl, rfl⟩
    dsimp only
    rw [hcs]
    refine hcut.free_yields.bind fun _ h₂ hnull => ?_
    exact (hnull.store_yields _).mono fun _ h₃ hnull' => .join hole hnull'
  · next hnone =>
    have hcs : cs i = none := Option.not_isSome_iff_eq_none.1 hnone
    rw [hcs] at hchild
    rw [← hchild.eq_null, Function.update_eq_self]
    exact .pure ht

/-- The loop over the children. Induction on the letters to go. -/
theorem cleanChildren_yields {clean : Ptr → Exec (Heap (CommandNode H)) Unit} {n : Nat}
    (hclean : Cleans n clean) (is : List (Fin 26)) :
    ∀ {children : Fin 26 → CommandTree H} {h : Heap (CommandNode H)},
      (∀ i, (children i).Shallow n) → TrieIn (.node value children) (some p) frame h →
      (InHeap.cleanChildren clean (some p) is).Yields h fun _ h' =>
        TrieIn (.node value fun i => if i ∈ is then .null else children i) (some p) frame h' := by
  induction is with
  | nil =>
    intro children h hshallow ht
    exact .pure (by simpa using ht)
  | cons i is ih =>
    intro children h hshallow ht
    refine (cleanChild_yields hclean (hshallow i) ht).bind fun _ h₁ ht₁ => ?_
    have hshallow₁ : ∀ j, (update children i .null j).Shallow n := by
      intro j
      rcases eq_or_ne j i with rfl | hj
      · rw [Function.update_self]
        exact .null n
      · rw [Function.update_of_ne hj]
        exact hshallow j
    refine (ih hshallow₁ ht₁).mono fun _ h₂ ht₂ => ?_
    convert ht₂ using 3
    next j =>
      rcases eq_or_ne j i with rfl | hj
      · simp
      · simp [hj]

/-- `modules_cmds_clean` on the heap. Induction on the depth. -/
theorem cleans_modulesCmdsClean : ∀ n, Cleans (H := H) n (InHeap.modulesCmdsClean n) := by
  intro n
  induction n with
  | zero =>
    intro cmds p frame h hshallow ht
    obtain ⟨value, children, rfl⟩ := ht.exists_node
    cases hshallow
  | succ n ih =>
    intro cmds p frame h hshallow ht
    obtain ⟨value, children, rfl⟩ := ht.exists_node
    rw [InHeap.modulesCmdsClean, Trie.cut]
    simpa using cleanChildren_yields ih (List.finRange 26) hshallow.children ht

/-! ## Depth -/

/-- A registration leads no deeper than its name is long. -/
theorem modulesRegisterCmdLoop_shallow (handler : Option H) (cmdname : List UInt8) :
    ∀ (calloc : Nat → Bool) {n : Nat} {cmds : CommandTree H}, cmds.Shallow n → cmdname.length < n →
      (modulesRegisterCmdLoop handler calloc cmds cmdname).2.Shallow n := by
  induction cmdname with
  | nil =>
    intro calloc n cmds h hlen
    cases h with
    | null => exact .null n
    | node h => exact .node h
  | cons real cmdname ih =>
    intro calloc n cmds h hlen
    cases h with
    | null => exact .null n
    | @node n value children h =>
      rw [modulesRegisterCmdLoop]
      cases childIndex real with
      | none => exact .node h
      | some i =>
        have hlen' : cmdname.length < n := Nat.lt_of_succ_lt_succ hlen
        obtain ⟨m, rfl⟩ := Nat.exists_eq_succ_of_ne_zero (Nat.ne_zero_of_lt hlen')
        exact (Trie.Shallow.node h).setChild i (ih _ ((h i).grow (calloc 0)) hlen')

/-- A removal leads nowhere. -/
theorem modulesUnregisterCmdLoop_shallow (cmdname : List UInt8) :
    ∀ {n : Nat} {cmds : CommandTree H}, cmds.Shallow n →
      (modulesUnregisterCmdLoop cmds cmdname).2.Shallow n := by
  induction cmdname with
  | nil =>
    intro n cmds h
    cases h with
    | null => exact .null n
    | node h => exact .node h
  | cons real cmdname ih =>
    intro n cmds h
    cases h with
    | null => exact .null n
    | node h =>
      rw [modulesUnregisterCmdLoop]
      cases childIndex real with
      | none => exact .node h
      | some i => exact (Trie.Shallow.node h).setChild i (ih (h i))

end

/-! ## Runs -/

/-- A call of one of the three functions that walk the tree. -/
inductive CommandCall (H : Type) where
  | op (op : CommandOp H)
  | check (sender target message : CString)

/-- What a call returns, and what it queues. -/
inductive CommandResult (H : Type) where
  | ret (ret : Int)
  | queued (cmd : Option (QueueCmd H))
  deriving DecidableEq

namespace InHeap

/-- One call. -/
def commandCall (cmdPrefix : CString) (cmds : Nat) :
    CommandCall H → Exec (Heap (CommandNode H)) (CommandResult H)
  | .op (.register calloc cmdname handler) => do
    return .ret (← modulesRegisterCmdLoop handler calloc (some cmds) cmdname.bytes)
  | .op (.unregister cmdname) => do
    return .ret (← modulesUnregisterCmdLoop (some cmds) cmdname.bytes)
  | .check sender target message => do
    return .queued (← modulesCheckCmd cmdPrefix cmds sender target message)

/-- Calls one after the other. -/
def commandCalls (cmdPrefix : CString) (cmds : Nat) :
    List (CommandCall H) → Exec (Heap (CommandNode H)) (List (CommandResult H))
  | [] => pure []
  | call :: calls => do
    let r ← commandCall cmdPrefix cmds call
    let rs ← commandCalls cmdPrefix cmds calls
    return r :: rs

/-- Calls with a clean behind them. -/
def commandsLife (cmdPrefix : CString) (fuel cmds : Nat) (calls : List (CommandCall H)) :
    Exec (Heap (CommandNode H)) (List (CommandResult H)) := do
  let rs ← commandCalls cmdPrefix cmds calls
  modulesCmdsClean fuel (some cmds)
  return rs

end InHeap

/-- What a message queues by a map: its first byte is skipped, and the prefix and one byte more have
to be there. -/
def CommandMap.check (cmdPrefix : CString) (m : CommandMap H) (sender target message : CString) :
    Option (QueueCmd H) :=
  if cmdPrefix.length < message.length ∧ cmdPrefix.bytes = message.bytes.take cmdPrefix.length then
    (m.dispatch (message.drop 1)).map fun r => ⟨r.1, r.2.1, sender, target, r.2.2⟩
  else none

/-- What a call does to the table, and its result. -/
inductive CommandTable.Call (cmdPrefix : CString) :
    CommandTable H → CommandCall H → CommandResult H → CommandTable H → Prop
  | op {T T' : CommandTable H} {op : CommandOp H} {ret : Int} (h : Step T op ret T') :
    Call cmdPrefix T (.op op) (.ret ret) T'
  | check (T : CommandTable H) (sender target message : CString) : Call cmdPrefix T
      (.check sender target message) (.queued (T.map.check cmdPrefix sender target message)) T

/-- `modules_check_cmd` goes by the map of the tree. -/
theorem modulesCheckCmd_eq (cmdPrefix : CString) (cmds : CommandTree H)
    (sender target message : CString) : modulesCheckCmd cmdPrefix cmds sender target message =
      CommandMap.check cmdPrefix cmds.find sender target message := by
  rw [modulesCheckCmd, CommandMap.check, modulesCheckCmdWalk_eq]
  split
  · next hlen => rw [if_neg fun h => by omega]
  · next hlen =>
    split
    · next hprefix => rw [if_neg fun h => hprefix h.2]
    · next hprefix => rw [if_pos ⟨by omega, not_not.1 hprefix⟩]

section
variable {cmdPrefix : CString} {cmds : CommandTree H} {p n : Nat} {frame : Blocks (CommandNode H)}
  {h : Heap (CommandNode H)} {calls : List (CommandCall H)}

/-- The rule for a call. -/
theorem call_yields (ht : TrieIn cmds (some p) frame h) (hshallow : cmds.Shallow n)
    {call : CommandCall H} (hlen : ∀ op, call = .op op → op.cmdname.length < n) :
    (InHeap.commandCall cmdPrefix p call).Yields h fun r h' => ∃ cmds',
      TrieIn cmds' (some p) frame h' ∧ cmds'.Shallow n ∧
        CommandTable.Call cmdPrefix cmds.table call r (CommandTree.table cmds') := by
  cases call with
  | op op =>
    obtain ⟨value, children, hnode⟩ := ht.exists_node
    have hroot : cmds ≠ .null := by simp [hnode]
    obtain ⟨cmds', ret, hstep, htable⟩ := commandStep_table hroot op
    cases op with
    | register calloc cmdname handler =>
      cases hstep
      refine (register_yields handler cmdname.bytes calloc ht).bind fun ret h' hret => .pure ?_
      rw [← hret.1]
      exact ⟨_, hret.2, modulesRegisterCmdLoop_shallow _ _ _ hshallow (hlen _ rfl), .op htable⟩
    | unregister cmdname =>
      cases hstep
      refine (unregister_yields cmdname.bytes ht).bind fun ret h' hret => .pure ?_
      rw [← hret.1]
      exact ⟨_, hret.2, modulesUnregisterCmdLoop_shallow _ hshallow, .op htable⟩
  | check sender target message =>
    refine (check_yields ht cmdPrefix sender target message).bind ?_
    rintro _ _ ⟨rfl, rfl⟩
    refine .pure ⟨cmds, ht, hshallow, ?_⟩
    rw [modulesCheckCmd_eq]
    exact .check _ _ _ _

/-- The rule for a run. Induction on the calls. -/
theorem calls_yields (hlen : ∀ op, .op op ∈ calls → op.cmdname.length < n) :
    ∀ {cmds : CommandTree H} {h : Heap (CommandNode H)}, TrieIn cmds (some p) frame h →
      cmds.Shallow n → (InHeap.commandCalls cmdPrefix p calls).Yields h fun rs h' => ∃ cmds',
        TrieIn cmds' (some p) frame h' ∧ cmds'.Shallow n ∧
          Steps (CommandTable.Call cmdPrefix) cmds.table calls rs (CommandTree.table cmds') := by
  induction calls with
  | nil =>
    intro cmds h ht hshallow
    exact .pure ⟨cmds, ht, hshallow, .nil⟩
  | cons call calls ih =>
    intro cmds h ht hshallow
    have hlen₁ : ∀ op, call = .op op → op.cmdname.length < n := by
      rintro op rfl
      exact hlen op (.head _)
    refine (call_yields ht hshallow hlen₁).bind ?_
    rintro r h₁ ⟨cmds₁, ht₁, hshallow₁, hcall⟩
    refine (ih (fun op hop => hlen op (.tail _ hop)) ht₁ hshallow₁).bind ?_
    rintro rs h₂ ⟨cmds₂, ht₂, hshallow₂, hsteps⟩
    exact .pure ⟨cmds₂, ht₂, hshallow₂, .cons hcall hsteps⟩

/-- Calls of `modules_register_cmd`, `modules_unregister_cmd` and `modules_check_cmd` in any order,
with any outcomes of the allocations, return and queue on the heap what the table of the commands
does, whose steps name the cause of every failure; and a clean behind them takes the heap back to
what it was, but for the handler of the empty name, which stays at the root. The clean calls itself
no deeper than the longest name is long. -/
theorem heapCommands_refines (hlen : ∀ op, .op op ∈ calls → op.cmdname.length ≤ n)
    (h : Heap (CommandNode H)) (hroot : h.block p = some {}) :
    ∃ rs T h', InHeap.commandsLife cmdPrefix (n + 1) p calls h = (.returned rs, h') ∧
      Steps (CommandTable.Call cmdPrefix) CommandTable.init calls rs T ∧
      h'.block = update h.block p (some { value := T.map [] }) := by
  obtain ⟨M, hM⟩ := h.exists_is
  obtain ⟨frame, hM⟩ := hM.exists_add hroot
  have ht : TrieIn (cmdsInit : CommandTree H) (some p) frame h := ⟨_, .leaf p none, hM⟩
  suffices hlife : (InHeap.commandsLife cmdPrefix (n + 1) p calls).Yields h fun rs h' => ∃ T,
      Steps (CommandTable.Call cmdPrefix) CommandTable.init calls rs T ∧
        h'.block = update h.block p (some { value := T.map [] }) by
    obtain ⟨rs, h', hret, T, hsteps, hblock⟩ := hlife
    exact ⟨rs, T, h', hret, hsteps, hblock⟩
  have hlen' : ∀ op, .op op ∈ calls → op.cmdname.length < n + 1 :=
    fun op hop => Nat.lt_succ_of_le (hlen op hop)
  refine (calls_yields hlen' ht (Trie.shallow_empty n)).bind ?_
  rintro rs h₁ ⟨cmds, ht₁, hshallow, hsteps⟩
  refine (cleans_modulesCmdsClean _ hshallow ht₁).bind fun _ h₂ hcut => .pure ?_
  obtain ⟨value, children, rfl⟩ := ht₁.exists_node
  obtain ⟨B, hB, hM₂⟩ := hcut
  obtain ⟨p', hp, rfl⟩ := hB.leaf_inv
  cases hp
  rw [table_cmdsInit] at hsteps
  refine ⟨_, hsteps, ?_⟩
  rw [← Heap.block_put]
  exact (hM.replace _).block_eq hM₂

end

/-- `op` is registered, called and unregistered. -/
def opCommands : List (CommandCall Nat) :=
  [.op (.register (fun _ => true) (CString.lit "op") (some 7)),
    .check (CString.lit "ann!a@b") (CString.lit "#chan") (CString.lit ",op ann"),
    .op (.unregister (CString.lit "op"))]

/-- What the calls of `opCommands` return and queue. -/
def opResults : List (CommandResult Nat) :=
  [.ret 0,
    .queued (some ⟨7, CString.lit "op", CString.lit "ann!a@b", CString.lit "#chan",
      CString.lit "ann"⟩),
    .ret 0]

/-- On a heap with the root alone, the three calls return `0`, queue the handler with its strings
and return `0`, and the clean leaves the root alone. -/
theorem heapCommands_refines_op : ∃ T h',
    InHeap.commandsLife (CString.lit ",") 3 0 opCommands (Heap.empty.put 0 (some {})) =
        (.returned opResults, h') ∧
      Steps (CommandTable.Call (CString.lit ",")) CommandTable.init opCommands opResults T ∧
      h'.block = update (Heap.empty.put 0 (some {})).block 0 (some { value := T.map [] }) := by
  have hlen : ∀ op, .op op ∈ opCommands → op.cmdname.length ≤ 2 := by
    intro op hop
    obtain rfl | rfl : op = .register (fun _ => true) (CString.lit "op") (some 7) ∨
        op = .unregister (CString.lit "op") := by
      simpa [opCommands] using hop
    · decide
    · decide
  obtain ⟨rs, T, h', hrun, hsteps, hblock⟩ : ∃ rs T h',
      InHeap.commandsLife (CString.lit ",") 3 0 opCommands (Heap.empty.put 0 (some {})) =
          (.returned rs, h') ∧
        Steps (CommandTable.Call (CString.lit ",")) CommandTable.init opCommands rs T ∧
        h'.block = update (Heap.empty.put 0 (some {})).block 0 (some { value := T.map [] }) :=
    heapCommands_refines hlen _ rfl
  have hrs : (InHeap.commandsLife (CString.lit ",") 3 0 opCommands
      (Heap.empty.put 0 (some {}))).1 = .returned opResults := by
    decide +kernel
  rw [hrun] at hrs
  cases hrs
  exact ⟨T, h', hrun, hsteps, hblock⟩

end MinervaBot
