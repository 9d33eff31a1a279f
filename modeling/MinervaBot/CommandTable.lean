import MinervaBot.Commands

/-!
# What the command tree returns

The tree as a table: the words that have a node, and the partial map from words to handlers. A call
of `modules_register_cmd` or `modules_unregister_cmd` is one step of the table, and each return
value has its cause: `0` for a name of letters that the walk gets to the end of, `-1` for a byte
that is no letter, and `-2` or `-3` for a node that is missing, after an allocation that fails and
in a removal. A registration that fails leaves the nodes it has allocated on its way.

`commandTable_refines` says so for every history, and that the table leaves the calls no choice
(`CommandTable.Step.unique`); `register_eq_zero_iff` and `unregister_eq_zero_iff` say when a call
returns `0`. What a caller sees of the table is the map: `commandTree_refines` leaves the nodes out.
-/

namespace MinervaBot

open Lib
open Function (update)

variable {H : Type}

/-- The words that have a node, and the handlers they are bound to. -/
@[ext] structure CommandTable (H : Type) where
  nodes : Set Word
  map : CommandMap H

/-- The table of a tree. -/
def CommandTree.table (cmds : CommandTree H) : CommandTable H :=
  ⟨cmds.nodes, cmds.find⟩

namespace CommandTable

/-- The walk of a registration gets to the end of a word: every node on the way is there or is
allocated. -/
def Reaches (T : CommandTable H) (calloc : Nat → Bool) (w : Word) : Prop :=
  ∀ k < w.length, w.take (k + 1) ∈ T.nodes ∨ calloc k = true

/-- The nodes on the way to a word are there. -/
def grow (T : CommandTable H) (w : Word) : CommandTable H :=
  ⟨T.nodes ∪ {u | u <+: w}, T.map⟩

/-- A word is bound to `v`. -/
def bind (T : CommandTable H) (w : Word) (v : Option H) : CommandTable H :=
  ⟨T.nodes, update T.map w v⟩

/-- A registration of `handler` at a name. -/
inductive Register (T : CommandTable H) (calloc : Nat → Bool) (handler : Option H)
    (cmdname : List UInt8) : Int → CommandTable H → Prop
  | bound {w : Word} (hname : lowercase cmdname = some w) (hreach : T.Reaches calloc w) :
      Register T calloc handler cmdname 0 ((T.grow w).bind w handler)
  | invalid {text rest : List UInt8} {c : UInt8} {w : Word} (hname : cmdname = text ++ c :: rest)
      (htext : lowercase text = some w) (hc : ¬IsLetter c) (hreach : T.Reaches calloc w) :
      Register T calloc handler cmdname (-1) (T.grow w)
  | noMemory {text rest : List UInt8} {w : Word} {i : Fin 26} (hname : cmdname = text ++ rest)
      (htext : lowercase text = some (w ++ [i])) (hreach : T.Reaches calloc w)
      (hnode : w ++ [i] ∉ T.nodes) (hcalloc : calloc w.length = false) :
      Register T calloc handler cmdname (-2) (T.grow w)

/-- A removal of a name. -/
inductive Unregister (T : CommandTable H) (cmdname : List UInt8) : Int → CommandTable H → Prop
  | unbound {w : Word} (hname : lowercase cmdname = some w) (hnode : w ∈ T.nodes) :
      Unregister T cmdname 0 (T.bind w none)
  | invalid {text rest : List UInt8} {c : UInt8} {w : Word} (hname : cmdname = text ++ c :: rest)
      (htext : lowercase text = some w) (hc : ¬IsLetter c) (hnode : w ∈ T.nodes) :
      Unregister T cmdname (-1) T
  | noNode {text rest : List UInt8} {w : Word} (hname : cmdname = text ++ rest)
      (htext : lowercase text = some w) (hnode : w ∉ T.nodes) :
      Unregister T cmdname (-3) T

/-- A call. -/
inductive Step : CommandTable H → CommandOp H → Int → CommandTable H → Prop
  | register (h : Register T calloc handler cmdname.bytes ret T') :
      Step T (.register calloc cmdname handler) ret T'
  | unregister (h : Unregister T cmdname.bytes ret T') : Step T (.unregister cmdname) ret T'

end CommandTable

/-! ## One call -/

/-- A byte without a child is no letter. -/
theorem childIndex_eq_none_iff {c : UInt8} : childIndex c = none ↔ ¬IsLetter c :=
  forall_byte (p := fun c => childIndex c = none ↔ ¬IsLetter c) (by decide +kernel) c

section
variable {value handler : Option H} {children : Fin 26 → CommandTree H} {calloc : Nat → Bool}
  {real : UInt8} {i : Fin 26} {cmdname : List UInt8} {w : Word} {ret : Int} {t : CommandTree H}

/-- The word of a letter and a name. -/
theorem lowercase_cons_of_index {text : List UInt8} (hi : childIndex real = some i)
    (htext : lowercase text = some w) : lowercase (real :: text) = some (i :: w) := by
  rw [lowercase_cons, hi, htext]
  rfl

/-- The root is on the way to every word. -/
theorem CommandTable.grow_nil (value : Option H) (children : Fin 26 → CommandTree H) :
    (CommandTree.table (.node value children)).grow [] =
      CommandTree.table (.node value children) := by
  ext w
  · simp only [grow, List.prefix_nil, CommandTree.table, Set.mem_union, Set.mem_ofPred_eq]
    refine ⟨?_, .inl⟩
    rintro (h | rfl)
    · exact h
    · exact Trie.nil_mem_nodes_node value children
  · rfl

/-- A walk along the empty word. -/
theorem CommandTable.reaches_nil (T : CommandTable H) (calloc : Nat → Bool) : T.Reaches calloc [] :=
  fun k hk => absurd hk (Nat.not_lt_zero k)

/-- A walk below a child is a walk at the node. -/
theorem CommandTable.Reaches.cons (hgrow : (children i).grow (calloc 0) ≠ .null)
    (h : (CommandTree.table ((children i).grow (calloc 0))).Reaches (fun n => calloc (n + 1)) w) :
    (CommandTree.table (.node value children)).Reaches calloc (i :: w) := by
  rintro (_ | k) hk
  · exact (Trie.mem_nodes_grow.1 (Trie.nil_mem_nodes.2 hgrow)).imp_right And.left
  · have hk' : k < w.length := by simpa using hk
    refine (h k hk').imp_left fun hnode => ?_
    rcases Trie.mem_nodes_grow.1 hnode with hnode | ⟨-, hnil⟩
    · exact hnode
    · have hw : w = [] := by simpa using hnil
      rw [hw] at hk'
      cases hk'

/-- Nodes allocated below a child. -/
theorem nodes_setChild_grow
    (ht : t.nodes = ((children i).grow (calloc 0)).nodes ∪ {u | u <+: w}) :
    (Trie.node value (update children i t)).nodes =
      (Trie.node value children).nodes ∪ {u | u <+: i :: w} := by
  have hchild : t.nodes = (children i).nodes ∪ {u | u <+: w} := by
    rw [ht]
    ext u
    simp only [Set.mem_union, Set.mem_ofPred_eq, Trie.mem_nodes_grow]
    refine ⟨?_, fun h => h.imp_left .inl⟩
    rintro ((h | ⟨-, rfl⟩) | h)
    · exact .inl h
    · exact .inr List.nil_prefix
    · exact .inr h
  rw [Trie.nodes_setChild hchild]
  ext u
  cases u with
  | nil => simp [Trie.nil_mem_nodes_node]
  | cons j u => simp [List.cons_prefix_cons, eq_comm, and_comm]

/-- A table that a walk has grown below a child, seen from the node. -/
theorem table_setChild_grow
    (ht : CommandTree.table t = (CommandTree.table ((children i).grow (calloc 0))).grow w) :
    CommandTree.table (.node value (update children i t)) =
      (CommandTree.table (.node value children)).grow (i :: w) := by
  obtain ⟨hnodes, hmap⟩ := CommandTable.mk.inj ht
  refine CommandTable.ext (nodes_setChild_grow hnodes) (Trie.find_setChild_of_eq ?_)
  exact hmap.trans (Trie.find_grow _ _)

/-- A registration below a child is one at the node. -/
theorem CommandTable.Register.cons (hi : childIndex real = some i)
    (hgrow : (children i).grow (calloc 0) ≠ .null)
    (h : Register (CommandTree.table ((children i).grow (calloc 0))) (fun n => calloc (n + 1))
      handler cmdname ret (CommandTree.table t)) :
    Register (CommandTree.table (.node value children)) calloc handler (real :: cmdname) ret
      (CommandTree.table (.node value (update children i t))) := by
  generalize hT : CommandTree.table t = T at h
  cases h with
  | @bound w hname hreach =>
    obtain ⟨hnodes, hmap⟩ := CommandTable.mk.inj hT
    have hfind : t.find = update (children i).find w handler := by
      rw [hmap, ← Trie.find_grow (calloc 0) (children i)]
      rfl
    have hbind : CommandTree.table (.node value (update children i t)) =
        ((CommandTree.table (.node value children)).grow (i :: w)).bind (i :: w) handler :=
      CommandTable.ext (nodes_setChild_grow hnodes) (Trie.find_setChild_update hfind)
    rw [hbind]
    exact .bound (lowercase_cons_of_index hi hname) (hreach.cons hgrow)
  | @invalid text rest c w hname htext hc hreach =>
    rw [table_setChild_grow hT]
    exact .invalid (by rw [hname, List.cons_append]) (lowercase_cons_of_index hi htext) hc
      (hreach.cons hgrow)
  | @noMemory text rest w j hname htext hreach hnode hcalloc =>
    rw [table_setChild_grow hT]
    refine .noMemory (by rw [hname, List.cons_append]) (lowercase_cons_of_index hi htext)
      (hreach.cons hgrow) (fun hmem => hnode ?_) hcalloc
    exact Trie.mem_nodes_grow.2 (.inl (Trie.cons_mem_nodes.1 hmem))

/-- A registration whose walk comes to a child that is not there and cannot be allocated. -/
theorem CommandTable.register_noMemory (hi : childIndex real = some i)
    (hgrow : (children i).grow (calloc 0) = .null) (handler : Option H) (cmdname : List UInt8) :
    Register (CommandTree.table (.node value children)) calloc handler (real :: cmdname) (-2)
      (CommandTree.table (.node value children)) := by
  obtain ⟨hnull, hcalloc⟩ := Trie.grow_eq_null_iff.1 hgrow
  have hnode : [i] ∉ (CommandTree.table (.node value children)).nodes := fun hmem =>
    Trie.nil_mem_nodes.1 (Trie.cons_mem_nodes.1 hmem) hnull
  have h : Register (CommandTree.table (.node value children)) calloc handler ([real] ++ cmdname)
      (-2) _ :=
    .noMemory rfl (lowercase_cons_of_index hi lowercase_nil) (reaches_nil _ calloc) hnode hcalloc
  rwa [grow_nil] at h

/-- The loop of `modules_register_cmd`. Induction on the name, for every outcome of the allocations
on the way. -/
theorem modulesRegisterCmdLoop_table (handler : Option H) (cmdname : List UInt8) :
    ∀ (calloc : Nat → Bool) (ptr : CommandTree H), ptr ≠ .null →
      CommandTable.Register ptr.table calloc handler cmdname
        (modulesRegisterCmdLoop handler calloc ptr cmdname).1
        (modulesRegisterCmdLoop handler calloc ptr cmdname).2.table := by
  induction cmdname with
  | nil =>
    intro calloc ptr hptr
    cases ptr with
    | null => exact absurd rfl hptr
    | node value children =>
      have hbind : CommandTree.table (.node handler children) =
          ((CommandTree.table (.node value children)).grow []).bind [] handler := by
        rw [CommandTable.grow_nil]
        exact CommandTable.ext (Trie.nodes_setValue value handler children)
          (Trie.find_setValue value handler children)
      show CommandTable.Register _ calloc handler [] 0 (CommandTree.table (.node handler children))
      rw [hbind]
      exact .bound lowercase_nil (CommandTable.reaches_nil _ calloc)
  | cons real cmdname ih =>
    intro calloc ptr hptr
    cases ptr with
    | null => exact absurd rfl hptr
    | node value children =>
      rw [modulesRegisterCmdLoop]
      cases hi : childIndex real with
      | none =>
        have h : CommandTable.Register (CommandTree.table (.node value children)) calloc handler
            ([] ++ real :: cmdname) (-1) _ :=
          .invalid rfl lowercase_nil (childIndex_eq_none_iff.1 hi) (CommandTable.reaches_nil _ calloc)
        rwa [CommandTable.grow_nil] at h
      | some i =>
        by_cases hgrow : (children i).grow (calloc 0) = .null
        · dsimp only
          rw [hgrow, modulesRegisterCmdLoop, ← (Trie.grow_eq_null_iff.1 hgrow).1,
            Function.update_eq_self]
          exact CommandTable.register_noMemory hi hgrow handler cmdname
        · exact (ih (fun n => calloc (n + 1)) _ hgrow).cons hi hgrow

/-- A removal below a child is one at the node. -/
theorem CommandTable.Unregister.cons (hi : childIndex real = some i)
    (h : Unregister (CommandTree.table (children i)) cmdname ret (CommandTree.table t)) :
    Unregister (CommandTree.table (.node value children)) (real :: cmdname) ret
      (CommandTree.table (.node value (update children i t))) := by
  have hsame : CommandTree.table t = CommandTree.table (children i) →
      CommandTree.table (.node value (update children i t)) =
        CommandTree.table (.node value children) := by
    intro ht
    obtain ⟨hnodes, hmap⟩ := CommandTable.mk.inj ht
    exact CommandTable.ext (Trie.nodes_setChild_of_eq hnodes) (Trie.find_setChild_of_eq hmap)
  generalize hT : CommandTree.table t = T at h
  cases h with
  | @unbound w hname hnode =>
    obtain ⟨hnodes, hmap⟩ := CommandTable.mk.inj hT
    have hbind : CommandTree.table (.node value (update children i t)) =
        (CommandTree.table (.node value children)).bind (i :: w) none :=
      CommandTable.ext (Trie.nodes_setChild_of_eq hnodes) (Trie.find_setChild_update hmap)
    rw [hbind]
    exact .unbound (lowercase_cons_of_index hi hname) hnode
  | @invalid text rest c w hname htext hc hnode =>
    rw [hsame hT]
    exact .invalid (by rw [hname, List.cons_append]) (lowercase_cons_of_index hi htext) hc hnode
  | @noNode text rest w hname htext hnode =>
    rw [hsame hT]
    exact .noNode (by rw [hname, List.cons_append]) (lowercase_cons_of_index hi htext) hnode

/-- A walk that has come to `NULL` removes nothing. -/
theorem CommandTable.unregister_null (cmdname : List UInt8) :
    Unregister (CommandTree.table (.null : CommandTree H)) cmdname (-3) (CommandTree.table .null) :=
  .noNode (List.nil_append cmdname).symm lowercase_nil fun hmem => Trie.nil_mem_nodes.1 hmem rfl

/-- The loop of `modules_unregister_cmd`. -/
theorem modulesUnregisterCmdLoop_table (cmdname : List UInt8) :
    ∀ ptr : CommandTree H, CommandTable.Unregister ptr.table cmdname
      (modulesUnregisterCmdLoop ptr cmdname).1 (modulesUnregisterCmdLoop ptr cmdname).2.table := by
  induction cmdname with
  | nil =>
    intro ptr
    cases ptr with
    | null => exact CommandTable.unregister_null []
    | node value children =>
      have hbind : CommandTree.table (.node none children) =
          (CommandTree.table (.node value children)).bind [] none :=
        CommandTable.ext (Trie.nodes_setValue value none children)
          (Trie.find_setValue value none children)
      show CommandTable.Unregister _ [] 0 (CommandTree.table (.node none children))
      rw [hbind]
      exact .unbound lowercase_nil (Trie.nil_mem_nodes_node value children)
  | cons real cmdname ih =>
    intro ptr
    cases ptr with
    | null => exact CommandTable.unregister_null (real :: cmdname)
    | node value children =>
      rw [modulesUnregisterCmdLoop]
      cases hi : childIndex real with
      | none =>
        exact CommandTable.Unregister.invalid (List.nil_append _).symm lowercase_nil
          (childIndex_eq_none_iff.1 hi) (Trie.nil_mem_nodes_node value children)
      | some i => exact (ih (children i)).cons hi

/-- No call removes a node. -/
theorem CommandTable.Step.nodes_subset {T T' : CommandTable H} {op : CommandOp H}
    (h : Step T op ret T') : T.nodes ⊆ T'.nodes := by
  cases h with
  | register h => cases h <;> exact Set.subset_union_left
  | unregister h => cases h <;> exact subset_rfl

/-- One call is a step of the table. -/
theorem commandStep_table {cmds : CommandTree H} (hroot : cmds ≠ .null) (op : CommandOp H) :
    ∃ cmds' ret, commandStep cmds op = some (cmds', ret) ∧
      CommandTable.Step cmds.table op ret cmds'.table := by
  cases op with
  | register calloc cmdname handler =>
    exact ⟨_, _, rfl, .register (modulesRegisterCmdLoop_table handler cmdname.bytes calloc cmds hroot)⟩
  | unregister cmdname =>
    exact ⟨_, _, rfl, .unregister (modulesUnregisterCmdLoop_table cmdname.bytes cmds)⟩

/-- The root stays. -/
theorem CommandTable.Step.ne_null {cmds cmds' : CommandTree H} {op : CommandOp H}
    (h : Step cmds.table op ret cmds'.table) (hroot : cmds ≠ .null) : cmds' ≠ .null :=
  Trie.nil_mem_nodes.1 (h.nodes_subset (Trie.nil_mem_nodes.2 hroot))

/-- The beginning of a name spells the beginning of its word. -/
theorem prefix_of_lowercase {text rest : List UInt8} {u : Word}
    (hname : lowercase (text ++ rest) = some w) (htext : lowercase text = some u) : u <+: w := by
  rw [lowercase, List.mapM_append] at hname
  obtain ⟨u', hu, hname⟩ := Option.bind_eq_some_iff.1 hname
  obtain rfl := Option.some.inj (htext.symm.trans hu)
  obtain ⟨v, -, hv⟩ := Option.bind_eq_some_iff.1 hname
  cases hv
  exact List.prefix_append u v

/-- A name with a byte that is no letter has no word. -/
theorem lowercase_ne_some {text rest : List UInt8} {c : UInt8} (hc : ¬IsLetter c) :
    lowercase (text ++ c :: rest) ≠ some w := fun hname =>
  hc ((lowercase_eq_some_iff.1 hname).1 c (by simp))

/-- A beginning of a name that consists of letters ends before the first byte that is none. -/
theorem prefix_of_letters {text rest u : List UInt8} {c : UInt8} {v : Word} (hc : ¬IsLetter c)
    (hu : lowercase u = some v) (hbegin : u <+: text ++ c :: rest) : u <+: text := by
  rcases Nat.lt_or_ge text.length u.length with hlt | hge
  · have hlonger : text ++ [c] <+: u := by
      refine List.prefix_of_prefix_length_le ⟨rest, ?_⟩ hbegin ?_
      · rw [List.append_assoc, List.singleton_append]
      · rw [List.length_append]
        exact hlt
    obtain ⟨more, rfl⟩ := hlonger
    rw [List.append_assoc, List.singleton_append] at hu
    exact absurd hu (lowercase_ne_some hc)
  · exact List.prefix_of_prefix_length_le hbegin (List.prefix_append text _) hge

/-- The letters before the first byte that is none are determined. -/
theorem letters_unique {text₁ text₂ rest₁ rest₂ : List UInt8} {c₁ c₂ : UInt8} {w₁ w₂ : Word}
    (hname : text₁ ++ c₁ :: rest₁ = text₂ ++ c₂ :: rest₂) (h₁ : lowercase text₁ = some w₁)
    (h₂ : lowercase text₂ = some w₂) (hc₁ : ¬IsLetter c₁) (hc₂ : ¬IsLetter c₂) : w₁ = w₂ := by
  have h₁₂ : text₁ <+: text₂ := prefix_of_letters hc₂ h₁ (hname ▸ List.prefix_append text₁ _)
  have h₂₁ : text₂ <+: text₁ := prefix_of_letters hc₁ h₂ (hname ▸ List.prefix_append text₂ _)
  obtain rfl := h₁₂.eq_of_length_le h₂₁.length_le
  exact Option.some.inj (h₁.symm.trans h₂)

/-- A walk that gets to the end of a word has met no node that is missing for good. -/
theorem CommandTable.Reaches.not_prefix {T : CommandTable H} {u : Word} {j : Fin 26}
    (h : T.Reaches calloc w) (hnode : u ++ [j] ∉ T.nodes) (hcalloc : calloc u.length = false) :
    ¬ u ++ [j] <+: w := by
  rintro ⟨v, rfl⟩
  have hu := h u.length (by simp)
  rw [List.take_left' (by simp), hcalloc] at hu
  exact hu.elim hnode (by decide)

/-- Of two walks that come to a node that is missing for good, neither comes further. -/
theorem CommandTable.Reaches.blocked_unique {T : CommandTable H} {w₁ w₂ : Word} {j₁ j₂ : Fin 26}
    (hreach₂ : T.Reaches calloc w₂) (hnode₁ : w₁ ++ [j₁] ∉ T.nodes)
    (hcalloc₁ : calloc w₁.length = false) (hbegin : w₁ ++ [j₁] <+: w₂ ++ [j₂]) : w₁ = w₂ := by
  rcases List.prefix_concat_iff.1 hbegin with heq | hbegin
  · exact (List.append_inj' heq rfl).1
  · exact absurd hbegin (hreach₂.not_prefix hnode₁ hcalloc₁)

/-- The table determines what a registration returns and leaves. -/
theorem CommandTable.Register.unique {T T₁ T₂ : CommandTable H} {ret₁ ret₂ : Int}
    (h₁ : Register T calloc handler cmdname ret₁ T₁)
    (h₂ : Register T calloc handler cmdname ret₂ T₂) : ret₁ = ret₂ ∧ T₁ = T₂ := by
  cases h₁ with
  | bound hname₁ hreach₁ =>
    cases h₂ with
    | bound hname₂ =>
      cases hname₁.symm.trans hname₂
      exact ⟨rfl, rfl⟩
    | invalid hsplit₂ _ hc₂ =>
      rw [hsplit₂] at hname₁
      exact absurd hname₁ (lowercase_ne_some hc₂)
    | noMemory hsplit₂ htext₂ _ hnode₂ hcalloc₂ =>
      rw [hsplit₂] at hname₁
      exact absurd (prefix_of_lowercase hname₁ htext₂) (hreach₁.not_prefix hnode₂ hcalloc₂)
  | invalid hsplit₁ htext₁ hc₁ hreach₁ =>
    cases h₂ with
    | bound hname₂ =>
      rw [hsplit₁] at hname₂
      exact absurd hname₂ (lowercase_ne_some hc₁)
    | invalid hsplit₂ htext₂ hc₂ =>
      cases letters_unique (hsplit₁.symm.trans hsplit₂) htext₁ htext₂ hc₁ hc₂
      exact ⟨rfl, rfl⟩
    | noMemory hsplit₂ htext₂ _ hnode₂ hcalloc₂ =>
      obtain ⟨more, rfl⟩ := prefix_of_letters hc₁ htext₂ (hsplit₁ ▸ hsplit₂ ▸ List.prefix_append _ _)
      exact absurd (prefix_of_lowercase htext₁ htext₂) (hreach₁.not_prefix hnode₂ hcalloc₂)
  | noMemory hsplit₁ htext₁ hreach₁ hnode₁ hcalloc₁ =>
    cases h₂ with
    | bound hname₂ hreach₂ =>
      rw [hsplit₁] at hname₂
      exact absurd (prefix_of_lowercase hname₂ htext₁) (hreach₂.not_prefix hnode₁ hcalloc₁)
    | invalid hsplit₂ htext₂ hc₂ hreach₂ =>
      obtain ⟨more, rfl⟩ := prefix_of_letters hc₂ htext₁ (hsplit₂ ▸ hsplit₁ ▸ List.prefix_append _ _)
      exact absurd (prefix_of_lowercase htext₂ htext₁) (hreach₂.not_prefix hnode₁ hcalloc₁)
    | noMemory hsplit₂ htext₂ hreach₂ hnode₂ hcalloc₂ =>
      rcases List.prefix_or_prefix_of_prefix ⟨_, hsplit₁.symm⟩ ⟨_, hsplit₂.symm⟩ with
        hbegin | hbegin
      · obtain ⟨more, rfl⟩ := hbegin
        cases hreach₂.blocked_unique hnode₁ hcalloc₁ (prefix_of_lowercase htext₂ htext₁)
        exact ⟨rfl, rfl⟩
      · obtain ⟨more, rfl⟩ := hbegin
        cases hreach₁.blocked_unique hnode₂ hcalloc₂ (prefix_of_lowercase htext₁ htext₂)
        exact ⟨rfl, rfl⟩

/-- The table of a tree determines what a removal returns and leaves. -/
theorem CommandTable.Unregister.unique {cmds : CommandTree H} {T₁ T₂ : CommandTable H}
    {ret₁ ret₂ : Int} (h₁ : Unregister cmds.table cmdname ret₁ T₁)
    (h₂ : Unregister cmds.table cmdname ret₂ T₂) : ret₁ = ret₂ ∧ T₁ = T₂ := by
  cases h₁ with
  | unbound hname₁ hnode₁ =>
    cases h₂ with
    | unbound hname₂ =>
      cases hname₁.symm.trans hname₂
      exact ⟨rfl, rfl⟩
    | invalid hsplit₂ _ hc₂ =>
      rw [hsplit₂] at hname₁
      exact absurd hname₁ (lowercase_ne_some hc₂)
    | noNode hsplit₂ htext₂ hnode₂ =>
      rw [hsplit₂] at hname₁
      exact absurd (Trie.mem_nodes_of_prefix (prefix_of_lowercase hname₁ htext₂) hnode₁) hnode₂
  | invalid hsplit₁ htext₁ hc₁ hnode₁ =>
    cases h₂ with
    | unbound hname₂ =>
      rw [hsplit₁] at hname₂
      exact absurd hname₂ (lowercase_ne_some hc₁)
    | invalid => exact ⟨rfl, rfl⟩
    | noNode hsplit₂ htext₂ hnode₂ =>
      obtain ⟨more, rfl⟩ := prefix_of_letters hc₁ htext₂ (hsplit₁ ▸ hsplit₂ ▸ List.prefix_append _ _)
      exact absurd (Trie.mem_nodes_of_prefix (prefix_of_lowercase htext₁ htext₂) hnode₁) hnode₂
  | noNode hsplit₁ htext₁ hnode₁ =>
    cases h₂ with
    | unbound hname₂ hnode₂ =>
      rw [hsplit₁] at hname₂
      exact absurd (Trie.mem_nodes_of_prefix (prefix_of_lowercase hname₂ htext₁) hnode₂) hnode₁
    | invalid hsplit₂ htext₂ hc₂ hnode₂ =>
      obtain ⟨more, rfl⟩ := prefix_of_letters hc₂ htext₁ (hsplit₂ ▸ hsplit₁ ▸ List.prefix_append _ _)
      exact absurd (Trie.mem_nodes_of_prefix (prefix_of_lowercase htext₂ htext₁) hnode₂) hnode₁
    | noNode => exact ⟨rfl, rfl⟩

/-- The table of a tree determines what a call returns and leaves. -/
theorem CommandTable.Step.unique {cmds : CommandTree H} {op : CommandOp H} {T₁ T₂ : CommandTable H}
    {ret₁ ret₂ : Int} (h₁ : Step cmds.table op ret₁ T₁) (h₂ : Step cmds.table op ret₂ T₂) :
    ret₁ = ret₂ ∧ T₁ = T₂ := by
  cases h₁ with
  | register h₁ =>
    cases h₂ with
    | register h₂ => exact h₁.unique h₂
  | unregister h₁ =>
    cases h₂ with
    | unregister h₂ => exact h₁.unique h₂

/-- `modules_register_cmd` returns `0` for a name of letters whose nodes are all there or can be
allocated, and only then. -/
theorem register_eq_zero_iff {cmds : CommandTree H} (hroot : cmds ≠ .null) (calloc : Nat → Bool)
    (cmdname : CString) (handler : Option H) :
    (modulesRegisterCmd calloc cmds cmdname handler).1 = 0 ↔
      ∃ w, lowercase cmdname.bytes = some w ∧ cmds.table.Reaches calloc w := by
  have h := modulesRegisterCmdLoop_table handler cmdname.bytes calloc cmds hroot
  rw [modulesRegisterCmd]
  constructor
  · intro hret
    rw [hret] at h
    generalize (modulesRegisterCmdLoop handler calloc cmds cmdname.bytes).2.table = T' at h
    cases h with
    | bound hname hreach => exact ⟨_, hname, hreach⟩
  · rintro ⟨w, hname, hreach⟩
    exact (h.unique (.bound hname hreach)).1

/-- `modules_unregister_cmd` returns `0` for a name of letters that has a node, and only then. -/
theorem unregister_eq_zero_iff (cmds : CommandTree H) (cmdname : CString) :
    (modulesUnregisterCmd cmds cmdname).1 = 0 ↔
      ∃ w, lowercase cmdname.bytes = some w ∧ w ∈ cmds.nodes := by
  have h := modulesUnregisterCmdLoop_table cmdname.bytes cmds
  rw [modulesUnregisterCmd]
  constructor
  · intro hret
    rw [hret] at h
    generalize (modulesUnregisterCmdLoop cmds cmdname.bytes).2.table = T' at h
    cases h with
    | unbound hname hnode => exact ⟨_, hname, hnode⟩
  · rintro ⟨w, hname, hnode⟩
    exact (h.unique (.unbound hname hnode)).1

/-- A name that is bound can be removed. -/
theorem unregister_bound {cmds : CommandTree H} {cmdname : CString} {handler : H}
    (hname : lowercase cmdname.bytes = some w) (hbound : cmds.find w = some handler) :
    (modulesUnregisterCmd cmds cmdname).1 = 0 :=
  (unregister_eq_zero_iff cmds cmdname).2 ⟨w, hname, Trie.mem_nodes_of_find hbound⟩

end

/-! ## Histories -/

/-- The table before the first registration: the root alone. -/
def CommandTable.init : CommandTable H :=
  ⟨{[]}, fun _ => none⟩

/-- Before the first registration there is the root. -/
theorem table_cmdsInit : CommandTree.table (cmdsInit : CommandTree H) = CommandTable.init := by
  refine CommandTable.ext (Set.ext fun w => ?_) Trie.find_empty
  cases w with
  | nil => simp [CommandTree.table, CommandTable.init, cmdsInit, Trie.empty, Trie.nil_mem_nodes]
  | cons i w => simp [CommandTree.table, CommandTable.init, cmdsInit, Trie.empty]

/-- The table allows a run nothing else. Induction on the calls. -/
theorem steps_unique : ∀ (ops : List (CommandOp H)) {cmds cmds' : CommandTree H}
    {rets rets' : List Int} {T' : CommandTable H}, cmds ≠ .null →
      runSteps commandStep cmds ops = some (cmds', rets) →
      Steps CommandTable.Step cmds.table ops rets' T' → rets' = rets ∧ T' = cmds'.table
  | [], _, _, _, _, _, _, hrun, hsteps => by
    cases hrun
    cases hsteps
    exact ⟨rfl, rfl⟩
  | op :: ops, cmds, cmds', _, _, T', hroot, hrun, hsteps => by
    obtain ⟨cmds₁, ret, rets, hcall, hrest, rfl⟩ := runSteps_cons_inv hrun
    obtain ⟨cmds₂, ret₂, hcall₂, htable⟩ := commandStep_table hroot op
    cases hcall.symm.trans hcall₂
    cases hsteps with
    | cons hstep hsteps =>
      obtain ⟨rfl, rfl⟩ := hstep.unique htable
      obtain ⟨rfl, rfl⟩ := steps_unique ops (htable.ne_null hroot) hrest hsteps
      exact ⟨rfl, rfl⟩

/-- Every history of registrations and removals, with any outcomes of the allocations, returns what
the table does and nothing else. -/
theorem commandTable_refines (ops : List (CommandOp H)) :
    ∃ cmds rets, runSteps commandStep cmdsInit ops = some (cmds, rets) ∧
      Steps CommandTable.Step CommandTable.init ops rets cmds.table ∧
      ∀ rets' T, Steps CommandTable.Step CommandTable.init ops rets' T →
        rets' = rets ∧ T = cmds.table := by
  have hroot : (cmdsInit : CommandTree H) ≠ .null := by simp [cmdsInit, Trie.empty]
  have hstep : ∀ (cmds : CommandTree H) (T : CommandTable H) op, cmds ≠ .null ∧ cmds.table = T →
      ∃ cmds' ret, commandStep cmds op = some (cmds', ret) ∧
        (True → ∃ T', CommandTable.Step T op ret T' ∧ cmds' ≠ .null ∧ cmds'.table = T') := by
    rintro cmds T op ⟨hroot, rfl⟩
    obtain ⟨cmds', ret, hcall, htable⟩ := commandStep_table hroot op
    exact ⟨cmds', ret, hcall, fun _ => ⟨_, htable, htable.ne_null hroot, rfl⟩⟩
  obtain ⟨cmds, rets, T, hrun, hsteps, -, rfl⟩ :=
    simulates_runSteps hstep ops (s := cmdsInit) (t := .init) ⟨hroot, table_cmdsInit⟩
      fun _ _ _ _ _ => trivial
  refine ⟨cmds, rets, hrun, hsteps, fun rets' T hsteps' => ?_⟩
  rw [← table_cmdsInit] at hsteps'
  exact steps_unique ops hroot hrun hsteps'

/-- What a call may do to the map: a registration that returns `0` binds the lower case name, a
removal that returns `0` unbinds it, and a call that returns a negative number leaves the map. -/
inductive CommandMap.Step : CommandMap H → CommandOp H → Int → CommandMap H → Prop
  | register {w : Word} : lowercase cmdname.bytes = some w →
      Step m (.register calloc cmdname handler) 0 (Function.update m w handler)
  | unregister {w : Word} : lowercase cmdname.bytes = some w →
      Step m (.unregister cmdname) 0 (Function.update m w none)
  | failed : ret < 0 → Step m op ret m

/-- What a step of the table does to the map. -/
theorem CommandTable.Step.mapStep {T T' : CommandTable H} {op : CommandOp H}
    (h : Step T op ret T') : CommandMap.Step T.map op ret T'.map := by
  cases h with
  | register h =>
    cases h with
    | bound hname => exact .register hname
    | invalid => exact .failed (by decide)
    | noMemory => exact .failed (by decide)
  | unregister h =>
    cases h with
    | unbound hname => exact .unregister hname
    | invalid => exact .failed (by decide)
    | noNode => exact .failed (by decide)

/-- One call is a step of the map. -/
theorem commandStep_refines (cmds : CommandTree H) (op : CommandOp H) :
    ∃ cmds' ret, commandStep cmds op = some (cmds', ret) ∧
      CommandMap.Step cmds.find op ret cmds'.find := by
  by_cases hroot : cmds = .null
  · subst hroot
    cases op with
    | register calloc cmdname handler =>
      exact ⟨.null, -2, by simp [commandStep, modulesRegisterCmd, modulesRegisterCmdLoop],
        .failed (by decide)⟩
    | unregister cmdname =>
      exact ⟨.null, -3, by simp [commandStep, modulesUnregisterCmd, modulesUnregisterCmdLoop],
        .failed (by decide)⟩
  · obtain ⟨cmds', ret, hcall, htable⟩ := commandStep_table hroot op
    exact ⟨cmds', ret, hcall, htable.mapStep⟩

/-- Every history of registrations and removals changes the map of the tree by steps of
`CommandMap.Step`, and a text behind a command prefix of one byte is dispatched by that map. -/
theorem commandTree_refines (ops : List (CommandOp H)) :
    ∃ cmds rets, runSteps commandStep cmdsInit ops = some (cmds, rets) ∧
      Steps CommandMap.Step (fun _ => none) ops rets cmds.find ∧
      (∀ text, modulesCheckCmdWalk cmds text = CommandMap.dispatch cmds.find text) ∧
      ∀ cmdPrefix : CString, cmdPrefix.length = 1 → ∀ sender target text,
        modulesCheckCmd cmdPrefix cmds sender target (cmdPrefix ++ text) =
          if text.length = 0 then none
          else (CommandMap.dispatch cmds.find text).map fun r =>
            ⟨r.1, r.2.1, sender, target, r.2.2⟩ := by
  have hstep : ∀ (cmds : CommandTree H) (m : CommandMap H) op, cmds.find = m →
      ∃ cmds' ret, commandStep cmds op = some (cmds', ret) ∧
        (True → ∃ m', CommandMap.Step m op ret m' ∧ cmds'.find = m') := by
    rintro cmds m op rfl
    obtain ⟨cmds', ret, hstep, hmap⟩ := commandStep_refines cmds op
    exact ⟨cmds', ret, hstep, fun _ => ⟨_, hmap, rfl⟩⟩
  obtain ⟨cmds, rets, m, hrun, hsteps, rfl⟩ :=
    simulates_runSteps hstep ops (s := cmdsInit) (t := fun _ => none) Trie.find_empty
      fun _ _ _ _ _ => trivial
  refine ⟨cmds, rets, hrun, hsteps, modulesCheckCmdWalk_eq cmds, ?_⟩
  intro cmdPrefix hone sender target text
  rw [modulesCheckCmd_append, drop_append_text hone]

/-- After `kick` is registered, `,KICK ann` queues its handler with `KICK` and `ann`. -/
theorem commandTree_refines_kick :
    ∃ cmds rets, runSteps commandStep cmdsInit
        [.register (fun _ => true) (CString.lit "kick") (some 7)] = some (cmds, rets) ∧
      rets = [0] ∧
      modulesCheckCmd (CString.lit ",") cmds (CString.lit "a!b@c") (CString.lit "#chan")
          (CString.lit "," ++ CString.lit "KICK ann") =
        some ⟨7, CString.lit "KICK", CString.lit "a!b@c", CString.lit "#chan",
          CString.lit "ann"⟩ := by
  obtain ⟨cmds, rets, hrun, -, -, hcheck⟩ :=
    commandTree_refines [.register (fun _ => true) (CString.lit "kick") (some 7)]
  refine ⟨cmds, rets, hrun, ?_⟩
  rw [hcheck (CString.lit ",") (by decide)]
  have hval : ((runSteps commandStep cmdsInit
      [.register (fun _ => true) (CString.lit "kick") (some 7)]).map fun r =>
        (r.2, CommandMap.dispatch r.1.find (CString.lit "KICK ann"))) =
      some ([0], some (7, CString.lit "KICK", CString.lit "ann")) := by
    decide +kernel
  rw [hrun] at hval
  obtain ⟨hrets, hdispatch⟩ := Prod.mk.inj (Option.some.inj hval)
  refine ⟨hrets, ?_⟩
  simp only at hdispatch
  rw [if_neg (by decide), hdispatch]
  rfl

end MinervaBot
