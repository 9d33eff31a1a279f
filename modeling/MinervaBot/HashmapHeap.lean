import Mathlib.Algebra.BigOperators.Fin
import Mathlib.Tactic.Abel
import MinervaBot.Lib.Heap
import MinervaBot.HashmapPut

/-!
# The hash map on the heap

`hashmap.c` on a heap of blocks: the `struct hashmap`, the table of its buckets, the array of each
bucket and the copy that `strdup` makes of each key are blocks of their own, entries point to their
keys, and `hashmap_remove`, `hashmap_empty` and `hashmap_destroy` free what they free. `MapAt`
relates such a map to the one of `Hashmap.lean`, whose entries are values, together with the blocks
that the map owns. One rule per function says that it does on the heap what it does there. So a run
in which nothing is undefined there uses no block after its `free` and frees none twice, and what is
left behind `hashmap_destroy` are the blocks from before `hashmap_new` (`heapRun_restores`). The one
read that neither model makes undefined is that of the `memcpy` behind a full array
(`Values.moveDown`).
-/

namespace MinervaBot

open Lib

/-- `hashmap_entry` in memory. -/
structure EntryCell where
  key : Ptr
  value : Int
  deriving DecidableEq

/-- `hashmap_entry_list` in memory. -/
structure BucketCell where
  vlen : Nat := 0
  vroom : Nat := 0
  values : Ptr := none
  deriving DecidableEq

/-- `hashmap` in memory. -/
structure MapCell where
  numEntry : Nat
  bucketsize : Nat
  buckets : Ptr
  deriving DecidableEq

/-- The blocks: a `hashmap`, its 256 buckets, the array of a bucket, and a key. -/
inductive HashmapBlock where
  | map (map : MapCell)
  | table (buckets : Fin 256 → BucketCell)
  | values (cells : List (Option EntryCell))
  | key (key : CString)

namespace HashmapBlock

/-- The contents of a block for the map. -/
def map? : HashmapBlock → Option MapCell
  | map m => some m
  | _ => none

/-- The contents of a block for the buckets. -/
def table? : HashmapBlock → Option (Fin 256 → BucketCell)
  | table t => some t
  | _ => none

/-- The contents of a block for entries. -/
def values? : HashmapBlock → Option (List (Option EntryCell))
  | values cells => some cells
  | _ => none

/-- The contents of a block for a key. -/
def key? : HashmapBlock → Option CString
  | key k => some k
  | _ => none

end HashmapBlock

/-- A call on the heap. -/
abbrev HeapCall := Exec (Heap HashmapBlock)

/-! ## The functions -/

namespace InHeap

/-- `in->buckets[i]`. -/
def getBucket (in' : Ptr) (i : Fin 256) : HeapCall BucketCell := do
  let m ← Heap.load HashmapBlock.map? in'
  let t ← Heap.load HashmapBlock.table? m.buckets
  pure (t i)

/-- Assign to `in->buckets[i]`. -/
def setBucket (in' : Ptr) (i : Fin 256) (hel : BucketCell) : HeapCall Unit := do
  let m ← Heap.load HashmapBlock.map? in'
  let t ← Heap.load HashmapBlock.table? m.buckets
  Heap.store m.buckets (.table (Function.update t i hel))

/-- `values[i]`. -/
def getEntry (values : Ptr) (i : Nat) : HeapCall EntryCell := do
  let cells ← Heap.load HashmapBlock.values? values
  Exec.ofOption cells[i]?.join

/-- `hashmap_new`, with the outcomes of its two `calloc`s. -/
def hashmapNew (callocMap callocBuckets : Bool) : HeapCall Ptr := do
  let ret ← Heap.malloc callocMap (.map ⟨0, 0, none⟩)
  let buckets ← Heap.malloc callocBuckets (.table fun _ => {})
  if ret = none ∨ buckets = none then
    Heap.free ret
    Heap.free buckets
    pure none
  else
    Heap.store ret (.map ⟨0, 256, buckets⟩)
    pure ret

/-- `realloc(p, n * sizeof(hashmap_entry))`. -/
def reallocValues (ok : Bool) (p : Ptr) (n : Nat) : HeapCall Ptr :=
  match p with
  | none => Heap.malloc ok (.values (List.replicate n none))
  | some _ => do
    let cells ← Heap.load HashmapBlock.values? p
    if n = 0 then
      Heap.free p
      pure none
    else if ok then
      let he ← Heap.malloc true
        (.values (cells.take n ++ List.replicate (n - cells.length) none))
      Heap.free p
      pure he
    else pure none

/-- The end of `hashmap_put`. -/
def hashmapFillLast (alloc : Alloc) (in' : Ptr) (hel : BucketCell) (key : CString) (value : Int) :
    HeapCall Unit := do
  let cells ← Heap.load HashmapBlock.values? hel.values
  if 0 < hel.vlen ∧ hel.vlen ≤ cells.length then
    let k ← Heap.malloc alloc.strdup (.key key)
    Heap.store hel.values (.values (cells.set (hel.vlen - 1) (some ⟨k, value⟩)))
    let m ← Heap.load HashmapBlock.map? in'
    Heap.store in' (.map { m with numEntry := (m.numEntry + 1) % 2 ^ 64 })
  else Exec.ofOption none

/-- `hashmap_put`. -/
def hashmapPut (alloc : Alloc) (in' : Ptr) (key : CString) (value : Int) : HeapCall Unit := do
  let hash := hashOf key
  let hel ← getBucket in' hash
  let hel := { hel with vlen := (hel.vlen + 1) % 2 ^ 16 }
  setBucket in' hash hel
  if hel.vroom < hel.vlen then
    let hel := { hel with vroom := (if hel.vroom = 0 then 4 else hel.vroom * 2) % 2 ^ 16 }
    setBucket in' hash hel
    let he ← reallocValues alloc.realloc hel.values hel.vroom
    if he = none then pure ()
    else
      let hel := { hel with values := he }
      setBucket in' hash hel
      hashmapFillLast alloc in' hel key value
  else hashmapFillLast alloc in' hel key value

/-- The search loop of `hashmap_remove` and `hashmap_get`, at index `i` with `n` entries to go. -/
def hashmapFind (values : Ptr) (key : CString) : Nat → Nat → HeapCall (Option Nat)
  | 0, _ => pure none
  | n + 1, i => do
    let he ← getEntry values i
    let k ← Heap.load HashmapBlock.key? he.key
    if key = k then pure (some i) else hashmapFind values key n (i + 1)

/-- The end of `hashmap_remove`, for the entry found. -/
def hashmapRemoveFound (in' : Ptr) (hash : Fin 256) (hel : BucketCell) (i : Nat) : HeapCall Int := do
  let he ← getEntry hel.values i
  Heap.free he.key
  let cells ← Heap.load HashmapBlock.values? hel.values
  if hel.vlen ≤ cells.length then
    -- the memcpy: the entry behind a full array counts as indeterminate
    Heap.store hel.values (.values
      (cells.mapIdx fun j c => if i ≤ j ∧ j < hel.vlen then cells[j + 1]?.join else c))
    setBucket in' hash { hel with vlen := hel.vlen - 1 }
    pure he.value
  else Exec.ofOption none

/-- `hashmap_remove`. -/
def hashmapRemove (in' : Ptr) (key : CString) : HeapCall Int := do
  let hash := hashOf key
  let hel ← getBucket in' hash
  match ← hashmapFind hel.values key hel.vlen 0 with
  | none => pure 0
  | some i => hashmapRemoveFound in' hash hel i

/-- `hashmap_get`. -/
def hashmapGet (in' : Ptr) (key : CString) : HeapCall Int := do
  let hel ← getBucket in' (hashOf key)
  match ← hashmapFind hel.values key hel.vlen 0 with
  | none => pure 0
  | some i =>
    let he ← getEntry hel.values i
    pure he.value

/-- The inner loop of `hashmap_iterate`, at index `j` with `n` entries to go. -/
def hashmapIterateBucket {σ : Type} (iter : σ → CString → Int → Int × σ) (values : Ptr) :
    Nat → Nat → σ → HeapCall (Int × σ)
  | 0, _, c => pure (0, c)
  | n + 1, j, c => do
    let he ← getEntry values j
    let k ← Heap.load HashmapBlock.key? he.key
    if (iter c k he.value).1 ≠ 0 then pure (-1, (iter c k he.value).2)
    else hashmapIterateBucket iter values n (j + 1) (iter c k he.value).2

/-- The outer loop of `hashmap_iterate` over the buckets to go. -/
def hashmapIterateFrom {σ : Type} (in' : Ptr) (iter : σ → CString → Int → Int × σ) :
    List (Fin 256) → σ → HeapCall (Int × σ)
  | [], c => pure (0, c)
  | i :: is, c => do
    let hel ← getBucket in' i
    let r ← hashmapIterateBucket iter hel.values hel.vlen 0 c
    if r.1 ≠ 0 then pure (-1, r.2) else hashmapIterateFrom in' iter is r.2

/-- The buckets that the loops over `i < in->bucketsize` visit, in order. -/
def indices (in' : Ptr) : HeapCall (List (Fin 256)) := do
  let m ← Heap.load HashmapBlock.map? in'
  pure ((List.finRange 256).filter (·.val < m.bucketsize))

/-- `hashmap_iterate`. -/
def hashmapIterate {σ : Type} (in' : Ptr) (iter : σ → CString → Int → Int × σ) (context : σ) :
    HeapCall (Int × σ) := do
  hashmapIterateFrom in' iter (← indices in') context

/-- The inner loop of `hashmap_empty`, at index `j` with `n` entries to go. -/
def freeKeys (values : Ptr) : Nat → Nat → HeapCall Unit
  | 0, _ => pure ()
  | n + 1, j => do
    let he ← getEntry values j
    Heap.free he.key
    freeKeys values n (j + 1)

/-- The outer loop of `hashmap_empty` over the buckets to go. -/
def hashmapEmptyFrom (in' : Ptr) : List (Fin 256) → HeapCall Unit
  | [] => pure ()
  | i :: is => do
    let hel ← getBucket in' i
    freeKeys hel.values hel.vlen 0
    Heap.free hel.values
    setBucket in' i {}
    hashmapEmptyFrom in' is

/-- `hashmap_empty`. -/
def hashmapEmpty (in' : Ptr) : HeapCall Unit := do
  hashmapEmptyFrom in' (← indices in')

/-- `hashmap_destroy`. -/
def hashmapDestroy (in' : Ptr) : HeapCall Unit := do
  hashmapEmpty in'
  let m ← Heap.load HashmapBlock.map? in'
  Heap.free m.buckets
  Heap.free in'

end InHeap

/-! ## What a map owns -/

/-- An entry of a bucket, with the address of its key. -/
structure OwnedEntry where
  key : Option (Nat × CString)
  value : Int

/-- The entry in memory. -/
def OwnedEntry.cell (e : OwnedEntry) : EntryCell :=
  ⟨e.key.map Prod.fst, e.value⟩

/-- The entry as a value. -/
def OwnedEntry.entry (e : OwnedEntry) : HashmapEntry :=
  ⟨e.key.map Prod.snd, e.value⟩

/-- The block of a key. -/
def keyBlock : Option (Nat × CString) → Blocks HashmapBlock
  | none => 0
  | some (a, k) => {(a, .key k)}

/-- The blocks of the keys of a list of entries, some of which are indeterminate. -/
def keyBlocks (es : List (Option OwnedEntry)) : Blocks HashmapBlock :=
  (es.map fun e => keyBlock (e.bind OwnedEntry.key)).sum

/-- No entries own no keys. -/
@[simp] theorem keyBlocks_nil : keyBlocks [] = 0 := rfl

/-- The keys of one entry and the rest. -/
@[simp] theorem keyBlocks_cons (e : Option OwnedEntry) (es : List (Option OwnedEntry)) :
    keyBlocks (e :: es) = keyBlock (e.bind OwnedEntry.key) + keyBlocks es := by
  simp [keyBlocks]

/-- The keys of two pieces of an array. -/
@[simp] theorem keyBlocks_append (es es' : List (Option OwnedEntry)) :
    keyBlocks (es ++ es') = keyBlocks es + keyBlocks es' := by
  simp [keyBlocks]

/-- Cells without an entry own no keys. -/
@[simp] theorem keyBlocks_replicate_none (n : Nat) : keyBlocks (List.replicate n none) = 0 := by
  simp [keyBlocks, keyBlock]

/-- The key of an entry is among the keys. -/
theorem mem_keyBlocks {e : OwnedEntry} {a : Nat} {k : CString} (hkey : e.key = some (a, k)) :
    ∀ {es : List (Option OwnedEntry)}, some e ∈ es → (a, .key k) ∈ keyBlocks es
  | e' :: es, hmem => by
    rw [keyBlocks_cons, Multiset.mem_add]
    rcases List.mem_cons.1 hmem with rfl | hmem
    · left
      rw [Option.bind_some, hkey]
      exact Multiset.mem_singleton_self _
    · exact .inr (mem_keyBlocks hkey hmem)

/-- The pointer `values` of a bucket in memory and as a value, with the blocks behind it: those of
the array and of the keys of its first `vlen` entries. An array that is freed leaves its keys
behind. -/
inductive ValuesRep (vlen vroom : Nat) : Ptr → Values → Blocks HashmapBlock → Prop
  | null : ValuesRep vlen vroom none .null 0
  | freed (p : Ptr) (lost : Blocks HashmapBlock) : ValuesRep vlen vroom p .freed lost
  | block (a : Nat) {cells : List (Option EntryCell)} {cells' : List (Option HashmapEntry)}
      {es : List (Option OwnedEntry)} (length_eq : cells'.length = cells.length)
      (cells_eq : cells.take vlen = es.map (Option.map OwnedEntry.cell))
      (entries_eq : cells'.take vlen = es.map (Option.map OwnedEntry.entry))
      (room : cells.length ≤ vroom ∨ cells.length < vlen) :
      ValuesRep vlen vroom (some a) (.block cells') ({(a, .values cells)} + keyBlocks es)

/-- A bucket in memory and as a value, with its blocks. -/
structure BucketRep (hel : BucketCell) (hel' : HashmapEntryList) (B : Blocks HashmapBlock) : Prop where
  vlen_eq : hel'.vlen = hel.vlen
  vroom_eq : hel'.vroom = hel.vroom
  vlen_lt : hel.vlen < 2 ^ 16
  values : ValuesRep hel.vlen hel.vroom hel.values hel'.values B

/-- The map at the address `p`, as a value, in a heap that has the blocks `frame` beside those of
the map. -/
def MapAt (p : Nat) (m : Hashmap) (frame : Blocks HashmapBlock) (h : Heap HashmapBlock) : Prop :=
  m.bucketsize = 256 ∧
    ∃ (t : Nat) (table : Fin 256 → BucketCell) (parts : Fin 256 → Blocks HashmapBlock),
    h.Is ({(p, .map ⟨m.numEntry, 256, some t⟩)} + ({(t, .table table)} + (∑ i, parts i + frame))) ∧
    ∀ i, BucketRep (table i) (m.buckets i) (parts i)

/-! ## Rules for the parts -/

section
variable {p t : Nat} {m m' : Hashmap} {frame M N : Blocks HashmapBlock} {h : Heap HashmapBlock}
  {table : Fin 256 → BucketCell} {i : Fin 256} {hd : MapCell}

/-- What a map is without its bucket `i`: with a bucket in this place it is a map again. -/
structure Hole (p t : Nat) (m : Hashmap) (table : Fin 256 → BucketCell) (i : Fin 256)
    (frame rest : Blocks HashmapBlock) : Prop where
  fill : ∀ {n hel hel' B h}, BucketRep hel hel' B →
    h.Is ({(p, .map ⟨n, 256, some t⟩)} +
      ({(t, .table (Function.update table i hel))} + (B + rest))) →
    MapAt p { m.setBucket i hel' with numEntry := n } frame h

/-- A single bucket of a map. -/
theorem MapAt.focus (hm : MapAt p m frame h) (i : Fin 256) : ∃ t table B rest,
    h.Is ({(p, .map ⟨m.numEntry, 256, some t⟩)} + ({(t, .table table)} + (B + rest))) ∧
      BucketRep (table i) (m.buckets i) B ∧ Hole p t m table i frame rest := by
  obtain ⟨hsize, t, table, parts, hM, hparts⟩ := hm
  have hsum : ∀ B, ∑ j, Function.update parts i B j + frame =
      B + (∑ j ∈ Finset.univ \ {i}, parts j + frame) := fun B => by
    rw [Finset.sum_update_of_mem (Finset.mem_univ i), add_assoc]
  refine ⟨t, table, parts i, ∑ j ∈ Finset.univ \ {i}, parts j + frame, ?_, hparts i, ⟨?_⟩⟩
  · rwa [← hsum, Function.update_eq_self]
  · intro n hel hel' B' h' hrep hM'
    refine ⟨hsize, t, Function.update table i hel, Function.update parts i B', ?_, fun j => ?_⟩
    · rwa [hsum]
    · rcases eq_or_ne j i with rfl | hj
      · simpa [Hashmap.setBucket] using hrep
      · simpa [Hashmap.setBucket, hj] using hparts j

/-- The bucket may be assigned to meanwhile. -/
theorem Hole.update (hole : Hole p t m table i frame N) (hel : BucketCell) :
    Hole p t m (Function.update table i hel) i frame N := by
  refine ⟨fun hrep hM => ?_⟩
  rw [Function.update_idem] at hM
  exact hole.fill hrep hM

/-- A read of the `struct hashmap`. -/
theorem loadMap_yields (hM : h.Is ({(p, .map hd)} + N)) :
    (Heap.load HashmapBlock.map? (some p)).Yields h fun m h' => hd = m ∧ h = h' :=
  Heap.load_yields hM (Multiset.mem_add.2 (.inl (Multiset.mem_singleton_self _))) rfl

/-- A read of the table of the buckets. -/
theorem loadTable_yields (hM : h.Is (M + ({(t, .table table)} + N))) :
    (Heap.load HashmapBlock.table? (some t)).Yields h fun t' h' => table = t' ∧ h = h' :=
  Heap.load_yields hM (o := .table table) (by simp) rfl

/-- A read of the array of a bucket. -/
theorem loadValues_yields {a : Nat} {cells : List (Option EntryCell)} (hM : h.Is M)
    (hmem : (a, .values cells) ∈ M) :
    (Heap.load HashmapBlock.values? (some a)).Yields h fun cells' h' => cells = cells' ∧ h = h' :=
  Heap.load_yields hM hmem rfl

/-- A read of a key. -/
theorem loadKey_yields {a : Nat} {k : CString} (hM : h.Is M) (hmem : (a, .key k) ∈ M) :
    (Heap.load HashmapBlock.key? (some a)).Yields h fun k' h' => k = k' ∧ h = h' :=
  Heap.load_yields hM hmem rfl

/-- A read of a bucket. -/
theorem getBucket_yields (hM : h.Is ({(p, .map ⟨n, 256, some t⟩)} + ({(t, .table table)} + N)))
    (i : Fin 256) :
    (InHeap.getBucket (some p) i).Yields h fun hel h' => table i = hel ∧ h = h' := by
  refine (loadMap_yields hM).bind ?_
  rintro _ _ ⟨rfl, rfl⟩
  refine (loadTable_yields hM).bind ?_
  rintro _ _ ⟨rfl, rfl⟩
  exact .pure ⟨rfl, rfl⟩

/-- A write to a bucket. -/
theorem setBucket_yields (hM : h.Is ({(p, .map ⟨n, 256, some t⟩)} + ({(t, .table table)} + N)))
    (i : Fin 256) (hel : BucketCell) :
    (InHeap.setBucket (some p) i hel).Yields h fun _ h' =>
      h'.Is ({(p, .map ⟨n, 256, some t⟩)} + ({(t, .table (Function.update table i hel))} + N)) := by
  refine (loadMap_yields hM).bind ?_
  rintro _ _ ⟨rfl, rfl⟩
  refine (loadTable_yields hM).bind ?_
  rintro _ _ ⟨rfl, rfl⟩
  rw [add_left_comm] at hM
  refine (Heap.store_yields hM _).mono fun _ h' hM' => ?_
  rwa [add_left_comm]

/-- A read of an entry. -/
theorem getEntry_yields {a j : Nat} {cells : List (Option EntryCell)} {c : EntryCell} (hM : h.Is M)
    (hmem : (a, .values cells) ∈ M) (hc : cells[j]?.join = some c) :
    (InHeap.getEntry (some a) j).Yields h fun he h' => c = he ∧ h = h' := by
  refine (loadValues_yields hM hmem).bind ?_
  rintro _ _ ⟨rfl, rfl⟩
  exact .ofOption hc ⟨rfl, rfl⟩

/-- Freeing a key. -/
theorem freeKey_yields {k : Option (Nat × CString)} (hM : h.Is (keyBlock k + M)) :
    (Heap.free (k.map Prod.fst)).Yields h fun _ h' => h'.Is M := by
  cases k with
  | none =>
    refine Heap.free_null_yields.mono ?_
    rintro _ _ rfl
    rwa [keyBlock, zero_add] at hM
  | some k => exact Heap.free_yields hM

end

/-! ## Lookups -/

section
variable {p vlen vroom : Nat} {ptr : Ptr} {values : Values} {m : Hashmap}
  {B M frame : Blocks HashmapBlock} {h : Heap HashmapBlock}

/-- An entry that is read as a value stands at its place in memory. -/
theorem exists_owned {cells : List (Option EntryCell)} {cells' : List (Option HashmapEntry)}
    {es : List (Option OwnedEntry)} (hcells : cells.take vlen = es.map (Option.map OwnedEntry.cell))
    (hentries : cells'.take vlen = es.map (Option.map OwnedEntry.entry)) {j : Nat} (hj : j < vlen)
    {he : HashmapEntry} (hread : cells'[j]?.join = some he) :
    ∃ e, es[j]? = some (some e) ∧ e.entry = he ∧ cells[j]?.join = some e.cell := by
  have hentry : cells'[j]? = es[j]?.map (Option.map OwnedEntry.entry) := by
    rw [← List.getElem?_map, ← hentries, List.getElem?_take_of_lt hj]
  have hcell : cells[j]? = es[j]?.map (Option.map OwnedEntry.cell) := by
    rw [← List.getElem?_map, ← hcells, List.getElem?_take_of_lt hj]
  rw [hentry] at hread
  rcases hes : es[j]? with _ | _ | e <;> rw [hes] at hread hcell
  · cases hread
  · cases hread
  · exact ⟨e, rfl, Option.some.inj hread, by rw [hcell]; rfl⟩

/-- An entry that is defined as a value has its cell. -/
theorem ValuesRep.read (hrep : ValuesRep vlen vroom ptr values B) {j : Nat} (hj : j < vlen)
    {he : HashmapEntry} (hread : values.read j = some he) :
    ∃ a cells es e, ptr = some a ∧ B = {(a, .values cells)} + keyBlocks es ∧
      es[j]? = some (some e) ∧ e.entry = he ∧ cells[j]?.join = some e.cell := by
  cases hrep with
  | null | freed => cases hread
  | @block a cells cells' es _ hcells hentries _ =>
    obtain ⟨e, hes, hentry, hcell⟩ := exists_owned hcells hentries hj hread
    exact ⟨a, cells, es, e, rfl, rfl, hes, hentry, hcell⟩

/-- A read of an entry of a bucket, and the key that it owns. -/
theorem ValuesRep.getEntry_yields (hrep : ValuesRep vlen vroom ptr values B) (hM : h.Is M)
    (hsub : B ⊆ M) {j : Nat} (hj : j < vlen) {he : HashmapEntry} (hread : values.read j = some he) :
    ∃ e : OwnedEntry, e.entry = he ∧
      (InHeap.getEntry ptr j).Yields h (fun c h' => e.cell = c ∧ h = h') ∧
      ∀ a k, e.key = some (a, k) → (a, .key k) ∈ M := by
  obtain ⟨a, cells, es, e, rfl, rfl, hes, rfl, hcell⟩ := hrep.read hj hread
  refine ⟨e, rfl, MinervaBot.getEntry_yields hM (hsub (by simp)) hcell, fun b k hkey => hsub ?_⟩
  exact Multiset.mem_add.2 (.inr (mem_keyBlocks hkey (List.mem_of_getElem? hes)))

/-- An entry with a key, and the key behind its pointer. -/
theorem ValuesRep.getKey_yields (hrep : ValuesRep vlen vroom ptr values B) (hM : h.Is M)
    (hsub : B ⊆ M) {j : Nat} (hj : j < vlen) {k : CString} {v : Int}
    (hread : values.read j = some ⟨some k, v⟩) : ∃ b,
      (InHeap.getEntry ptr j).Yields h (fun c h' => ⟨some b, v⟩ = c ∧ h = h') ∧
      (Heap.load HashmapBlock.key? (some b)).Yields h fun k' h' => k = k' ∧ h = h' := by
  obtain ⟨⟨key, v'⟩, hentry, hget, hkey⟩ := hrep.getEntry_yields hM hsub hj hread
  rcases key with _ | ⟨b, k'⟩
  · cases hentry
  · cases hentry
    exact ⟨b, hget, loadKey_yields hM (hkey b _ rfl)⟩

/-- The search of a bucket on the heap. Induction on the entries to go. -/
theorem find_yields (hrep : ValuesRep vlen vroom ptr values B) (hM : h.Is M) (hsub : B ⊆ M)
    {key : CString} {n j : Nat} {r : Option Nat} (hle : j + n ≤ vlen)
    (hfind : hashmapFind values key n j = some r) :
    (InHeap.hashmapFind ptr key n j).Yields h fun r' h' => r = r' ∧ h = h' := by
  induction n generalizing j with
  | zero =>
    cases hfind
    exact .pure ⟨rfl, rfl⟩
  | succ n ih =>
    rw [hashmapFind] at hfind
    split at hfind
    · next k v hread =>
      obtain ⟨b, hget, hload⟩ := hrep.getKey_yields hM hsub (by omega) hread
      refine hget.bind ?_
      rintro _ _ ⟨rfl, rfl⟩
      refine hload.bind ?_
      rintro _ _ ⟨rfl, rfl⟩
      split at hfind
      · next hkey =>
        cases hfind
        rw [if_pos hkey]
        exact .pure ⟨rfl, rfl⟩
      · next hkey =>
        rw [if_neg hkey]
        exact ih (by omega) hfind
    · cases hfind

/-- The blocks of the bucket are among those of the heap. -/
theorem subset_blocks {X Y R : Blocks HashmapBlock} : B ⊆ X + (Y + (B + R)) := fun _ hx => by
  simp [hx]

/-- `hashmap_get` on the heap. -/
theorem MapAt.get_yields (hm : MapAt p m frame h) {key : CString} {v : Int}
    (hget : hashmapGet m key = some v) :
    (InHeap.hashmapGet (some p) key).Yields h fun v' h' => v = v' ∧ h = h' := by
  obtain ⟨t, table, B, rest, hM, hrep, -⟩ := hm.focus (hashOf key)
  have hlen := hrep.vlen_eq
  rw [hashmapGet] at hget
  refine (getBucket_yields hM _).bind ?_
  rintro _ _ ⟨rfl, rfl⟩
  rw [hlen] at hget
  split at hget
  · cases hget
  · next hfind =>
    cases hget
    refine (find_yields hrep.values hM subset_blocks (by omega) hfind).bind ?_
    rintro _ _ ⟨rfl, rfl⟩
    exact .pure ⟨rfl, rfl⟩
  · next i hfind =>
    obtain ⟨he, hread, rfl⟩ := Option.map_eq_some_iff.1 hget
    have hlt := hashmapFind_lt hfind
    obtain ⟨e, rfl, hentry, -⟩ := hrep.values.getEntry_yields hM subset_blocks (by omega) hread
    refine (find_yields hrep.values hM subset_blocks (by omega) hfind).bind ?_
    rintro _ _ ⟨rfl, rfl⟩
    refine hentry.bind ?_
    rintro _ _ ⟨rfl, rfl⟩
    exact .pure ⟨rfl, rfl⟩

/-! ## Iterations -/

/-- The loop over the entries of a bucket on the heap. Induction on the entries to go. -/
theorem iterateBucket_yields {σ : Type} (hrep : ValuesRep vlen vroom ptr values B) (hM : h.Is M)
    (hsub : B ⊆ M) {iter : σ → CString → Int → Int × σ} {n j : Nat} {c : σ} {r : Int × σ}
    (hle : j + n ≤ vlen) (hiter : hashmapIterateBucket iter values n j c = some r) :
    (InHeap.hashmapIterateBucket iter ptr n j c).Yields h fun r' h' => r = r' ∧ h = h' := by
  induction n generalizing j c with
  | zero =>
    cases hiter
    exact .pure ⟨rfl, rfl⟩
  | succ n ih =>
    rw [hashmapIterateBucket] at hiter
    split at hiter
    · next k v hread =>
      obtain ⟨b, hget, hload⟩ := hrep.getKey_yields hM hsub (by omega) hread
      refine hget.bind ?_
      rintro _ _ ⟨rfl, rfl⟩
      refine hload.bind ?_
      rintro _ _ ⟨rfl, rfl⟩
      split at hiter
      · next hstop =>
        cases hiter
        rw [if_pos hstop]
        exact .pure ⟨rfl, rfl⟩
      · next hgo =>
        rw [if_neg hgo]
        exact ih (by omega) hiter
    · cases hiter

/-- The loop over the buckets on the heap. Induction on the buckets to go. -/
theorem MapAt.iterateFrom_yields {σ : Type} (hm : MapAt p m frame h)
    {iter : σ → CString → Int → Int × σ} {is : List (Fin 256)} {c : σ} {r : Int × σ}
    (hiter : hashmapIterateFrom m iter is c = some r) :
    (InHeap.hashmapIterateFrom (some p) iter is c).Yields h fun r' h' => r = r' ∧ h = h' := by
  induction is generalizing c with
  | nil =>
    cases hiter
    exact .pure ⟨rfl, rfl⟩
  | cons i is ih =>
    obtain ⟨t, table, B, rest, hM, hrep, -⟩ := hm.focus i
    rw [hashmapIterateFrom, hrep.vlen_eq] at hiter
    refine (getBucket_yields hM _).bind ?_
    rintro _ _ ⟨rfl, rfl⟩
    split at hiter
    · cases hiter
    · next ret c' hbucket =>
      refine (iterateBucket_yields hrep.values hM subset_blocks (by omega) hbucket).bind ?_
      rintro _ _ ⟨rfl, rfl⟩
      split at hiter
      · next hstop =>
        cases hiter
        rw [if_pos hstop]
        exact .pure ⟨rfl, rfl⟩
      · next hgo =>
        rw [if_neg hgo]
        exact ih hiter

/-- The buckets that the loops visit. -/
theorem MapAt.indices_yields (hm : MapAt p m frame h) :
    (InHeap.indices (some p)).Yields h fun is h' => m.indices = is ∧ h = h' := by
  obtain ⟨hsize, t, table, parts, hM, -⟩ := hm
  refine (loadMap_yields hM).bind ?_
  rintro _ _ ⟨rfl, rfl⟩
  exact .pure ⟨by rw [Hashmap.indices, hsize], rfl⟩

/-- `hashmap_iterate` on the heap. -/
theorem MapAt.iterate_yields {σ : Type} (hm : MapAt p m frame h)
    {iter : σ → CString → Int → Int × σ} {c : σ} {r : Int × σ}
    (hiter : hashmapIterate m iter c = some r) :
    (InHeap.hashmapIterate (some p) iter c).Yields h fun r' h' => r = r' ∧ h = h' := by
  refine hm.indices_yields.bind ?_
  rintro _ _ ⟨rfl, rfl⟩
  exact hm.iterateFrom_yields hiter

end

/-! ## Removals -/

section
variable {p : Nat} {m m' : Hashmap} {frame : Blocks HashmapBlock} {h : Heap HashmapBlock}

/-- Moving the cells behind an entry down leaves the other entries. -/
theorem take_moveDown {α : Type} {cells A C : List (Option α)} {x : Option α} {n : Nat}
    (hcells : cells.take n = A ++ x :: C) (hn : n ≤ cells.length) :
    (cells.mapIdx fun j c => if A.length ≤ j ∧ j < n then cells[j + 1]?.join else c).take (n - 1) =
      A ++ C := by
  have hlen : n = (A ++ x :: C).length := by
    rw [← hcells, List.length_take, Nat.min_eq_left hn]
  have hsplit : cells = A ++ x :: C ++ cells.drop n := by
    rw [← hcells, List.take_append_drop]
  have hmove := mapIdx_moveDown A C (cells.drop n) x
  rw [← hsplit, ← hlen] at hmove
  rw [hmove]
  refine List.take_left' ?_
  rw [hlen]
  simp

/-- The list around its element at an index. -/
theorem exists_split {α : Type} {xs : List α} {i : Nat} {x : α} (h : xs[i]? = some x) :
    ∃ A C, xs = A ++ x :: C ∧ A.length = i := by
  obtain ⟨hlt, rfl⟩ := List.getElem?_eq_some_iff.1 h
  exact ⟨xs.take i, xs.drop (i + 1), by rw [List.getElem_cons_drop, List.take_append_drop],
    List.length_take_of_le (Nat.le_of_lt hlt)⟩

/-- The end of `hashmap_remove`: the key is freed, the gap closed, and the entry off the count. -/
theorem removeFound_yields {t a vlen vroom i n : Nat} {table : Fin 256 → BucketCell} {hash : Fin 256}
    {cells : List (Option EntryCell)} {A C : List (Option OwnedEntry)} {e : OwnedEntry}
    {rest : Blocks HashmapBlock}
    (hM : h.Is ({(p, .map ⟨n, 256, some t⟩)} + ({(t, .table table)} +
      ({(a, .values cells)} + keyBlocks (A ++ some e :: C) + rest))))
    (hcell : cells[i]?.join = some e.cell) (hle : vlen ≤ cells.length) :
    (InHeap.hashmapRemoveFound (some p) hash ⟨vlen, vroom, some a⟩ i).Yields h fun v h' =>
      e.value = v ∧ h'.Is ({(p, .map ⟨n, 256, some t⟩)} +
        ({(t, .table (Function.update table hash ⟨vlen - 1, vroom, some a⟩))} +
          ({(a, .values (cells.mapIdx fun j c =>
              if i ≤ j ∧ j < vlen then cells[j + 1]?.join else c))} + keyBlocks (A ++ C) + rest))) := by
  refine (getEntry_yields hM (by simp) hcell).bind ?_
  rintro _ _ ⟨rfl, rfl⟩
  have hkey := hM.of_eq (show _ = keyBlock e.key + ({(a, .values cells)} +
    ({(p, .map ⟨n, 256, some t⟩)} + ({(t, .table table)} + (keyBlocks (A ++ C) + rest)))) by
      simp only [keyBlocks_append, keyBlocks_cons, Option.bind_some]
      abel)
  refine (freeKey_yields hkey).bind fun _ h₁ hM₁ => ?_
  refine (loadValues_yields hM₁ (show (a, HashmapBlock.values cells) ∈ _ by simp)).bind ?_
  rintro _ _ ⟨rfl, rfl⟩
  rw [if_pos hle]
  refine (Heap.store_yields hM₁ _).bind fun _ h₂ hM₂ => ?_
  have hback := hM₂.of_eq (show _ = {(p, .map ⟨n, 256, some t⟩)} + ({(t, .table table)} +
    ({(a, .values (cells.mapIdx fun j c => if i ≤ j ∧ j < vlen then cells[j + 1]?.join else c))} +
      keyBlocks (A ++ C) + rest)) by abel)
  exact (setBucket_yields hback hash _).bind fun _ h₃ hM₃ => .pure ⟨rfl, hM₃⟩

/-- `hashmap_remove` on the heap. -/
theorem MapAt.remove_yields (hm : MapAt p m frame h) {key : CString} {v : Int}
    (hremove : hashmapRemove m key = some (v, m')) :
    (InHeap.hashmapRemove (some p) key).Yields h fun v' h' => v = v' ∧ MapAt p m' frame h' := by
  obtain ⟨t, table, B, rest, hM, hrep, hole⟩ := hm.focus (hashOf key)
  rw [hashmapRemove, hrep.vlen_eq] at hremove
  refine (getBucket_yields hM _).bind ?_
  rintro _ _ ⟨rfl, rfl⟩
  split at hremove
  · cases hremove
  · next hfind =>
    cases hremove
    refine (find_yields hrep.values hM subset_blocks (by omega) hfind).bind ?_
    rintro _ _ ⟨rfl, rfl⟩
    exact .pure ⟨rfl, hm⟩
  · next i hfind =>
    have hlt := hashmapFind_lt hfind
    split at hremove
    case h_2 => cases hremove
    next he values hread hmove =>
    cases hremove
    refine (find_yields hrep.values hM subset_blocks (by omega) hfind).bind ?_
    rintro _ _ ⟨rfl, rfl⟩
    generalize table (hashOf key) = hel at *
    generalize hvals : (m.buckets (hashOf key)).values = vals at *
    obtain ⟨-, hvroom, hlt16, hvalues⟩ := hrep
    rcases hel with ⟨vlen, vroom, ptr⟩
    rw [hvals] at hvalues
    cases hvalues with
    | null | freed => cases hread
    | @block a cells cells' es hlength hcells hentries hroom =>
      rw [Values.moveDown] at hmove
      split at hmove
      case isFalse => cases hmove
      next hle =>
      cases hmove
      dsimp only at *
      obtain ⟨e, hes, rfl, hcell⟩ := exists_owned hcells hentries (by omega) hread
      obtain ⟨A, C, rfl, rfl⟩ := exists_split hes
      rw [List.map_append, List.map_cons] at hcells hentries
      refine (removeFound_yields hM hcell (by omega)).mono ?_
      rintro v h' ⟨hv, hM'⟩
      refine ⟨hv, ?_⟩
      refine hole.fill ⟨rfl, hvroom, show vlen - 1 < 2 ^ 16 by omega, ?_⟩ hM'
      have htake := take_moveDown hcells (by omega)
      have htake' := take_moveDown hentries (by omega)
      rw [List.length_map, ← List.map_append] at htake htake'
      exact .block a (by simpa using hlength) htake htake' (.inl (by simp; omega))

end

/-! ## Insertions -/

section
variable {p t a n v vroom : Nat} {ptr : Ptr} {values values' : Values} {m m' : Hashmap} {alloc : Alloc}
  {key : CString} {value : Int} {table : Fin 256 → BucketCell} {cells : List (Option EntryCell)}
  {cells' : List (Option HashmapEntry)} {es : List (Option OwnedEntry)}
  {B N frame rest : Blocks HashmapBlock} {h : Heap HashmapBlock}

/-- A block that `realloc` has copied, and the block before. -/
theorem take_resized {α : Type} (cells : List (Option α)) {v n : Nat} (hv : v ≤ n) :
    (cells.take n ++ List.replicate (n - cells.length) none).take v =
      cells.take v ++ List.replicate (v - cells.length) none := by
  rw [List.take_append, List.take_take, Nat.min_eq_left hv, List.take_replicate, List.length_take]
  congr 2
  omega

/-- A resized array has the new length. -/
theorem length_resized {α : Type} (cells : List (Option α)) (n : Nat) :
    (cells.take n ++ List.replicate (n - cells.length) none).length = n := by
  rw [List.length_append, List.length_take, List.length_replicate]
  omega

/-- A cell written behind the first ones. -/
theorem take_set_last {α : Type} {cells : List α} {v : Nat} (hv : v < cells.length) (x : α) :
    (cells.set v x).take (v + 1) = cells.take v ++ [x] := by
  rw [List.set_eq_take_append_cons_drop, if_pos hv, List.append_cons]
  exact List.take_left' (by rw [List.length_append, List.length_take_of_le (Nat.le_of_lt hv)]; rfl)

/-- A `realloc` that returns `NULL`, while the bucket counts one entry more. -/
theorem realloc_null_yields {ok : Bool} (hrep : ValuesRep v vroom ptr values B)
    (hM : h.Is (B + N)) (hfull : vroom ≤ v)
    (hrealloc : reallocValues ok values n = some (values', none)) :
    (InHeap.reallocValues ok ptr n).Yields h fun he h' => he = none ∧
      ∃ B', h'.Is (B' + N) ∧ ∀ vroom', ValuesRep (v + 1) vroom' ptr values' B' := by
  cases hrep with
  | null =>
    cases ok <;> cases hrealloc
    refine (Heap.malloc_false_yields _).mono ?_
    rintro _ _ ⟨rfl, rfl⟩
    exact ⟨rfl, 0, hM, fun _ => .null⟩
  | freed => cases hrealloc
  | @block a cells cells' es hlength hcells hentries hroom =>
    refine (loadValues_yields hM (show (a, HashmapBlock.values cells) ∈ _ by simp)).bind ?_
    rintro _ _ ⟨rfl, rfl⟩
    rw [reallocValues] at hrealloc
    split at hrealloc
    · next hzero =>
      cases hrealloc
      rw [if_pos hzero]
      rw [add_assoc] at hM
      exact (Heap.free_yields hM).bind fun _ h₁ hM₁ => .pure ⟨rfl, _, hM₁, fun _ => .freed _ _⟩
    · next hnonzero =>
      split at hrealloc
      · cases hrealloc
      · next hok =>
        cases hrealloc
        rw [if_neg hnonzero, if_neg hok]
        have hlen : cells.length ≤ v := hroom.elim (Nat.le_trans · hfull) Nat.le_of_lt
        rw [List.take_of_length_le hlen] at hcells
        rw [List.take_of_length_le (by omega)] at hentries
        refine .pure ⟨rfl, _, hM, fun _ => .block a hlength ?_ ?_ (.inr (by omega))⟩
        · rw [List.take_of_length_le (by omega), hcells]
        · rw [List.take_of_length_le (by omega), hentries]

/-- A `realloc` that returns a block. -/
theorem realloc_block_yields {ok : Bool} (hrep : ValuesRep v vroom ptr values B)
    (hM : h.Is (B + N)) (hrealloc : reallocValues ok values n = some (values', some cells')) :
    cells'.length = n ∧ (v ≤ n → (InHeap.reallocValues ok ptr n).Yields h fun he h' =>
      ∃ a cells es, he = some a ∧ h'.Is ({(a, .values cells)} + keyBlocks es + N) ∧
        cells.length = n ∧ cells.take v = es.map (Option.map OwnedEntry.cell) ∧
        cells'.take v = es.map (Option.map OwnedEntry.entry)) := by
  cases hrep with
  | null =>
    cases ok <;> cases hrealloc
    refine ⟨List.length_replicate, fun hv => (Heap.malloc_yields hM _).mono ?_⟩
    rintro _ h' ⟨a, rfl, hM'⟩
    refine ⟨a, List.replicate n none, List.replicate v none, rfl, hM'.of_eq ?_,
      List.length_replicate, ?_, ?_⟩
    · rw [keyBlocks_replicate_none, zero_add, add_zero]
    · simp [hv]
    · simp [hv]
  | freed => cases hrealloc
  | @block a cells cells₀ es hlength hcells hentries _ =>
    rw [reallocValues] at hrealloc
    split at hrealloc
    · cases hrealloc
    · next hnonzero =>
      split at hrealloc
      case isFalse => cases hrealloc
      next hok =>
      cases hrealloc
      refine ⟨length_resized _ n, fun hv => ?_⟩
      refine (loadValues_yields hM (show (a, HashmapBlock.values cells) ∈ _ by simp)).bind ?_
      rintro _ _ ⟨rfl, rfl⟩
      rw [if_neg hnonzero, if_pos hok]
      refine (Heap.malloc_yields hM _).bind ?_
      rintro _ h₁ ⟨a', rfl, hM₁⟩
      have hfree := hM₁.of_eq (show _ = {(a, .values cells)} +
        ({(a', .values (cells.take n ++ List.replicate (n - cells.length) none))} +
          keyBlocks es + N) by abel)
      refine (Heap.free_yields hfree).bind fun _ h₂ hM₂ => .pure ?_
      refine ⟨a', cells.take n ++ List.replicate (n - cells.length) none,
        es ++ List.replicate (v - cells.length) none, rfl, hM₂.of_eq ?_, length_resized _ n, ?_, ?_⟩
      · simp
      · rw [take_resized _ hv, hcells]
        simp
      · rw [take_resized _ hv, hentries, hlength]
        simp

/-- The end of `hashmap_put`. -/
theorem fillLast_yields
    (hM : h.Is ({(p, .map ⟨n, 256, some t⟩)} + ({(t, .table table)} +
      ({(a, .values cells)} + keyBlocks es + rest))))
    (hlen : v < cells.length) :
    (InHeap.hashmapFillLast alloc (some p) ⟨v + 1, vroom, some a⟩ key value).Yields h fun _ h' =>
      ∃ e : OwnedEntry, e.entry = ⟨if alloc.strdup then some key else none, value⟩ ∧
        h'.Is ({(p, .map ⟨(n + 1) % 2 ^ 64, 256, some t⟩)} + ({(t, .table table)} +
          ({(a, .values (cells.set v (some e.cell)))} + keyBlocks (es ++ [some e]) + rest))) := by
  refine (loadValues_yields hM (show (a, HashmapBlock.values cells) ∈ _ by simp)).bind ?_
  rintro _ _ ⟨rfl, rfl⟩
  rw [if_pos ⟨Nat.succ_pos v, hlen⟩]
  have hkey : (Heap.malloc alloc.strdup (.key key)).Yields h fun k h' => ∃ e : OwnedEntry,
      e.entry = ⟨if alloc.strdup then some key else none, value⟩ ∧ e.cell = ⟨k, value⟩ ∧
        h'.Is ({(a, .values cells)} + ({(p, .map ⟨n, 256, some t⟩)} + ({(t, .table table)} +
          (keyBlocks (es ++ [some e]) + rest)))) := by
    cases alloc.strdup with
    | true =>
      refine (Heap.malloc_yields hM _).mono ?_
      rintro _ h' ⟨b, rfl, hM'⟩
      refine ⟨⟨some (b, key), value⟩, rfl, rfl, hM'.of_eq ?_⟩
      simp only [keyBlocks_append, keyBlocks_cons, keyBlocks_nil, Option.bind_some, keyBlock]
      abel
    | false =>
      refine (Heap.malloc_false_yields _).mono ?_
      rintro _ _ ⟨rfl, rfl⟩
      refine ⟨⟨none, value⟩, rfl, rfl, hM.of_eq ?_⟩
      simp only [keyBlocks_append, keyBlocks_cons, keyBlocks_nil, Option.bind_some, keyBlock]
      abel
  refine hkey.bind ?_
  rintro k h₁ ⟨e, hentry, hcell, hM₁⟩
  refine (Heap.store_yields hM₁ _).bind fun _ h₂ hM₂ => ?_
  have hmap := hM₂.of_eq (show _ = {(p, .map ⟨n, 256, some t⟩)} + ({(t, .table table)} +
    ({(a, .values (cells.set v (some e.cell)))} + keyBlocks (es ++ [some e]) + rest)) by
      rw [hcell]
      show {(a, HashmapBlock.values (cells.set v (some ⟨k, value⟩)))} + _ = _
      abel)
  refine (loadMap_yields hmap).bind ?_
  rintro _ _ ⟨rfl, rfl⟩
  exact (Heap.store_yields hmap _).mono fun _ h₃ hM₃ => ⟨e, hentry, hM₃⟩

/-- What the end of `hashmap_put` does to a map as a value. -/
theorem hashmapFillLast_cases {hash : Fin 256} {hel : HashmapEntryList}
    (hfill : hashmapFillLast alloc m hash hel key value = some m') :
    ∃ cells', hel.values = .block cells' ∧ 0 < hel.vlen ∧ hel.vlen ≤ cells'.length ∧
      m' = { m.setBucket hash { hel with
          values := .block (cells'.set (hel.vlen - 1)
            (some ⟨if alloc.strdup then some key else none, value⟩)) } with
        numEntry := (m.numEntry + 1) % 2 ^ 64 } := by
  rw [hashmapFillLast] at hfill
  split at hfill
  · next cells' hvalues =>
    split at hfill
    · next hlen =>
      cases hfill
      exact ⟨cells', hvalues, hlen.1, hlen.2, rfl⟩
    · cases hfill
  · cases hfill
  · cases hfill

/-- The end of `hashmap_put`, with the array that the bucket has then. -/
theorem Hole.fillLast_yields {hash : Fin 256} (hole : Hole p t m table hash frame rest)
    (htable : table hash = ⟨v + 1, vroom, some a⟩)
    (hM : h.Is ({(p, .map ⟨m.numEntry, 256, some t⟩)} + ({(t, .table table)} +
      ({(a, .values cells)} + keyBlocks es + rest))))
    (hlength : cells'.length = cells.length)
    (hcells : cells.take v = es.map (Option.map OwnedEntry.cell))
    (hentries : cells'.take v = es.map (Option.map OwnedEntry.entry))
    (hroom : cells.length ≤ vroom ∨ cells.length < v) (hlt : v + 1 < 2 ^ 16)
    (hfill : hashmapFillLast alloc m hash ⟨v + 1, vroom, .block cells'⟩ key value = some m') :
    (InHeap.hashmapFillLast alloc (some p) ⟨v + 1, vroom, some a⟩ key value).Yields h
      fun _ h' => MapAt p m' frame h' := by
  obtain ⟨cells₁, hcells₁, -, hlen, rfl⟩ := hashmapFillLast_cases hfill
  cases hcells₁
  have hlen' : v < cells.length := hlength ▸ hlen
  refine (MinervaBot.fillLast_yields hM hlen').mono ?_
  rintro _ h₁ ⟨e, hentry, hM₁⟩
  rw [← Function.update_eq_self hash table, htable] at hM₁
  refine hole.fill ⟨rfl, rfl, hlt, .block a (by simpa using hlength) ?_ ?_ (.inl ?_)⟩ hM₁
  · rw [take_set_last hlen', hcells]
    simp
  · rw [← hentry, Nat.add_sub_cancel, take_set_last hlen, hentries]
    simp
  · rw [List.length_set]
    exact hroom.resolve_right (by omega)

/-- The blocks of a bucket, before or behind those of the map around it. -/
theorem blocks_swap (X Y B R : Blocks HashmapBlock) : X + (Y + (B + R)) = B + (X + (Y + R)) := by
  abel

/-- `hashmap_put` on the heap. -/
theorem MapAt.put_yields (hm : MapAt p m frame h) (hput : hashmapPut alloc m key value = some m') :
    (InHeap.hashmapPut alloc (some p) key value).Yields h fun _ h' => MapAt p m' frame h' := by
  obtain ⟨t, table, B, rest, hM, ⟨hvlen, hvroom, hlt, hvalues⟩, hole⟩ := hm.focus (hashOf key)
  refine (getBucket_yields hM _).bind ?_
  rintro _ _ ⟨rfl, rfl⟩
  refine (setBucket_yields hM _ _).bind fun _ h₁ hM₁ => ?_
  generalize table (hashOf key) = hel at *
  rcases hel with ⟨v, vroom, ptr⟩
  rw [hashmapPut, hvlen, hvroom] at hput
  dsimp only at *
  -- The length has wrapped to `0`, which leaves no entry to fill, or it is one more.
  have hwrap : v + 1 < 2 ^ 16 := by
    by_contra hge
    have hzero : (v + 1) % 2 ^ 16 = 0 := by omega
    rw [hzero, if_neg (Nat.not_lt_zero _)] at hput
    obtain ⟨-, -, hpos, -⟩ := hashmapFillLast_cases hput
    exact absurd hpos (Nat.lt_irrefl 0)
  rw [Nat.mod_eq_of_lt hwrap] at hput hM₁ ⊢
  split at hput
  · next hfull =>
    rw [if_pos hfull]
    refine (setBucket_yields hM₁ _ _).bind fun _ h₂ hM₂ => ?_
    rw [Function.update_idem] at hM₂
    have hB := hM₂.of_eq (blocks_swap _ _ _ _)
    split at hput
    · cases hput
    · next values' hrealloc =>
      cases hput
      refine (realloc_null_yields hvalues hB (by omega) hrealloc).bind ?_
      rintro _ h₃ ⟨rfl, B', hB', hvalues'⟩
      exact .pure (hole.fill ⟨rfl, rfl, hwrap, hvalues' _⟩ (hB'.of_eq (blocks_swap _ _ _ _).symm))
    · next values' cells' hrealloc =>
      obtain ⟨hlength, hyields⟩ := realloc_block_yields hvalues hB hrealloc
      obtain ⟨cells₁, hcells₁, -, hlen, -⟩ := hashmapFillLast_cases hput
      cases hcells₁
      rw [hlength] at hlen
      refine (hyields (Nat.le_of_lt hlen)).bind ?_
      rintro _ h₃ ⟨a, cells, es, rfl, hB', hlength', hcells, hentries⟩
      refine (setBucket_yields (hB'.of_eq (blocks_swap _ _ _ _).symm) _ _).bind fun _ h₄ hM₄ => ?_
      rw [Function.update_idem] at hM₄
      exact (hole.update _).fillLast_yields (Function.update_self ..) hM₄
        (hlength.trans hlength'.symm) hcells hentries (.inl (Nat.le_of_eq hlength')) hwrap hput
  · next hroom =>
    rw [if_neg hroom]
    obtain ⟨cells', hcells', -, hlen, -⟩ := hashmapFillLast_cases hput
    dsimp only at hcells' hlen
    rw [hcells'] at hput hvalues
    cases hvalues with
    | @block a cells _ es hlength hcells hentries hroom' =>
      exact (hole.update _).fillLast_yields (Function.update_self ..) hM₁ hlength hcells hentries hroom'
        hwrap hput

end

/-! ## The beginning and the end -/

section
variable {p a : Nat} {m m' : Hashmap} {cells : List (Option EntryCell)}
  {M N frame : Blocks HashmapBlock} {h : Heap HashmapBlock}

/-- `hashmap_new` on the heap. -/
theorem new_yields (hM : h.Is M) (hnew : hashmapNew true = some m) :
    (InHeap.hashmapNew true true).Yields h fun ptr h' => ∃ p, ptr = some p ∧ MapAt p m M h' := by
  cases hnew
  refine (Heap.malloc_yields hM _).bind ?_
  rintro _ h₁ ⟨p, rfl, hM₁⟩
  refine (Heap.malloc_yields hM₁ _).bind ?_
  rintro _ h₂ ⟨t, rfl, hM₂⟩
  rw [if_neg (by simp)]
  refine (Heap.store_yields (hM₂.of_eq (add_left_comm _ _ _)) _).bind fun _ h₃ hM₃ => ?_
  have hnull : BucketRep {} {} 0 := ⟨rfl, rfl, Nat.two_pow_pos 16, .null⟩
  exact .pure ⟨p, rfl, rfl, t, fun _ => {}, fun _ => 0, hM₃.of_eq (by simp), fun _ => hnull⟩

/-- A `hashmap_new` that fails leaves what was there. -/
theorem new_null_yields {callocMap callocBuckets : Bool} (hM : h.Is M)
    (hfails : (callocMap && callocBuckets) = false) :
    (InHeap.hashmapNew callocMap callocBuckets).Yields h fun ptr h' => ptr = none ∧ h'.Is M := by
  cases callocMap with
  | false =>
    refine (Heap.malloc_false_yields _).bind ?_
    rintro _ _ ⟨rfl, rfl⟩
    cases callocBuckets with
    | false =>
      refine (Heap.malloc_false_yields _).bind ?_
      rintro _ _ ⟨rfl, rfl⟩
      exact ⟨none, h, rfl, rfl, hM⟩
    | true =>
      refine (Heap.malloc_yields hM _).bind ?_
      rintro _ h₁ ⟨t, rfl, hM₁⟩
      rw [if_pos (.inl rfl)]
      refine Heap.free_null_yields.bind ?_
      rintro _ _ rfl
      exact (Heap.free_yields hM₁).bind fun _ h₂ hM₂ => .pure ⟨rfl, hM₂⟩
  | true =>
    cases callocBuckets with
    | true => cases hfails
    | false =>
      refine (Heap.malloc_yields hM _).bind ?_
      rintro _ h₁ ⟨q, rfl, hM₁⟩
      refine (Heap.malloc_false_yields _).bind ?_
      rintro _ _ ⟨rfl, rfl⟩
      rw [if_pos (.inr rfl)]
      refine (Heap.free_yields hM₁).bind fun _ h₂ hM₂ => ?_
      refine Heap.free_null_yields.bind ?_
      rintro _ _ rfl
      exact .pure ⟨rfl, hM₂⟩

/-- The inner loop of `hashmap_empty` frees the keys. -/
theorem freeKeys_yields {es : List OwnedEntry} {j : Nat}
    (hM : h.Is (keyBlocks (es.map some) + ({(a, .values cells)} + N)))
    (hcells : ∀ k e, es[k]? = some e → cells[j + k]?.join = some e.cell) :
    (InHeap.freeKeys (some a) es.length j).Yields h fun _ h' =>
      h'.Is ({(a, .values cells)} + N) := by
  induction es generalizing j h with
  | nil => exact .pure (hM.of_eq (zero_add _))
  | cons e es ih =>
    refine (getEntry_yields hM (by simp) (hcells 0 e rfl)).bind ?_
    rintro _ _ ⟨rfl, rfl⟩
    rw [List.map_cons, keyBlocks_cons, add_assoc] at hM
    refine (freeKey_yields hM).bind fun _ h₁ hM₁ => ih hM₁ fun k e' hk => ?_
    rw [Nat.add_assoc, Nat.add_comm 1 k]
    exact hcells (k + 1) e' hk

/-- A list without holes. -/
theorem exists_map_some {α : Type} {xs : List (Option α)} (h : ∀ o ∈ xs, o.isSome) :
    ∃ ys : List α, xs = ys.map some := by
  induction xs with
  | nil => exact ⟨[], rfl⟩
  | cons o xs ih =>
    obtain ⟨y, rfl⟩ := Option.isSome_iff_exists.1 (h o (List.mem_cons_self ..))
    obtain ⟨ys, rfl⟩ := ih fun o' ho => h o' (List.mem_cons_of_mem _ ho)
    exact ⟨y :: ys, rfl⟩

/-- The entries of a bucket whose keys may be freed. -/
theorem exists_entries {v : Nat} {cells' : List (Option HashmapEntry)}
    {es : List (Option OwnedEntry)} (hcells : cells.take v = es.map (Option.map OwnedEntry.cell))
    (hentries : cells'.take v = es.map (Option.map OwnedEntry.entry))
    (hread : ∀ j < v, ((Values.block cells').read j).isSome) :
    ∃ es' : List OwnedEntry, es = es'.map some ∧ es'.length = v ∧
      ∀ k e, es'[k]? = some e → cells[0 + k]?.join = some e.cell := by
  have howned : ∀ j < v, ∃ e, es[j]? = some (some e) ∧ cells[j]?.join = some e.cell := fun j hj => by
    obtain ⟨he, hhe⟩ := Option.isSome_iff_exists.1 (hread j hj)
    obtain ⟨e, hes, -, hcell⟩ := exists_owned hcells hentries hj hhe
    exact ⟨e, hes, hcell⟩
  have hle : es.length ≤ v := by
    have hlen := congrArg List.length hentries
    rw [List.length_take, List.length_map] at hlen
    omega
  have hlen : es.length = v := by
    rcases Nat.lt_or_ge es.length v with hlt | hge
    · obtain ⟨e, hes, -⟩ := howned _ hlt
      rw [List.getElem?_eq_none (Nat.le_refl _)] at hes
      cases hes
    · omega
  have hsome : ∀ o ∈ es, o.isSome := fun o ho => by
    obtain ⟨j, hj, rfl⟩ := List.mem_iff_getElem.1 ho
    obtain ⟨e, hes, -⟩ := howned j (hlen ▸ hj)
    rw [List.getElem?_eq_getElem hj] at hes
    rw [Option.some.inj hes]
    rfl
  obtain ⟨es, rfl⟩ := exists_map_some hsome
  rw [List.length_map] at hlen
  refine ⟨es, rfl, hlen, fun k e hk => ?_⟩
  obtain ⟨e', hes, hcell⟩ := howned k (hlen ▸ (List.getElem?_eq_some_iff.1 hk).1)
  rw [List.getElem?_map, hk] at hes
  cases hes
  rwa [Nat.zero_add]

/-- `hashmap_empty` on a bucket: the keys and the array are freed. -/
theorem emptyBucket_yields {hel : BucketCell} {hel' : HashmapEntryList} {B : Blocks HashmapBlock}
    (hrep : BucketRep hel hel' B) (hM : h.Is (B + N)) (hfree : hel'.freeable = true) :
    (InHeap.freeKeys hel.values hel.vlen 0).Yields h fun _ h₁ =>
      (Heap.free hel.values).Yields h₁ fun _ h' => h'.Is N := by
  obtain ⟨hvlen, -, -, hvalues⟩ := hrep
  simp only [HashmapEntryList.freeable, Bool.and_eq_true, bne_iff_ne, List.all_eq_true,
    List.mem_range, hvlen] at hfree
  rcases hel with ⟨vlen, vroom, ptr⟩
  generalize hel'.values = values at *
  cases hvalues with
  | null =>
    cases vlen with
    | zero =>
      refine .pure (Heap.free_null_yields.mono ?_)
      rintro _ _ rfl
      exact hM.of_eq (zero_add _)
    | succ vlen => cases hfree.2 0 (Nat.succ_pos _)
  | freed => exact absurd rfl hfree.1
  | @block a cells cells' es hlength hcells hentries hroom =>
    obtain ⟨es, rfl, rfl, hat⟩ := exists_entries hcells hentries hfree.2
    refine (freeKeys_yields (hM.of_eq ?_) hat).mono fun _ h₁ hM₁ => Heap.free_yields hM₁
    abel

/-- The outer loop of `hashmap_empty` empties the buckets that it visits. -/
theorem MapAt.emptyFrom_yields {is : List (Fin 256)} (hm : MapAt p m frame h)
    (hfree : ∀ i ∈ is, (m.buckets i).freeable = true) :
    (InHeap.hashmapEmptyFrom (some p) is).Yields h fun _ h' =>
      MapAt p { m with buckets := fun i => if i ∈ is then {} else m.buckets i } frame h' := by
  induction is generalizing m h with
  | nil => exact .pure hm
  | cons i is ih =>
    obtain ⟨t, table, B, rest, hM, hrep, hole⟩ := hm.focus i
    have hempty := emptyBucket_yields hrep (hM.of_eq (blocks_swap _ _ _ _))
      (hfree i (List.mem_cons_self ..))
    refine (getBucket_yields hM _).bind ?_
    rintro _ _ ⟨rfl, rfl⟩
    refine hempty.bind fun _ h₁ hfreed => hfreed.bind fun _ h₂ hM₂ => ?_
    refine (setBucket_yields hM₂ i {}).bind fun _ h₃ hM₃ => ?_
    have hnull : BucketRep {} {} 0 := ⟨rfl, rfl, Nat.two_pow_pos 16, .null⟩
    have hm₃ := hole.fill hnull (hM₃.of_eq (by rw [zero_add]))
    refine (ih hm₃ fun j hj => ?_).mono fun _ h₄ hm₄ => ?_
    · rcases eq_or_ne j i with rfl | hne
      · rw [Hashmap.setBucket]
        dsimp only
        rw [Function.update_self]
        rfl
      · rw [Hashmap.setBucket]
        dsimp only
        rw [Function.update_of_ne hne]
        exact hfree j (List.mem_cons_of_mem _ hj)
    · have hbuckets : (fun j => if j ∈ i :: is then {} else m.buckets j) = fun j =>
          if j ∈ is then {} else (m.setBucket i {}).buckets j := by
        funext j
        rcases eq_or_ne j i with rfl | hne
        · simp [Hashmap.setBucket]
        · simp [Hashmap.setBucket, hne]
      rw [hbuckets]
      exact hm₄

/-- The loops visit the buckets below `bucketsize`. -/
theorem Hashmap.mem_indices {i : Fin 256} : i ∈ m.indices ↔ i.val < m.bucketsize := by
  simp [Hashmap.indices]

/-- `hashmap_empty` on the heap. -/
theorem MapAt.empty_yields (hm : MapAt p m frame h) (hempty : hashmapEmpty m = some m') :
    (InHeap.hashmapEmpty (some p)).Yields h fun _ h' => MapAt p m' frame h' := by
  rw [hashmapEmpty] at hempty
  split at hempty
  case isFalse => cases hempty
  next hfree =>
  cases hempty
  refine hm.indices_yields.bind ?_
  rintro _ _ ⟨rfl, rfl⟩
  refine (hm.emptyFrom_yields (List.all_eq_true.1 hfree)).mono fun _ h₁ hm₁ => ?_
  simpa only [Hashmap.mem_indices] using hm₁

/-- `hashmap_destroy` on the heap: what is left are the blocks beside those of the map. -/
theorem MapAt.destroy_yields (hm : MapAt p m frame h) (hempty : (hashmapEmpty m).isSome = true) :
    (InHeap.hashmapDestroy (some p)).Yields h fun _ h' => h'.Is frame := by
  obtain ⟨m', hm'⟩ := Option.isSome_iff_exists.1 hempty
  refine (hm.empty_yields hm').bind ?_
  rintro _ h₁ ⟨hsize, t, table, parts, hM, hparts⟩
  have hnone : ∀ i, parts i = 0 := fun i => by
    have hbucket : m'.buckets i = {} := by
      rw [hashmapEmpty] at hm'
      split at hm'
      · cases hm'
        exact if_pos (by rw [hm.1]; exact i.isLt)
      · cases hm'
    have hvalues := (hparts i).values
    rw [hbucket] at hvalues
    generalize (table i).values = ptr, parts i = B at hvalues ⊢
    cases hvalues with
    | null => rfl
  rw [Finset.sum_congr rfl fun i _ => hnone i, Finset.sum_const_zero, zero_add] at hM
  refine (loadMap_yields hM).bind ?_
  rintro _ _ ⟨rfl, rfl⟩
  exact (Heap.free_yields (hM.of_eq (add_left_comm _ _ _))).bind fun _ h₂ hM₂ =>
    Heap.free_yields hM₂

end

end MinervaBot
