import MinervaBot.Crc8

/-!
# The hash map

`hashmap.c`: 256 buckets, each an array of key/value entries that grows by doubling and is searched
from the front. `vlen` and `vroom` are `unsigned short`, so their arithmetic is modulo `2 ^ 16`.
`Values` is the `values` pointer with the block behind it: a cell is `none` while it is
indeterminate, and a use of memory that the map does not own (a freed block, an index out of the
block, an indeterminate cell) makes an operation undefined, which the model answers with `none`. One
access is left out of this: the `memcpy` of `hashmap_remove` reads the entry behind the last one,
and where the block is full, that entry lies behind it. Here it counts as indeterminate, so that a
removal goes on; `removeInBounds_iff` says in which runs no such entry is read. Operations that
allocate take the outcomes of their allocations (`Alloc`).
-/

namespace MinervaBot

open Lib

/-- `hashmap_entry`. The key is `none` where `strdup` returned `NULL`. -/
structure HashmapEntry where
  key : Option CString
  value : Int
  deriving DecidableEq

/-- The pointer `values` of a bucket, with the cells of the block it points to. -/
inductive Values where
  | null
  | freed
  | block (cells : List (Option HashmapEntry))
  deriving DecidableEq

/-- `hashmap_entry_list`. -/
structure HashmapEntryList where
  vlen : Nat := 0
  vroom : Nat := 0
  values : Values := .null
  deriving DecidableEq

/-- `hashmap`. -/
structure Hashmap where
  numEntry : Nat
  bucketsize : Nat
  buckets : Fin 256 → HashmapEntryList

/-- The outcomes of the `realloc` (of a nonzero size) and the `strdup` of an operation. -/
structure Alloc where
  realloc : Bool
  strdup : Bool
  deriving DecidableEq

/-- Every allocation succeeds. -/
def Alloc.ok : Alloc := ⟨true, true⟩

/-- The bucket of a key, `crc8_block(key, strlen(key))`. -/
def hashOf (key : CString) : Fin 256 :=
  ⟨(crc8Block key.bytes).toNat, crc8Block_lt key.bytes⟩

/-- Replace one bucket. -/
def Hashmap.setBucket (m : Hashmap) (i : Fin 256) (hel : HashmapEntryList) : Hashmap :=
  { m with buckets := Function.update m.buckets i hel }

/-- Read `values[i]`. -/
def Values.read : Values → Nat → Option HashmapEntry
  | .block cells, i => cells[i]?.join
  | .null, _ | .freed, _ => none

/-- `hashmap_new`; `NULL` when a `calloc` fails. -/
def hashmapNew (calloc : Bool) : Option Hashmap :=
  if calloc then some { numEntry := 0, bucketsize := 256, buckets := fun _ => {} } else none

/-- `realloc(p, n * sizeof(hashmap_entry))`: what `p` points to afterwards, and the block returned,
`none` for `NULL`. For `n = 0` it frees `p` and returns `NULL`. -/
def reallocValues (ok : Bool) (p : Values) (n : Nat) :
    Option (Values × Option (List (Option HashmapEntry))) :=
  match p with
  | .freed => none
  | .null => if ok then some (.null, some (List.replicate n none)) else some (.null, none)
  | .block cells =>
    if n = 0 then some (.freed, none)
    else if ok then some (.freed, some (cells.take n ++ List.replicate (n - cells.length) none))
    else some (.block cells, none)

/-- The end of `hashmap_put`: fill `values[vlen - 1]` and count the entry. -/
def hashmapFillLast (alloc : Alloc) (m : Hashmap) (hash : Fin 256) (hel : HashmapEntryList)
    (key : CString) (value : Int) : Option Hashmap :=
  match hel.values with
  | .block cells =>
    if 0 < hel.vlen ∧ hel.vlen ≤ cells.length then
      let he : HashmapEntry := ⟨if alloc.strdup then some key else none, value⟩
      let m := m.setBucket hash { hel with values := .block (cells.set (hel.vlen - 1) (some he)) }
      some { m with numEntry := (m.numEntry + 1) % 2 ^ 64 }
    else none
  | .null | .freed => none

/-- `hashmap_put`. -/
def hashmapPut (alloc : Alloc) (m : Hashmap) (key : CString) (value : Int) : Option Hashmap :=
  let hash := hashOf key
  let hel := m.buckets hash
  let hel := { hel with vlen := (hel.vlen + 1) % 2 ^ 16 }
  if hel.vroom < hel.vlen then
    let hel := { hel with vroom := (if hel.vroom = 0 then 4 else hel.vroom * 2) % 2 ^ 16 }
    match reallocValues alloc.realloc hel.values hel.vroom with
    | none => none
    | some (values, none) => some (m.setBucket hash { hel with values })
    | some (_, some he) => hashmapFillLast alloc m hash { hel with values := .block he } key value
  else hashmapFillLast alloc m hash hel key value

/-- The search loop of `hashmap_remove` and `hashmap_get`, at index `i` with `n` entries to go: the
index found, if any. -/
def hashmapFind (values : Values) (key : CString) : Nat → Nat → Option (Option Nat)
  | 0, _ => some none
  | n + 1, i =>
    match values.read i with
    | some ⟨some k, _⟩ => if key = k then some (some i) else hashmapFind values key n (i + 1)
    | _ => none

/-- The `memcpy` of `hashmap_remove`, copying as `memmove` does: cell `j + 1` to cell `j` for
`i ≤ j < vlen`. In a full block the last of them lies behind the block: where C leaves the read
undefined, the copy is an indeterminate cell, behind the entries that are left. -/
def Values.moveDown (values : Values) (i vlen : Nat) : Option Values :=
  match values with
  | .block cells =>
    if vlen ≤ cells.length then
      some (.block (cells.mapIdx fun j c => if i ≤ j ∧ j < vlen then cells[j + 1]?.join else c))
    else none
  | .null | .freed => none

/-- `hashmap_remove`. -/
def hashmapRemove (m : Hashmap) (key : CString) : Option (Int × Hashmap) :=
  let hash := hashOf key
  let hel := m.buckets hash
  match hashmapFind hel.values key hel.vlen 0 with
  | none => none
  | some none => some (0, m)
  | some (some i) =>
    match hel.values.read i, hel.values.moveDown i hel.vlen with
    | some he, some values =>
      some (he.value, m.setBucket hash { hel with vlen := hel.vlen - 1, values })
    | _, _ => none

/-- `hashmap_get`. -/
def hashmapGet (m : Hashmap) (key : CString) : Option Int :=
  let hel := m.buckets (hashOf key)
  match hashmapFind hel.values key hel.vlen 0 with
  | none => none
  | some none => some 0
  | some (some i) => (hel.values.read i).map (·.value)

/-- The buckets that the loops over `i < bucketsize` visit, in order. -/
def Hashmap.indices (m : Hashmap) : List (Fin 256) :=
  (List.finRange 256).filter (·.val < m.bucketsize)

/-- The inner loop of `hashmap_iterate`, at index `j` with `n` entries to go. A callback is a
function of its context and of the string that the key points to. -/
def hashmapIterateBucket {σ : Type} (iter : σ → CString → Int → Int × σ) (values : Values) :
    Nat → Nat → σ → Option (Int × σ)
  | 0, _, c => some (0, c)
  | n + 1, j, c =>
    match values.read j with
    | some ⟨some k, v⟩ =>
      if (iter c k v).1 ≠ 0 then some (-1, (iter c k v).2)
      else hashmapIterateBucket iter values n (j + 1) (iter c k v).2
    | _ => none

/-- The outer loop of `hashmap_iterate` over the buckets to go. -/
def hashmapIterateFrom {σ : Type} (m : Hashmap) (iter : σ → CString → Int → Int × σ) :
    List (Fin 256) → σ → Option (Int × σ)
  | [], c => some (0, c)
  | i :: is, c =>
    match hashmapIterateBucket iter (m.buckets i).values (m.buckets i).vlen 0 c with
    | none => none
    | some (ret, c') => if ret ≠ 0 then some (-1, c') else hashmapIterateFrom m iter is c'

/-- `hashmap_iterate`. -/
def hashmapIterate {σ : Type} (m : Hashmap) (iter : σ → CString → Int → Int × σ) (context : σ) :
    Option (Int × σ) :=
  hashmapIterateFrom m iter m.indices context

/-- `hashmap_empty` may free the keys and the array of a bucket. -/
def HashmapEntryList.freeable (hel : HashmapEntryList) : Bool :=
  hel.values != .freed && (List.range hel.vlen).all fun j => (hel.values.read j).isSome

/-- `hashmap_empty`. -/
def hashmapEmpty (m : Hashmap) : Option Hashmap :=
  if m.indices.all fun i => (m.buckets i).freeable then
    some { m with buckets := fun i => if i.val < m.bucketsize then {} else m.buckets i }
  else none

end MinervaBot
