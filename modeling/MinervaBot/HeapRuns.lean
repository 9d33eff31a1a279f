import MinervaBot.HashmapHeap
import MinervaBot.HashmapRemove
import MinervaBot.PermissionsGet

/-!
# What is left on the heap

Runs of the functions of `hashmap.c` on the heap, from `hashmap_new` to `hashmap_destroy`, and of
those of `permissions.c`, from `permissions_init` to `permissions_cleanup`. Where nothing is
undefined with values for the blocks, the heap in the end is the one from before
(`heapRun_restores`, `permissionsLife_restores`): nothing is left behind, nothing is freed twice,
and nothing is used that has been freed. With succeeding allocations this is so for as long as no
bucket holds more than 32768 entries, and the results are those of a table of queues
(`heapRun_queues`).
-/

namespace MinervaBot

open Lib

/-! ## Sequences of operations -/

section
variable {σ : Type}

/-- A call of an operation of the map, with the outcomes of its allocations. -/
def hashmapAllocStep (m : Hashmap) (call : Alloc × QueueTable.Op CString Int σ) :
    Option (Hashmap × QueueTable.Result Int σ) :=
  match call with
  | (alloc, .put key value) => (hashmapPut alloc m key value).map fun m' => (m', .done)
  | (_, op) => hashmapStep m op

namespace InHeap

/-- The call on the heap. -/
def hashmapCall (in' : Ptr) :
    Alloc × QueueTable.Op CString Int σ → HeapCall (QueueTable.Result Int σ)
  | (alloc, .put key value) => do
    hashmapPut alloc in' key value
    pure .done
  | (_, .remove key) => do
    let v ← hashmapRemove in' key
    pure (.value v)
  | (_, .get key) => do
    let v ← hashmapGet in' key
    pure (.value v)
  | (_, .iterate iter context) => do
    let r ← hashmapIterate in' iter context
    pure (.iterated r.1 r.2)
  | (_, .empty) => do
    hashmapEmpty in'
    pure .done

/-- The calls, one after another. -/
def hashmapCalls (in' : Ptr) :
    List (Alloc × QueueTable.Op CString Int σ) → HeapCall (List (QueueTable.Result Int σ))
  | [] => pure []
  | call :: calls => do
    let r ← hashmapCall in' call
    let rs ← hashmapCalls in' calls
    pure (r :: rs)

/-- A map from its beginning to its end. -/
def hashmapLife (calls : List (Alloc × QueueTable.Op CString Int σ)) :
    HeapCall (List (QueueTable.Result Int σ)) := do
  let in' ← hashmapNew true true
  let rs ← hashmapCalls in' calls
  hashmapDestroy in'
  pure rs

end InHeap

variable {p : Nat} {m m' : Hashmap} {frame : Blocks HashmapBlock} {h : Heap HashmapBlock}

/-- A call does on the heap what it does to the map as a value. -/
theorem MapAt.call_yields (hm : MapAt p m frame h) {call : Alloc × QueueTable.Op CString Int σ}
    {r : QueueTable.Result Int σ} (hstep : hashmapAllocStep m call = some (m', r)) :
    (InHeap.hashmapCall (some p) call).Yields h fun r' h' => r = r' ∧ MapAt p m' frame h' := by
  obtain ⟨alloc, op⟩ := call
  cases op with
  | put key value =>
    obtain ⟨m', hput, heq⟩ := Option.map_eq_some_iff.1 hstep
    cases heq
    exact (hm.put_yields hput).bind fun _ h₁ hm₁ => .pure ⟨rfl, hm₁⟩
  | remove key =>
    obtain ⟨⟨v, m'⟩, hremove, heq⟩ := Option.map_eq_some_iff.1 hstep
    cases heq
    refine (hm.remove_yields hremove).bind ?_
    rintro _ h₁ ⟨rfl, hm₁⟩
    exact .pure ⟨rfl, hm₁⟩
  | get key =>
    obtain ⟨v, hget, heq⟩ := Option.map_eq_some_iff.1 hstep
    cases heq
    refine (hm.get_yields hget).bind ?_
    rintro _ _ ⟨rfl, rfl⟩
    exact .pure ⟨rfl, hm⟩
  | iterate iter context =>
    obtain ⟨⟨ret, c⟩, hiter, heq⟩ := Option.map_eq_some_iff.1 hstep
    cases heq
    refine (hm.iterate_yields hiter).bind ?_
    rintro _ _ ⟨rfl, rfl⟩
    exact .pure ⟨rfl, hm⟩
  | empty =>
    obtain ⟨m', hempty, heq⟩ := Option.map_eq_some_iff.1 hstep
    cases heq
    exact (hm.empty_yields hempty).bind fun _ h₁ hm₁ => .pure ⟨rfl, hm₁⟩

/-- The rule for a run. Induction on the calls. -/
theorem MapAt.calls_yields {calls : List (Alloc × QueueTable.Op CString Int σ)}
    (hm : MapAt p m frame h) {rs : List (QueueTable.Result Int σ)}
    (hrun : runSteps hashmapAllocStep m calls = some (m', rs)) :
    (InHeap.hashmapCalls (some p) calls).Yields h fun rs' h' => rs = rs' ∧ MapAt p m' frame h' := by
  induction calls generalizing m h rs with
  | nil =>
    cases hrun
    exact .pure ⟨rfl, hm⟩
  | cons call calls ih =>
    obtain ⟨m₁, r, rs', hstep, hrest, rfl⟩ := runSteps_cons_inv hrun
    refine (hm.call_yields hstep).bind ?_
    rintro _ h₁ ⟨rfl, hm₁⟩
    refine (ih hm₁ hrest).bind ?_
    rintro _ h₂ ⟨rfl, hm₂⟩
    exact .pure ⟨rfl, hm₂⟩

/-- A map from its beginning to its end leaves the blocks that were there before. -/
theorem life_yields (hnew : hashmapNew true = some m)
    {calls : List (Alloc × QueueTable.Op CString Int σ)} {rs : List (QueueTable.Result Int σ)}
    (hrun : runSteps hashmapAllocStep m calls = some (m', rs))
    (hempty : (hashmapEmpty m').isSome = true) (hM : h.Is frame) :
    (InHeap.hashmapLife calls).Yields h fun rs' h' => rs = rs' ∧ h'.Is frame := by
  refine (new_yields hM hnew).bind ?_
  rintro _ h₁ ⟨p, rfl, hm₁⟩
  refine (hm₁.calls_yields hrun).bind ?_
  rintro _ h₂ ⟨rfl, hm₂⟩
  exact (hm₂.destroy_yields hempty).bind fun _ h₃ hM₃ => .pure ⟨rfl, hM₃⟩

/-- From `hashmap_new` to `hashmap_destroy`, whatever the allocations between them return: if
neither a call nor the freeing of the entries is undefined with values for the blocks, the calls do
the same on the heap, none of them is undefined there, and every block of theirs is gone in the end.
-/
theorem heapRun_restores (hnew : hashmapNew true = some m)
    {calls : List (Alloc × QueueTable.Op CString Int σ)} {rs : List (QueueTable.Result Int σ)}
    (hrun : runSteps hashmapAllocStep m calls = some (m', rs))
    (hempty : (hashmapEmpty m').isSome = true) (h : Heap HashmapBlock) :
    ∃ h', InHeap.hashmapLife calls h = (.returned rs, h') ∧ h'.block = h.block := by
  obtain ⟨M, hM⟩ := h.exists_is
  obtain ⟨_, h', hret, rfl, hM'⟩ := life_yields hnew hrun hempty hM
  exact ⟨h', hret, hM.block_eq hM'⟩

/-- Two values for a key, the second without its copy, and a removal. -/
def annCalls : List (Alloc × QueueTable.Op CString Int Unit) :=
  [(.ok, .put (CString.lit "ann") 1), (⟨true, false⟩, .put (CString.lit "ann") 2),
    (.ok, .remove (CString.lit "ann"))]

/-- A run of `annCalls` leaves the empty heap as it was. -/
theorem heapRun_restores_ann : ∃ m m' rs h', hashmapNew true = some m ∧
    runSteps hashmapAllocStep m annCalls = some (m', rs) ∧ (hashmapEmpty m').isSome = true ∧
    InHeap.hashmapLife annCalls Heap.empty = (.returned rs, h') ∧
    h'.block = (Heap.empty : Heap HashmapBlock).block := by
  obtain ⟨m, hm⟩ : ∃ m, hashmapNew true = some m := ⟨_, rfl⟩
  have hdefined : ((runSteps hashmapAllocStep m annCalls).bind fun r =>
      hashmapEmpty r.1).isSome = true := by
    cases hm
    decide +kernel
  obtain ⟨_, hr⟩ := Option.isSome_iff_exists.1 hdefined
  obtain ⟨⟨m', rs⟩, hrun, hempty⟩ := Option.bind_eq_some_iff.1 hr
  have hsome := Option.isSome_iff_exists.2 ⟨_, hempty⟩
  obtain ⟨h', hlife⟩ := heapRun_restores hm hrun hsome Heap.empty
  exact ⟨m, m', rs, h', hm, hrun, hsome, hlife⟩

/-- With succeeding allocations a call is one of `HashmapCorrect.lean`. -/
theorem hashmapAllocStep_ok (m : Hashmap) (op : QueueTable.Op CString Int σ) :
    hashmapAllocStep m (.ok, op) = hashmapStep m op := by
  cases op <;> rfl

/-- A run with succeeding allocations. -/
theorem runSteps_allocStep {ops : List (QueueTable.Op CString Int σ)}
    {rs : List (QueueTable.Result Int σ)} (hrun : runSteps hashmapStep m ops = some (m', rs)) :
    runSteps hashmapAllocStep m (ops.map (Alloc.ok, ·)) = some (m', rs) := by
  induction ops generalizing m rs with
  | nil => exact hrun
  | cons op ops ih =>
    obtain ⟨m₁, r, rs', hstep, hrest, rfl⟩ := runSteps_cons_inv hrun
    exact runSteps_cons ((hashmapAllocStep_ok m op).trans hstep) (ih hrest)

/-- With succeeding allocations, and while no bucket holds more than 32768 entries, the calls on the
heap return what a table of queues returns, and leave nothing behind. -/
theorem heapRun_queues (hnew : hashmapNew true = some m)
    (ops : List (QueueTable.Op CString Int σ))
    (hbound : EveryState hashmapStep m ops Hashmap.Bounded) (h : Heap HashmapBlock) :
    ∃ rs t h', Steps QueueTable.Step (fun _ => []) ops rs t ∧
      InHeap.hashmapLife (ops.map (Alloc.ok, ·)) h = (.returned rs, h') ∧ h'.block = h.block := by
  have hrep : m.Represents fun _ => [] := ⟨_, hashmapNew_rep hnew, by simp⟩
  obtain ⟨m', rs, t, hrun, hsteps, l, hrep', -⟩ :=
    simulates_runSteps hashmapStep_refines ops hrep hbound
  obtain ⟨m'', hempty, -⟩ := hrep'.empty
  obtain ⟨M, hM⟩ := h.exists_is
  obtain ⟨_, h', hret, rfl, hM'⟩ := life_yields hnew (runSteps_allocStep hrun)
    (Option.isSome_iff_exists.2 ⟨m'', hempty⟩) hM
  exact ⟨rs, t, h', hsteps, hret, hM.block_eq hM'⟩

/-- Two values for a key, a removal, and a lookup of what is left. -/
def annOps : List (QueueTable.Op CString Int Unit) :=
  [.put (CString.lit "ann") 1, .put (CString.lit "ann") 2, .remove (CString.lit "ann"),
    .get (CString.lit "ann")]

/-- On the heap the removal returns the first value and the lookup the second. -/
theorem heapRun_queues_ann : ∃ m t h', hashmapNew true = some m ∧
    Steps QueueTable.Step (fun _ => []) annOps [.done, .done, .value 1, .value 2] t ∧
    InHeap.hashmapLife (annOps.map (Alloc.ok, ·)) Heap.empty =
      (.returned [.done, .done, .value 1, .value 2], h') ∧
    h'.block = (Heap.empty : Heap HashmapBlock).block := by
  obtain ⟨m, hm⟩ : ∃ m, hashmapNew true = some m := ⟨_, rfl⟩
  obtain ⟨rs, t, h', hsteps, hlife, hblock⟩ :=
    heapRun_queues hm annOps (everyState_bounded hm annOps (by decide)) Heap.empty
  have hrs : (InHeap.hashmapLife (annOps.map (Alloc.ok, ·)) Heap.empty).1 =
      .returned [.done, .done, .value 1, .value 2] := by
    decide +kernel
  rw [hlife] at hrs
  cases hrs
  exact ⟨m, t, h', hm, hsteps, hlife, hblock⟩

end

/-! ## The permissions -/

/-- The variables of `permissions.c`, with the heap that `perm_map` points into. -/
structure PermMemory where
  heap : Heap HashmapBlock
  permMap : Ptr
  locked : Bool
  pbuf : Mem

/-- A call of `permissions.c`. -/
inductive PermCall where
  | set (alloc : Alloc) (host : CString) (level : Int)
  | get (host : Option CString)

/-- The call with values for the blocks; what a lookup returns. -/
def permCall : PermCall → Exec PermState (Option Int)
  | .set alloc host level => do
    permissionsSet alloc host level
    pure none
  | .get host => do
    let perm ← permissionsGet host
    pure (some perm)

/-- Calls one after another. -/
def permCalls : List PermCall → Exec PermState (List (Option Int))
  | [] => pure []
  | call :: calls => do
    let r ← permCall call
    let rs ← permCalls calls
    pure (r :: rs)

namespace InHeap

/-- A call of `hashmap.c` among the variables of `permissions.c`. -/
def onHeap {α : Type} (x : HeapCall α) : Exec PermMemory α :=
  Exec.zoom PermMemory.heap (fun s h => { s with heap := h }) x

/-- `pthread_mutex_lock(&permissions_mutex)`. -/
def permissionsLock : Exec PermMemory Unit := do
  let s ← Exec.get
  if s.locked then Exec.block else Exec.modify fun s => { s with locked := true }

/-- `pthread_mutex_unlock(&permissions_mutex)`. -/
def permissionsUnlock : Exec PermMemory Unit :=
  Exec.modify fun s => { s with locked := false }

/-- `hashmap_get(perm_map, host)`. -/
def permMapGet (host : CString) : Exec PermMemory Int := do
  let s ← Exec.get
  onHeap (hashmapGet s.permMap host)

/-- `hashmap_remove(perm_map, host)`. -/
def permMapRemove (host : CString) : Exec PermMemory Unit := do
  let s ← Exec.get
  let _ ← onHeap (hashmapRemove s.permMap host)
  pure ()

/-- `hashmap_put(perm_map, host, level)`. -/
def permMapPut (alloc : Alloc) (host : CString) (level : Int) : Exec PermMemory Unit := do
  let s ← Exec.get
  onHeap (hashmapPut alloc s.permMap host level)

/-- `pbuf[i] = c`. -/
def pbufWrite (i : Int) (c : UInt8) : Exec PermMemory Unit :=
  Exec.modify fun s => { s with pbuf := s.pbuf.write i c }

/-- `memcpy(pbuf, b, |b|)`. -/
def pbufCopy (b : List UInt8) : Exec PermMemory Unit :=
  Exec.modify fun s => { s with pbuf := s.pbuf.copy 0 b }

/-- `hashmap_get(perm_map, pbuf)`. -/
def permMapGetPbuf : Exec PermMemory Int := do
  let s ← Exec.get
  permMapGet (s.pbuf.cstr 0 130)

/-- `permissions_init`. -/
def permissionsInit (callocMap callocBuckets : Bool) (alloc : Alloc) (ownerHost : Option CString) :
    Exec PermMemory Int := do
  let m ← onHeap (hashmapNew callocMap callocBuckets)
  Exec.modify fun s => { s with permMap := m }
  if m = none then pure (-1)
  else
    match ownerHost with
    | some host => do
      permMapPut alloc host 100000
      pure 0
    | none => pure 0

/-- `permissions_set`. -/
def permissionsSet (alloc : Alloc) (host : CString) (level : Int) : Exec PermMemory Unit := do
  permissionsLock
  let perm ← permMapGet host
  if perm ≠ 0 then permMapRemove host
  permMapPut alloc host level
  permissionsUnlock

/-- The loop of `permissions_get`, for `len + 1` as the argument. -/
def permissionsGetLoop : Nat → Exec PermMemory Int
  | 0 => permMapGetPbuf
  | len + 1 => do
    let perm ← permMapGetPbuf
    if perm ≠ 0 then
      return perm
    pbufWrite len 42
    pbufWrite (len + 1) 0
    permissionsGetLoop len

/-- `permissions_get`. -/
def permissionsGet (host : Option CString) : Exec PermMemory Int := do
  permissionsLock
  match host with
  | none => Exec.segv
  | some host =>
    if host.length > 128 then
      return 0
    pbufCopy (host.bytes ++ [0])
    let perm ← permissionsGetLoop (host.length + 1)
    permissionsUnlock
    return perm

/-- `permissions_cleanup`. -/
def permissionsCleanup : Exec PermMemory Unit := do
  let s ← Exec.get
  onHeap (hashmapDestroy s.permMap)

/-- The call on the heap. -/
def permCall : PermCall → Exec PermMemory (Option Int)
  | .set alloc host level => do
    permissionsSet alloc host level
    pure none
  | .get host => do
    let perm ← permissionsGet host
    pure (some perm)

/-- Calls one after another. -/
def permCalls : List PermCall → Exec PermMemory (List (Option Int))
  | [] => pure []
  | call :: calls => do
    let r ← permCall call
    let rs ← permCalls calls
    pure (r :: rs)

/-- The permissions from their beginning to their end, as `main` has them: with an error it gives up
at once. -/
def permissionsLife (callocMap callocBuckets : Bool) (alloc : Alloc) (ownerHost : Option CString)
    (calls : List PermCall) : Exec PermMemory (Int × List (Option Int)) := do
  let ret ← permissionsInit callocMap callocBuckets alloc ownerHost
  if ret ≠ 0 then pure (ret, [])
  else
    let rs ← permCalls calls
    permissionsCleanup
    pure (0, rs)

end InHeap

section
variable {frame : Blocks HashmapBlock}

/-- The variables with the map on the heap, and with the map as a value. -/
structure PermRep (frame : Blocks HashmapBlock) (s : PermState) (t : PermMemory) : Prop where
  map : ∃ p, t.permMap = some p ∧ MapAt p s.permMap frame t.heap
  locked : s.locked = t.locked
  pbuf : s.pbuf = t.pbuf

/-- `pthread_mutex_lock(&permissions_mutex)` with both maps. -/
theorem simulates_lock : Exec.Simulates (PermRep frame) permissionsLock InHeap.permissionsLock := by
  intro s t a s' hR hret
  obtain ⟨_, _, hget, hret⟩ := Exec.returned_of_bind hret
  cases hget
  split at hret
  · cases hret
  · next hfree =>
    cases hret
    rw [hR.locked] at hfree
    refine ⟨(), { t with locked := true }, ?_, rfl, hR.map, rfl, hR.pbuf⟩
    simp [InHeap.permissionsLock, Exec.bind_returned (Exec.get_apply t), hfree]

/-- `pthread_mutex_unlock(&permissions_mutex)` with both maps. -/
theorem simulates_unlock :
    Exec.Simulates (PermRep frame) permissionsUnlock InHeap.permissionsUnlock :=
  .modify fun _ _ hR => ⟨hR.map, rfl, hR.pbuf⟩

/-- A write to `pbuf` with both maps. -/
theorem simulates_pbufWrite (i : Int) (c : UInt8) :
    Exec.Simulates (PermRep frame) (pbufWrite i c) (InHeap.pbufWrite i c) :=
  .modify fun _ _ hR => ⟨hR.map, hR.locked, by rw [hR.pbuf]⟩

/-- The copy of the host to `pbuf` with both maps. -/
theorem simulates_pbufCopy (b : List UInt8) :
    Exec.Simulates (PermRep frame) (pbufCopy b) (InHeap.pbufCopy b) :=
  .modify fun _ _ hR => ⟨hR.map, hR.locked, by rw [hR.pbuf]⟩

/-- `hashmap_get` on `perm_map`, on the heap. -/
theorem simulates_permMapGet (host : CString) :
    Exec.Simulates (PermRep frame) (permMapGet host) (InHeap.permMapGet host) := by
  intro s t v s' hR hret
  obtain ⟨_, _, hget, hret⟩ := Exec.returned_of_bind hret
  cases hget
  obtain ⟨hmap, rfl⟩ := Exec.returned_of_ofOption hret
  obtain ⟨p, hp, hm⟩ := hR.map
  refine Exec.Yields.get.bind ?_
  rintro _ _ ⟨rfl, rfl⟩
  rw [hp]
  refine (hm.get_yields hmap).zoom ?_
  rintro _ _ ⟨rfl, rfl⟩
  exact ⟨rfl, hR⟩

/-- `hashmap_remove` on `perm_map`, on the heap. -/
theorem simulates_permMapRemove (host : CString) :
    Exec.Simulates (PermRep frame) (permMapRemove host) (InHeap.permMapRemove host) := by
  intro s t v s' hR hret
  obtain ⟨_, _, hget, hret⟩ := Exec.returned_of_bind hret
  cases hget
  obtain ⟨⟨v, m'⟩, _, hremove, hmodify⟩ := Exec.returned_of_bind hret
  obtain ⟨hmap, rfl⟩ := Exec.returned_of_ofOption hremove
  cases hmodify
  obtain ⟨p, hp, hm⟩ := hR.map
  refine Exec.Yields.get.bind ?_
  rintro _ _ ⟨rfl, rfl⟩
  rw [hp]
  have hheap : (InHeap.onHeap (InHeap.hashmapRemove (some p) host)).Yields t fun _ t' =>
      PermRep frame { s with permMap := m' } t' :=
    (hm.remove_yields hmap).zoom fun _ h₁ hm₁ => ⟨⟨p, hp, hm₁.2⟩, hR.locked, hR.pbuf⟩
  exact hheap.bind fun _ _ hR' => .pure ⟨rfl, hR'⟩

/-- `hashmap_put` on `perm_map`, on the heap. -/
theorem simulates_permMapPut (alloc : Alloc) (host : CString) (level : Int) :
    Exec.Simulates (PermRep frame) (permMapPut alloc host level)
      (InHeap.permMapPut alloc host level) := by
  intro s t v s' hR hret
  obtain ⟨_, _, hget, hret⟩ := Exec.returned_of_bind hret
  cases hget
  obtain ⟨m', _, hput, hmodify⟩ := Exec.returned_of_bind hret
  obtain ⟨hmap, rfl⟩ := Exec.returned_of_ofOption hput
  cases hmodify
  obtain ⟨p, hp, hm⟩ := hR.map
  refine Exec.Yields.get.bind ?_
  rintro _ _ ⟨rfl, rfl⟩
  rw [hp]
  exact (hm.put_yields hmap).zoom fun _ h₁ hm₁ => ⟨rfl, ⟨p, hp, hm₁⟩, hR.locked, hR.pbuf⟩

/-- The lookup of what stands in `pbuf`, on the heap. -/
theorem simulates_permMapGetPbuf :
    Exec.Simulates (PermRep frame) permMapGetPbuf InHeap.permMapGetPbuf := by
  intro s t v s' hR hret
  obtain ⟨_, _, hget, hret⟩ := Exec.returned_of_bind hret
  cases hget
  refine Exec.Yields.get.bind ?_
  rintro _ _ ⟨rfl, rfl⟩
  rw [hR.pbuf] at hret
  exact simulates_permMapGet _ s t v s' hR hret

/-- The loop of `permissions_get` on the heap. Recursion on the index. -/
theorem simulates_getLoop : ∀ len,
    Exec.Simulates (PermRep frame) (permissionsGetLoop len) (InHeap.permissionsGetLoop len)
  | 0 => simulates_permMapGetPbuf
  | len + 1 => simulates_permMapGetPbuf.bind fun perm => .ite (.pure perm) <|
      (simulates_pbufWrite _ _).bind fun _ => (simulates_pbufWrite _ _).bind fun _ =>
        simulates_getLoop len

/-- `permissions_set` on the heap. -/
theorem simulates_set (alloc : Alloc) (host : CString) (level : Int) :
    Exec.Simulates (PermRep frame) (permissionsSet alloc host level)
      (InHeap.permissionsSet alloc host level) := by
  refine simulates_lock.bind fun _ => (simulates_permMapGet host).bind fun perm => ?_
  have hput : Exec.Simulates (PermRep frame) _ _ := simulates_permMapPut alloc host level
  have hend := hput.bind fun _ => simulates_unlock
  exact .ite ((simulates_permMapRemove host).bind fun _ => hend) hend

/-- `permissions_get` on the heap. -/
theorem simulates_get (host : Option CString) :
    Exec.Simulates (PermRep frame) (permissionsGet host) (InHeap.permissionsGet host) := by
  refine simulates_lock.bind fun _ => ?_
  cases host with
  | none =>
    intro s t v s' _ hret
    cases hret
  | some host =>
    exact .ite (.pure 0) <| (simulates_pbufCopy _).bind fun _ =>
      (simulates_getLoop _).bind fun perm => simulates_unlock.bind fun _ => .pure perm

/-- Calls one after another on the heap. -/
theorem simulates_calls : ∀ calls,
    Exec.Simulates (PermRep frame) (permCalls calls) (InHeap.permCalls calls)
  | [] => .pure []
  | .set alloc host level :: calls =>
    ((simulates_set alloc host level).bind fun _ => .pure none).bind fun r =>
      (simulates_calls calls).bind fun rs => .pure (r :: rs)
  | .get host :: calls =>
    ((simulates_get host).bind fun perm => .pure (some perm)).bind fun r =>
      (simulates_calls calls).bind fun rs => .pure (r :: rs)

/-- The variables of `permissions.c` before `permissions_init`. -/
def PermMemory.init (h : Heap HashmapBlock) : PermMemory :=
  { heap := h, permMap := none, locked := false, pbuf := fun _ => 0 }

/-- `permissions_init` on the heap. -/
theorem init_yields {alloc : Alloc} {owner : Option CString} {perms : PermState}
    {h : Heap HashmapBlock} (hM : h.Is frame) (hinit : permissionsInit true alloc owner = some perms) :
    (InHeap.permissionsInit true true alloc owner).Yields (.init h) fun ret t =>
      0 = ret ∧ PermRep frame perms t := by
  obtain ⟨m, hnew⟩ : ∃ m, hashmapNew true = some m := ⟨_, rfl⟩
  rw [permissionsInit, hnew] at hinit
  have hheap : (InHeap.onHeap (InHeap.hashmapNew true true)).Yields (.init h) fun ptr t =>
      ∃ p, ptr = some p ∧ PermRep frame (.ofMap m) { t with permMap := some p } := by
    refine (new_yields hM hnew).zoom ?_
    rintro _ h₁ ⟨p, rfl, hm⟩
    exact ⟨p, rfl, ⟨p, rfl, hm⟩, rfl, rfl⟩
  refine hheap.bind ?_
  rintro _ t ⟨p, rfl, hR⟩
  refine Exec.Yields.bind (Q := fun _ t' => PermRep frame (.ofMap m) t') ⟨(), _, rfl, hR⟩ ?_
  intro _ t' hR'
  rw [if_neg (by simp)]
  cases owner with
  | none =>
    cases hinit
    exact .pure ⟨rfl, hR'⟩
  | some host =>
    obtain ⟨m', hput, rfl⟩ := Option.map_eq_some_iff.1 hinit
    have hcall : permMapPut alloc host 100000 (.ofMap m) = (.returned (), .ofMap m') := by
      have hofOption : (Exec.ofOption (hashmapPut alloc m host 100000) : Exec PermState Hashmap)
          (.ofMap m) = (.returned m', .ofMap m) := by
        rw [Exec.ofOption_apply, hput]
        rfl
      rw [permMapPut, Exec.bind_returned (Exec.get_apply _)]
      exact Exec.bind_returned hofOption _
    refine (simulates_permMapPut alloc host 100000 _ _ _ _ hR' hcall).bind ?_
    rintro _ t'' ⟨-, hR''⟩
    exact .pure ⟨rfl, hR''⟩

/-- From `permissions_init` to `permissions_cleanup`, whatever the allocations after the first two
return: if every call returns with values for the blocks, and the entries can be freed then, the
calls return the same on the heap, and every block of theirs is gone in the end. If one of the first
two allocations fails, `permissions_init` says so and leaves nothing behind. -/
theorem permissionsLife_restores {alloc : Alloc} {owner : Option CString} {perms s : PermState}
    {calls : List PermCall} {rs : List (Option Int)}
    (hinit : permissionsInit true alloc owner = some perms)
    (hrun : permCalls calls perms = (.returned rs, s))
    (hempty : (hashmapEmpty s.permMap).isSome = true) (h : Heap HashmapBlock)
    (callocMap callocBuckets : Bool) :
    ∃ t, InHeap.permissionsLife callocMap callocBuckets alloc owner calls (.init h) =
        (.returned (if callocMap && callocBuckets then (0, rs) else (-1, [])), t) ∧
      t.heap.block = h.block := by
  obtain ⟨M, hM⟩ := h.exists_is
  suffices hlife : (InHeap.permissionsLife callocMap callocBuckets alloc owner calls).Yields (.init h)
      fun r t => (if callocMap && callocBuckets then (0, rs) else (-1, [])) = r ∧ t.heap.Is M by
    obtain ⟨_, t, hret, rfl, hM'⟩ := hlife
    exact ⟨t, hret, hM.block_eq hM'⟩
  cases hcalloc : callocMap && callocBuckets with
  | true =>
    obtain ⟨rfl, rfl⟩ := (Bool.and_eq_true _ _).mp hcalloc
    refine (init_yields hM hinit).bind ?_
    rintro _ t ⟨rfl, hR⟩
    rw [if_neg (not_not.2 rfl)]
    refine (simulates_calls calls _ _ _ _ hR hrun).bind ?_
    rintro _ t' ⟨rfl, hR'⟩
    have hcleanup : InHeap.permissionsCleanup.Yields t' fun _ t'' => t''.heap.Is M := by
      obtain ⟨p, hp, hm⟩ := hR'.map
      refine Exec.Yields.get.bind ?_
      rintro _ _ ⟨rfl, rfl⟩
      rw [hp]
      exact (hm.destroy_yields hempty).zoom fun _ _ hM' => hM'
    exact hcleanup.bind fun _ _ hM' => .pure ⟨rfl, hM'⟩
  | false =>
    have hnew : (InHeap.onHeap (InHeap.hashmapNew callocMap callocBuckets)).Yields (.init h)
        fun ptr t => ptr = none ∧ t.heap.Is M :=
      (new_null_yields hM hcalloc).zoom fun _ _ hnull => hnull
    have hfails : (InHeap.permissionsInit callocMap callocBuckets alloc owner).Yields (.init h)
        fun ret t => ret = -1 ∧ t.heap.Is M := by
      refine hnew.bind ?_
      rintro _ t ⟨rfl, hM'⟩
      exact ⟨-1, _, rfl, rfl, hM'⟩
    refine hfails.bind ?_
    rintro _ t ⟨rfl, hM'⟩
    exact ⟨(-1, []), t, rfl, rfl, hM'⟩

/-- The owner, a level for another host, and a lookup of it. -/
def opCalls : List PermCall :=
  [.set .ok (CString.lit "op") 5, .get (some (CString.lit "op"))]

/-- The life of `perm_map` with the calls of `opCalls` leaves the empty heap as it was. -/
theorem permissionsLife_restores_op : ∃ perms s rs t,
    permissionsInit true .ok (some (CString.lit "own")) = some perms ∧
      permCalls opCalls perms = (.returned rs, s) ∧ (hashmapEmpty s.permMap).isSome = true ∧
      InHeap.permissionsLife true true .ok (some (CString.lit "own")) opCalls (.init Heap.empty) =
        (.returned (0, rs), t) ∧ t.heap.block = (Heap.empty : Heap HashmapBlock).block := by
  obtain ⟨perms, hinit⟩ : ∃ perms,
    permissionsInit true .ok (some (CString.lit "own")) = some perms := ⟨_, rfl⟩
  have hrun : (permCalls opCalls perms).1 = .returned [none, some 5] ∧
      (hashmapEmpty (permCalls opCalls perms).2.permMap).isSome = true := by
    cases hinit
    decide +kernel
  obtain ⟨t, hlife⟩ := permissionsLife_restores hinit (Prod.ext hrun.1 rfl) hrun.2 Heap.empty true true
  exact ⟨perms, _, _, t, hinit, Prod.ext hrun.1 rfl, hrun.2, hlife⟩

end

end MinervaBot
