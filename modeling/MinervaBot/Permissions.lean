import MinervaBot.Hashmap
import MinervaBot.Lib.Exec
import MinervaBot.Lib.Fallback

/-!
# Permissions

`permissions.c`: the map from hosts to levels behind `permissions_mutex`, and the lookup of a host's
level through the buffer `pbuf`. A call that finds the mutex taken blocks; a call that leaves
without `pthread_mutex_unlock` leaves it taken.

`pbuf` has 128 bytes. For a host of 127 or 128 bytes the lookup also writes at the indices 128 and
129; the model keeps these two bytes as memory that nothing else uses, and records every index
written in `pbufWrites`.
-/

namespace MinervaBot

open Lib

/-- `PERMS_OWNER`. -/
def permsOwner : Int := 99999
/-- `PERMS_ADMIN`. -/
def permsAdmin : Int := 50000
/-- `PERMS_OP`. -/
def permsOp : Int := 40000
/-- `PERMS_HOP`. -/
def permsHop : Int := 25000

/-- The variables of `permissions.c`: `perm_map`, `permissions_mutex` (taken or not) and `pbuf`,
with the indices of `pbuf` written so far. -/
structure PermState where
  permMap : Hashmap
  locked : Bool
  pbuf : Mem
  pbufWrites : List Int

/-- The variables of `permissions.c` with a map and the mutex free. -/
def PermState.ofMap (m : Hashmap) : PermState :=
  { permMap := m, locked := false, pbuf := fun _ => 0, pbufWrites := [] }

/-- `pthread_mutex_lock(&permissions_mutex)`. -/
def permissionsLock : Exec PermState Unit := do
  let s ← Exec.get
  if s.locked then Exec.block else Exec.modify fun s => { s with locked := true }

/-- `pthread_mutex_unlock(&permissions_mutex)`. -/
def permissionsUnlock : Exec PermState Unit :=
  Exec.modify fun s => { s with locked := false }

/-- `hashmap_get(perm_map, host)`. -/
def permMapGet (host : CString) : Exec PermState Int := do
  let s ← Exec.get
  Exec.ofOption (hashmapGet s.permMap host)

/-- `hashmap_remove(perm_map, host)`. -/
def permMapRemove (host : CString) : Exec PermState Unit := do
  let s ← Exec.get
  let r ← Exec.ofOption (hashmapRemove s.permMap host)
  Exec.modify fun s => { s with permMap := r.2 }

/-- `hashmap_put(perm_map, host, level)`. -/
def permMapPut (alloc : Alloc) (host : CString) (level : Int) : Exec PermState Unit := do
  let s ← Exec.get
  let m ← Exec.ofOption (hashmapPut alloc s.permMap host level)
  Exec.modify fun s => { s with permMap := m }

/-- `pbuf[i] = c`. -/
def pbufWrite (i : Int) (c : UInt8) : Exec PermState Unit :=
  Exec.modify fun s => { s with pbuf := s.pbuf.write i c, pbufWrites := s.pbufWrites ++ [i] }

/-- `memcpy(pbuf, b, |b|)`. -/
def pbufCopy (b : List UInt8) : Exec PermState Unit :=
  Exec.modify fun s =>
    { s with
      pbuf := s.pbuf.copy 0 b
      pbufWrites := s.pbufWrites ++ (List.range b.length).map fun (i : Nat) => (i : Int) }

/-- `hashmap_get(perm_map, pbuf)`. -/
def permMapGetPbuf : Exec PermState Int := do
  let s ← Exec.get
  permMapGet (s.pbuf.cstr 0 130)

/-- `permissions_init`: the state it leaves, `none` when it returns `-1`. -/
def permissionsInit (calloc : Bool) (alloc : Alloc) (ownerHost : Option CString) :
    Option PermState :=
  match hashmapNew calloc with
  | none => none
  | some m =>
    match ownerHost with
    | some host => (hashmapPut alloc m host 100000).map PermState.ofMap
    | none => some (PermState.ofMap m)

/-- `permissions_set`. -/
def permissionsSet (alloc : Alloc) (host : CString) (level : Int) : Exec PermState Unit := do
  permissionsLock
  let perm ← permMapGet host
  if perm ≠ 0 then permMapRemove host
  permMapPut alloc host level
  permissionsUnlock

/-- The character `*`. -/
def star : CString := CString.lit "*"

/-- The loop of `permissions_get`, for `len + 1` as the argument. -/
def permissionsGetLoop : Nat → Exec PermState Int
  | 0 => permMapGetPbuf
  | len + 1 => do
    let perm ← permMapGetPbuf
    if perm ≠ 0 then
      return perm
    pbufWrite len 42
    pbufWrite (len + 1) 0
    permissionsGetLoop len

/-- `permissions_get`; the host is `none` for `NULL`. -/
def permissionsGet (host : Option CString) : Exec PermState Int := do
  permissionsLock
  match host with
  | none => Exec.segv
  | some host =>
    if host.length > 128 then
      return 0
    pbufCopy (host.bytes ++ [0])
    let perm ← permissionsGetLoop (host.length + 1)
    permissionsUnlock
    return perm

end MinervaBot
