import MinervaBot.Modules

/-!
# The events of the directory

The loop of `modules_watchdir` around the loader. The kernel queues an event for every file that was
written or deleted; `read` takes as many whole events as fit into `in_buf`, and the loop handles the
one at the beginning of `in_buf`. The buffer is as long as the longest event, so that several events
with short names fit.

`noneLost_iff` tells for every run when each event is handled once and in order: when no `read`
finds a second event that fits.
-/

namespace MinervaBot

open Lib

variable {H : Type}

/-! ## Reading -/

/-- `sizeof(in_buf)`: `sizeof(struct inotify_event) + NAME_MAX + 1`. -/
def inBufSize : Nat := 16 + 255 + 1

/-- What an event takes in the buffer. `len` is the field of `struct inotify_event`, the length of
the name with the NULs behind it. -/
def InotifyEvent.size (len : CString → Nat) (evt : InotifyEvent) : Nat :=
  16 + len evt.name

/-- `read`: the queued events that fit, and the rest of the queue. -/
def inotifyRead (len : CString → Nat) :
    (room : Nat) → List InotifyEvent → List InotifyEvent × List InotifyEvent
  | _, [] => ([], [])
  | room, evt :: queue =>
    if evt.size len ≤ room then
      let r := inotifyRead len (room - evt.size len) queue
      (evt :: r.1, r.2)
    else ([], evt :: queue)

/-! ## The loop -/

/-- What `modules_watchdir` does for an event: it unloads the module of the file, and loads the
file. -/
inductive WatchdirCall where
  | unload (name : CString)
  | load (name : CString)

/-- What is to be done for an event. -/
def InotifyEvent.calls (evt : InotifyEvent) : List WatchdirCall :=
  if evt.inDelete then [.unload evt.name] else [.unload evt.name, .load evt.name]

/-- What the watching thread does in a step of the loader. -/
def LoaderAct.calls (s : Loader H) : LoaderAct H → List WatchdirCall
  | .event _ evt => [.unload evt.name]
  | .load _ =>
    match s.watchdog with
    | .load name => [.load name]
    | _ => []
  | _ => []

/-- The loader with the queue of the kernel. `notified` lists all events so far, `calls` what the
watching thread did. -/
structure Watchdir (H : Type) where
  loader : Loader H
  queue : List InotifyEvent
  notified : List InotifyEvent
  calls : List WatchdirCall

/-- The state after `inotify_add_watch`. -/
def watchdirInit : Watchdir H where
  loader := loaderInit
  queue := []
  notified := []
  calls := []

/-- A step: the kernel queues an event, the watching thread reads and takes an event, or another
step of the loader. -/
inductive WatchdirAct (H : Type) where
  | notify (evt : InotifyEvent)
  | read (queued : Bool)
  | loader (act : LoaderAct H)

/-- A step of the loader, with what the watching thread does. -/
def Watchdir.load (modDir : CString) (s : Watchdir H) (act : LoaderAct H) :
    Option (Watchdir H × Option (LoggedCall H)) :=
  (loaderStep modDir poolDetached s.loader act).map fun r =>
    ({ s with loader := r.1, calls := s.calls ++ act.calls s.loader }, r.2)

/-- One step. The events that `read` returned behind the first are not looked at. There is no result
when `read` blocks on the empty queue, or fails because the first event does not fit. -/
def watchdirStep (modDir : CString) (len : CString → Nat) (s : Watchdir H) :
    WatchdirAct H → Option (Watchdir H × Option (LoggedCall H))
  | .notify evt =>
    some ({ s with queue := s.queue ++ [evt], notified := s.notified ++ [evt] }, none)
  | .read queued =>
    let r := inotifyRead len inBufSize s.queue
    match r.1 with
    | [] => none
    | evt :: _ => { s with queue := r.2 }.load modDir (.event queued evt)
  | .loader act =>
    match act with
    | .event .. => none
    | _ => s.load modDir act

/-- What the watching thread has still to do for the event it took. -/
def Watchdog.todo : Watchdog → List WatchdirCall
  | .read => []
  | .join _ evt => if evt.inDelete then [] else [.load evt.name]
  | .load name => [.load name]

/-- Every event is still in the queue, or it was taken, once and in order: what the watching thread
did, with what it has still to do, is what is to be done for these. -/
def Watchdir.NoneLost (s : Watchdir H) : Prop :=
  ∃ taken, s.notified = taken ++ s.queue ∧
    s.calls ++ s.loader.watchdog.todo = taken.flatMap InotifyEvent.calls

/-- A `read` does not find a second event that fits behind the first. -/
def WatchdirAct.ReadsOne (len : CString → Nat) (s : Watchdir H) : WatchdirAct H → Prop
  | .read _ => ∀ evt next rest, s.queue = evt :: next :: rest →
      inBufSize < evt.size len + next.size len
  | _ => True

section
variable {len : CString → Nat} {room : Nat} {evt : InotifyEvent} {queue more rest : List InotifyEvent}

/-- `read` splits the queue. -/
theorem inotifyRead_append (len : CString → Nat) : ∀ (room : Nat) (queue : List InotifyEvent),
    (inotifyRead len room queue).1 ++ (inotifyRead len room queue).2 = queue
  | _, [] => rfl
  | room, evt :: queue => by
    rw [inotifyRead]
    split
    · exact congrArg (evt :: ·) (inotifyRead_append len _ queue)
    · rfl

/-- `read` returns one event alone if and only if the next one does not fit. -/
theorem inotifyRead_one_iff (h : inotifyRead len room queue = (evt :: more, rest)) :
    more = [] ↔ ∀ evt next rest, queue = evt :: next :: rest →
      room < evt.size len + next.size len := by
  cases queue with
  | nil => cases h
  | cons first queue =>
    rw [inotifyRead] at h
    split at h
    · next hfit =>
      cases h
      cases queue with
      | nil => exact ⟨fun _ _ _ _ heq => (nomatch heq), fun _ => rfl⟩
      | cons second queue =>
        rw [inotifyRead]
        split
        · next hfit' =>
          refine ⟨nofun, fun hone => ?_⟩
          have := hone _ _ _ rfl
          omega
        · next hfull =>
          refine ⟨fun _ evt next rest heq => ?_, fun _ => rfl⟩
          cases heq
          omega
    · cases h

end

/-! ## The watching thread -/

section
variable {modDir : CString} {s s' : Loader H} {out : Option (LoggedCall H)}

/-- What is left to do after an event was taken. -/
theorem todo_watchdirEvent (queued : Bool) (s : Loader H) (evt : InotifyEvent) :
    .unload evt.name :: (watchdirEvent queued s evt).watchdog.todo = evt.calls := by
  have hnext : .unload evt.name :: evt.next.todo = evt.calls := by
    rw [InotifyEvent.next, InotifyEvent.calls]
    split <;> rfl
  have hjoin : ∀ job, (Watchdog.join job evt).todo = evt.next.todo := by
    intro job
    rw [Watchdog.todo, InotifyEvent.next]
    split <;> rfl
  rw [← hnext, watchdirEvent]
  split
  · rfl
  · split
    · rfl
    · rw [modulesUnloadmod]
      split
      · rfl
      · split
        · rw [← hjoin s.jobs.length]
        · rfl

/-- Every other step does what was left to do first, or nothing. -/
theorem todo_loaderStep {act : LoaderAct H} (hact : ∀ queued evt, act ≠ .event queued evt)
    (h : loaderStep modDir poolDetached s act = some (s', out)) :
    act.calls s ++ s'.watchdog.todo = s.watchdog.todo := by
  cases loaderStep_inv h with
  | event hread => exact absurd rfl (hact _ _)
  | loadmod hload =>
    rw [(modulesLoadmod_cases hload).2.1]
    rfl
  | @join job evt hwatchdog hjoined =>
    show evt.next.todo = _
    rw [hwatchdog, InotifyEvent.next, Watchdog.todo]
    split <;> rfl
  | load hwatchdog hload =>
    rw [LoaderAct.calls, hwatchdog]
    rfl
  | call hjob hop hcmds => rfl
  | finish hjob hfinish => exact congrArg Watchdog.todo (Job.finish_cases hfinish).2.2.1
  | fail hjob hfail => exact congrArg Watchdog.todo (Job.fail_cases hfail).2.2.1

end

/-- What a `read` does: the watching thread takes the first event, and all events that `read`
returned are gone from the queue. -/
theorem watchdirStep_read {modDir : CString} {len : CString → Nat} {s s' : Watchdir H}
    {queued : Bool} {out : Option (LoggedCall H)}
    (h : watchdirStep modDir len s (.read queued) = some (s', out)) :
    ∃ evt more, inotifyRead len inBufSize s.queue = (evt :: more, s'.queue) ∧
      s'.notified = s.notified ∧ s.loader.watchdog.todo = [] ∧
      s'.calls ++ s'.loader.watchdog.todo = s.calls ++ evt.calls := by
  simp only [watchdirStep] at h
  split at h
  · cases h
  · next evt more hbatch =>
    obtain ⟨⟨loader, out'⟩, hevent, ⟨⟩⟩ := Option.map_eq_some_iff.1 h
    cases loaderStep_inv hevent with
    | event hread =>
      refine ⟨evt, more, by rw [← hbatch], rfl, by rw [hread]; rfl, ?_⟩
      show (s.calls ++ [.unload evt.name]) ++ _ = _
      rw [List.append_assoc, ← todo_watchdirEvent queued s.loader evt]
      rfl

section
variable {modDir : CString} {len : CString → Nat} {s s' : Watchdir H} {act : WatchdirAct H}
  {out : Option (LoggedCall H)}

/-- A `read` that finds one event, and every other step, keeps what has been handled. -/
theorem Watchdir.NoneLost.step (h : s.NoneLost) (hone : act.ReadsOne len s)
    (hstep : watchdirStep modDir len s act = some (s', out)) : s'.NoneLost := by
  obtain ⟨taken, hqueue, hcalls⟩ := h
  cases act with
  | notify evt =>
    cases hstep
    refine ⟨taken, ?_, hcalls⟩
    show s.notified ++ [evt] = taken ++ (s.queue ++ [evt])
    rw [hqueue, List.append_assoc]
  | read queued =>
    obtain ⟨evt, more, hbatch, hnotified, htodo, hdone⟩ := watchdirStep_read hstep
    obtain rfl := (inotifyRead_one_iff hbatch).2 hone
    have hsplit := inotifyRead_append len inBufSize s.queue
    rw [hbatch] at hsplit
    refine ⟨taken ++ [evt], ?_, ?_⟩
    · rw [hnotified, hqueue, ← hsplit, List.append_assoc]
    · rw [htodo, List.append_nil] at hcalls
      rw [hdone, hcalls]
      simp
  | loader act =>
    have hact : (∀ queued evt, act ≠ .event queued evt) ∧ s.load modDir act = some (s', out) := by
      simp only [watchdirStep] at hstep
      split at hstep
      · cases hstep
      · next hne => exact ⟨hne, hstep⟩
    obtain ⟨⟨loader, out'⟩, hloader, ⟨⟩⟩ := Option.map_eq_some_iff.1 hact.2
    refine ⟨taken, hqueue, ?_⟩
    show (s.calls ++ act.calls s.loader) ++ loader.watchdog.todo = _
    rw [List.append_assoc, todo_loaderStep hact.1 hloader, hcalls]

/-- A `read` that finds more events loses all but the first. -/
theorem Watchdir.NoneLost.lose (h : s.NoneLost) (hmore : ¬ act.ReadsOne len s)
    (hstep : watchdirStep modDir len s act = some (s', out)) : ¬ s'.NoneLost := by
  obtain ⟨taken, hqueue, hcalls⟩ := h
  rintro ⟨taken', hqueue', hcalls'⟩
  cases act with
  | read queued =>
    obtain ⟨evt, more, hbatch, hnotified, htodo, hdone⟩ := watchdirStep_read hstep
    have hsplit := inotifyRead_append len inBufSize s.queue
    rw [hbatch] at hsplit
    have htaken : taken' = taken ++ evt :: more := by
      have hboth : taken' ++ s'.queue = (taken ++ evt :: more) ++ s'.queue := by
        rw [← hqueue', hnotified, hqueue, ← hsplit, List.append_assoc]
      exact List.append_cancel_right hboth
    refine hmore ((inotifyRead_one_iff hbatch).1 ?_)
    rw [htodo, List.append_nil] at hcalls
    rw [hdone, hcalls, htaken, List.flatMap_append, List.flatMap_cons,
      List.append_cancel_left_eq, List.self_eq_append_right] at hcalls'
    cases more with
    | nil => rfl
    | cons next more =>
      rw [List.flatMap_cons, InotifyEvent.calls] at hcalls'
      split at hcalls' <;> cases hcalls'
  | _ => exact hmore trivial

end

/-- In every run, each event is handled once and in order if and only if no `read` finds a second
event that fits. -/
theorem noneLost_iff (modDir : CString) (len : CString → Nat) (acts : List (WatchdirAct H)) :
    EveryState (watchdirStep modDir len) watchdirInit acts Watchdir.NoneLost ↔
      EachStep (watchdirStep modDir len) watchdirInit acts (WatchdirAct.ReadsOne len) := by
  refine everyState_iff_eachStep (I := Watchdir.NoneLost) (fun _ h => h) ?_ ?_ acts ⟨[], rfl, rfl⟩
  · exact fun s act s' out h hone hstep => h.step hone hstep
  · exact fun s act s' out h hmore hstep => h.lose hmore hstep

/-- Two files are written before the first `read`, which returns both events: the second file is not
loaded. The names are padded to the size of `struct inotify_event`. -/
theorem not_noneLost :
    ¬ EveryState
      (watchdirStep (H := Unit) (CString.lit "./") fun name => (name.length + 16) / 16 * 16)
      watchdirInit [.notify ⟨false, CString.lit "a.so"⟩, .notify ⟨false, CString.lit "b.so"⟩,
        .read true] Watchdir.NoneLost := by
  intro h
  obtain ⟨taken, hqueue, hcalls⟩ := h _ _ _ (List.prefix_refl _) rfl
  obtain rfl : [⟨false, CString.lit "a.so"⟩, ⟨false, CString.lit "b.so"⟩] = taken :=
    hqueue.trans (List.append_nil taken)
  exact absurd (congrArg List.length hcalls) (by decide)

end MinervaBot
