import Mathlib.Logic.Function.Basic
import MinervaBot.Lib.Run

/-!
# Messages written in critical sections

Any number of threads write messages to one stream, each message as several pieces one after the
other. A thread holds a lock from before the first piece of a message to behind the last. It may be
stopped for good at any place; then it keeps the lock if it had it.

`Writers.Serial` is the invariant of such a system: the stream is made of the messages of the
finished sections and of the first pieces of the message of the section that is going on or was
abandoned. `runWriters_stream` reads it off every run, and `Writers.Stuck.run` says that an
abandoned section is the last one.
-/

namespace Lib

/-- Where a thread is: not in its section, in it with the pieces that it has still to write, or
stopped. -/
inductive WriterPc (M B : Type) where
  | outside
  | inside (msg : M) (rest : List B)
  | stopped

/-- The lock, where the threads are, and the pieces in the stream; `begun` lists the messages whose
section was entered. -/
structure Writers (T M B : Type) where
  owner : Option T
  pc : T → WriterPc M B
  stream : List B
  begun : List M

/-- A thread enters a section with a message, writes the next piece, leaves the section, or is
stopped. -/
inductive WriterAct (T M : Type) where
  | enter (t : T) (msg : M)
  | write (t : T)
  | leave (t : T)
  | stop (t : T)

variable {T M B : Type}

/-- The message of a section that an act enters. -/
def WriterAct.entered : WriterAct T M → Option M
  | .enter _ msg => some msg
  | _ => none

/-- Nobody has the lock, and nothing is written. -/
def Writers.init : Writers T M B where
  owner := none
  pc := fun _ => .outside
  stream := []
  begun := []

variable [DecidableEq T]

/-- A thread gets to another place. -/
def Writers.goto (s : Writers T M B) (t : T) (pc : WriterPc M B) : Writers T M B :=
  { s with pc := Function.update s.pc t pc }

@[simp] theorem Writers.goto_owner (s : Writers T M B) (t : T) (pc : WriterPc M B) :
    (s.goto t pc).owner = s.owner := rfl
@[simp] theorem Writers.goto_stream (s : Writers T M B) (t : T) (pc : WriterPc M B) :
    (s.goto t pc).stream = s.stream := rfl
@[simp] theorem Writers.goto_begun (s : Writers T M B) (t : T) (pc : WriterPc M B) :
    (s.goto t pc).begun = s.begun := rfl
@[simp] theorem Writers.goto_pc_self (s : Writers T M B) (t : T) (pc : WriterPc M B) :
    (s.goto t pc).pc t = pc := Function.update_self ..

theorem Writers.goto_pc_of_ne (s : Writers T M B) {t t' : T} (pc : WriterPc M B) (h : t' ≠ t) :
    (s.goto t pc).pc t' = s.pc t' := Function.update_of_ne h ..

/-- One step; `pieces` are the pieces of a message. -/
def writerStep (pieces : M → List B) (s : Writers T M B) :
    WriterAct T M → Option (Writers T M B × Unit)
  | .enter t msg =>
    match s.pc t, s.owner with
    | .outside, none =>
      some ({ s.goto t (.inside msg (pieces msg)) with
        owner := some t
        begun := s.begun ++ [msg] }, ())
    | _, _ => none
  | .write t =>
    match s.pc t with
    | .inside msg (b :: rest) =>
      some ({ s.goto t (.inside msg rest) with stream := s.stream ++ [b] }, ())
    | _ => none
  | .leave t =>
    match s.pc t with
    | .inside _ [] => some ({ s.goto t .outside with owner := none }, ())
    | _ => none
  | .stop t => some (s.goto t .stopped, ())

/-- The steps, each with what it needs and what it leaves. -/
inductive WriterStep (pieces : M → List B) (s : Writers T M B) :
    WriterAct T M → Writers T M B → Prop
  | enter : s.pc t = .outside → s.owner = none →
      WriterStep pieces s (.enter t msg) { s.goto t (.inside msg (pieces msg)) with
        owner := some t
        begun := s.begun ++ [msg] }
  | write : s.pc t = .inside msg (b :: rest) →
      WriterStep pieces s (.write t) { s.goto t (.inside msg rest) with stream := s.stream ++ [b] }
  | leave : s.pc t = .inside msg [] →
      WriterStep pieces s (.leave t) { s.goto t .outside with owner := none }
  | stop : WriterStep pieces s (.stop t) (s.goto t .stopped)

variable {pieces : M → List B} {s s' : Writers T M B} {act : WriterAct T M} {u : Unit}

/-- Every step of the function is one of these. -/
theorem writerStep_inv (h : writerStep pieces s act = some (s', u)) :
    WriterStep pieces s act s' := by
  cases act with
  | enter t msg =>
    simp only [writerStep] at h
    split at h
    · next hpc howner =>
      cases h
      exact .enter hpc howner
    · cases h
  | write t =>
    simp only [writerStep] at h
    split at h
    · next hpc =>
      cases h
      exact .write hpc
    · cases h
  | leave t =>
    simp only [writerStep] at h
    split at h
    · next hpc =>
      cases h
      exact .leave hpc
    · cases h
  | stop t =>
    cases h
    exact .stop

/-! ## The invariant -/

omit [DecidableEq T] in
/-- The owner of the lock is stopped. -/
def Writers.Stuck (s : Writers T M B) : Prop :=
  ∃ t, s.owner = some t ∧ s.pc t = .stopped

/-- The sections so far: those of `done` are finished, and at most one other has begun. -/
inductive Writers.Progress (pieces : M → List B) (s : Writers T M B) (done : List M) : Prop
  | free (owner : s.owner = none) (begun : s.begun = done) (stream : s.stream = done.flatMap pieces)
  | busy (owner : s.owner = some t) (pc : s.pc t = .inside msg rest)
      (parts : written ++ rest = pieces msg) (begun : s.begun = done ++ [msg])
      (stream : s.stream = done.flatMap pieces ++ written)
  | stuck (owner : s.owner = some t) (pc : s.pc t = .stopped) (parts : written <+: pieces msg)
      (begun : s.begun = done ++ [msg]) (stream : s.stream = done.flatMap pieces ++ written)

/-- The invariant: a thread in its section has the lock, and the stream is made of the messages of
the sections. -/
structure Writers.Serial (pieces : M → List B) (s : Writers T M B) : Prop where
  inside : ∀ t msg rest, s.pc t = .inside msg rest → s.owner = some t
  progress : ∃ done, s.Progress pieces done

omit [DecidableEq T] in
theorem Writers.init_serial : (Writers.init : Writers T M B).Serial pieces :=
  ⟨by rintro t msg rest ⟨⟩, [], .free rfl rfl rfl⟩

variable {t : T}

/-- A thread enters a section that nobody else is in. -/
theorem Writers.Serial.enter (h : s.Serial pieces) (howner : s.owner = none) (msg : M) :
    Writers.Serial pieces { s.goto t (.inside msg (pieces msg)) with
      owner := some t
      begun := s.begun ++ [msg] } := by
  refine ⟨fun t' msg' rest hpc => ?_, ?_⟩
  · by_cases ht : t' = t
    · rw [ht]
    · replace hpc : (s.goto t (.inside msg (pieces msg))).pc t' = .inside msg' rest := hpc
      rw [s.goto_pc_of_ne _ ht] at hpc
      cases howner.symm.trans (h.inside _ _ _ hpc)
  · obtain ⟨done, hprogress⟩ := h.progress
    cases hprogress with
    | free _ hbegun hstream =>
      refine ⟨done, .busy rfl (s.goto_pc_self _ _) (List.nil_append _) ?_ ?_⟩
      · exact congrArg (· ++ [msg]) hbegun
      · exact hstream.trans (List.append_nil _).symm
    | busy howner' | stuck howner' => cases howner.symm.trans howner'

/-- The owner writes the next piece. -/
theorem Writers.Serial.write (h : s.Serial pieces) {msg : M} {b : B} {rest : List B}
    (hpc : s.pc t = .inside msg (b :: rest)) :
    Writers.Serial pieces { s.goto t (.inside msg rest) with stream := s.stream ++ [b] } := by
  have howner := h.inside _ _ _ hpc
  refine ⟨fun t' msg' rest' hpc' => ?_, ?_⟩
  · by_cases ht : t' = t
    · rw [ht]
      exact howner
    · exact h.inside _ _ _ ((s.goto_pc_of_ne _ ht).symm.trans hpc')
  · obtain ⟨done, hprogress⟩ := h.progress
    cases hprogress with
    | free howner' => cases howner.symm.trans howner'
    | @busy _ _ _ written howner' hpc' hparts hbegun hstream =>
      cases howner.symm.trans howner'
      cases hpc.symm.trans hpc'
      have hparts' : (written ++ [b]) ++ rest = pieces msg := by
        rw [List.append_assoc]
        exact hparts
      refine ⟨done, .busy howner (s.goto_pc_self _ _) hparts' hbegun ?_⟩
      rw [← List.append_assoc, ← hstream]
    | stuck howner' hpc' =>
      cases howner.symm.trans howner'
      cases hpc.symm.trans hpc'

/-- The owner leaves its section behind the last piece. -/
theorem Writers.Serial.leave (h : s.Serial pieces) {msg : M} (hpc : s.pc t = .inside msg []) :
    Writers.Serial pieces { s.goto t .outside with owner := none } := by
  have howner := h.inside _ _ _ hpc
  refine ⟨fun t' msg' rest' hpc' => ?_, ?_⟩
  · by_cases ht : t' = t
    · rw [ht] at hpc'
      cases (s.goto_pc_self t .outside).symm.trans hpc'
    · have howner' := h.inside _ _ _ ((s.goto_pc_of_ne _ ht).symm.trans hpc')
      exact absurd (Option.some.inj (howner'.symm.trans howner)) ht
  · obtain ⟨done, hprogress⟩ := h.progress
    cases hprogress with
    | free howner' => cases howner.symm.trans howner'
    | @busy _ msg' _ written howner' hpc' hparts hbegun hstream =>
      cases howner.symm.trans howner'
      cases hpc.symm.trans hpc'
      refine ⟨done ++ [msg], .free rfl hbegun ?_⟩
      rw [List.append_nil] at hparts
      rw [List.flatMap_append, List.flatMap_singleton, ← hparts]
      exact hstream
    | stuck howner' hpc' =>
      cases howner.symm.trans howner'
      cases hpc.symm.trans hpc'

/-- A thread is stopped, in its section or not. -/
theorem Writers.Serial.stop (h : s.Serial pieces) : (s.goto t .stopped).Serial pieces := by
  refine ⟨fun t' msg rest hpc => ?_, ?_⟩
  · by_cases ht : t' = t
    · rw [ht] at hpc
      cases (s.goto_pc_self t .stopped).symm.trans hpc
    · exact h.inside _ _ _ ((s.goto_pc_of_ne _ ht).symm.trans hpc)
  · obtain ⟨done, hprogress⟩ := h.progress
    refine ⟨done, ?_⟩
    cases hprogress with
    | free howner hbegun hstream => exact .free howner hbegun hstream
    | @busy t' msg rest written howner hpc hparts hbegun hstream =>
      by_cases ht : t' = t
      · subst ht
        exact .stuck howner (s.goto_pc_self _ _) ⟨rest, hparts⟩ hbegun hstream
      · exact .busy howner ((s.goto_pc_of_ne _ ht).trans hpc) hparts hbegun hstream
    | @stuck t' msg written howner hpc hparts hbegun hstream =>
      refine .stuck howner ?_ hparts hbegun hstream
      by_cases ht : t' = t
      · rw [ht]
        exact s.goto_pc_self _ _
      · exact (s.goto_pc_of_ne _ ht).trans hpc

/-- Every step keeps the invariant. -/
theorem Writers.Serial.step (h : s.Serial pieces) (hstep : writerStep pieces s act = some (s', u)) :
    s'.Serial pieces := by
  cases writerStep_inv hstep with
  | enter _ howner => exact h.enter howner _
  | write hpc => exact h.write hpc
  | leave hpc => exact h.leave hpc
  | stop => exact h.stop

/-- The sections that a run enters are the sections that have begun. -/
theorem runWriters_begun {os : List Unit} : ∀ {acts : List (WriterAct T M)} {s : Writers T M B},
    runSteps (writerStep pieces) s acts = some (s', os) →
      s'.begun = s.begun ++ acts.filterMap WriterAct.entered
  | [], s, h => by
    cases h
    exact (List.append_nil _).symm
  | act :: acts, s, h => by
    obtain ⟨s₁, _, _, hstep, hrun, -⟩ := runSteps_cons_inv h
    rw [runWriters_begun hrun]
    cases writerStep_inv hstep with
    | enter => exact List.append_assoc ..
    | write | leave | stop => rfl

/-- What the stream holds after a run: the messages of the sections but the last, in the order in
which they were entered, and all or the first pieces of the last. All of them are there if nobody
has the lock. -/
theorem runWriters_stream {acts : List (WriterAct T M)} {os : List Unit}
    (h : runSteps (writerStep pieces) Writers.init acts = some (s', os)) :
    (s'.owner = none ∧ s'.stream = (acts.filterMap WriterAct.entered).flatMap pieces) ∨
      s'.owner ≠ none ∧ ∃ done msg written, acts.filterMap WriterAct.entered = done ++ [msg] ∧
        written <+: pieces msg ∧ s'.stream = done.flatMap pieces ++ written := by
  have hserial : s'.Serial pieces :=
    runSteps_preserves (P := fun s => s.Serial pieces) (fun _ _ _ _ h hs => h.step hs)
      Writers.init_serial h
  have hbegun := runWriters_begun h
  rw [show (Writers.init : Writers T M B).begun = [] from rfl, List.nil_append] at hbegun
  obtain ⟨done, hprogress⟩ := hserial.progress
  rw [← hbegun]
  cases hprogress with
  | free howner hdone hstream => exact .inl ⟨howner, by rw [hdone, hstream]⟩
  | busy howner _ hparts hdone hstream =>
    exact .inr ⟨by simp [howner], done, _, _, hdone, ⟨_, hparts⟩, hstream⟩
  | stuck howner _ hparts hdone hstream =>
    exact .inr ⟨by simp [howner], done, _, _, hdone, hparts, hstream⟩

/-! ## An abandoned section -/

/-- Nothing is written any more once the owner is stopped. -/
theorem Writers.Stuck.step (h : s.Stuck) (hserial : s.Serial pieces)
    (hstep : writerStep pieces s act = some (s', u)) :
    s'.Stuck ∧ s'.stream = s.stream ∧ s'.begun = s.begun := by
  obtain ⟨t, howner, hpc⟩ := h
  -- no thread is in its section, since it would have the lock
  have hnot : ∀ {t' msg rest}, s.pc t' ≠ .inside msg rest := by
    intro t' msg rest hpc'
    cases howner.symm.trans (hserial.inside _ _ _ hpc')
    cases hpc.symm.trans hpc'
  cases writerStep_inv hstep with
  | enter _ hnone => cases howner.symm.trans hnone
  | write hpc' => exact absurd hpc' hnot
  | leave hpc' => exact absurd hpc' hnot
  | @stop t' =>
    refine ⟨⟨t, howner, ?_⟩, rfl, rfl⟩
    by_cases ht : t = t'
    · rw [ht]
      exact s.goto_pc_self _ _
    · exact (s.goto_pc_of_ne _ ht).trans hpc

/-- An abandoned section is the last one. -/
theorem Writers.Stuck.run : ∀ {acts : List (WriterAct T M)} {s : Writers T M B} {os : List Unit},
    s.Stuck → s.Serial pieces → runSteps (writerStep pieces) s acts = some (s', os) →
      s'.stream = s.stream ∧ s'.begun = s.begun
  | [], _, _, _, _, hrun => by
    cases hrun
    exact ⟨rfl, rfl⟩
  | _ :: _, _, _, h, hserial, hrun => by
    obtain ⟨s₁, _, _, hstep, hrest, -⟩ := runSteps_cons_inv hrun
    obtain ⟨hstuck, hstream, hbegun⟩ := h.step hserial hstep
    obtain ⟨hstream', hbegun'⟩ := hstuck.run (hserial.step hstep) hrest
    exact ⟨hstream'.trans hstream, hbegun'.trans hbegun⟩

end Lib
