import MinervaBot.Lib.SlotTable
import MinervaBot.Modules

/-!
# The contexts of the loader

`loaded` is a table of slots for the contexts. A context is closed and freed by the job that cleans
its module up, by the job that fails to initialize it, or by `modules_unloadmod` itself when the
library has no `module_cleanup`. The jobs clear the entry of `loaded` through the `ctx_pos` they got
when they were queued; `modules_unloadmod` does not clear it. Meanwhile `modules_loadmod` may have
moved `loaded`, and another job may have freed the same context.

`entriesLive_iff` tells for every run when all entries of `loaded` refer to contexts that are not
freed, and no context is freed twice.
-/

namespace MinervaBot

open Lib

variable {H : Type}

/-- Every entry of `loaded` that is not `NULL` refers to a context that was not freed, and every
context was closed and freed once at most. -/
structure Loader.EntriesLive (s : Loader H) : Prop where
  held : ∀ (i ctx : Nat), s.loaded[i]? = some (some ctx) → ctx ∉ s.freed
  once : s.freed.Nodup

/-- What `ctx_pos` points at: nothing when `loaded` has moved. -/
def Loader.entryAt (ctxPos : CtxPos) (s : Loader H) : Option Nat :=
  if ctxPos.block = s.block then s.loaded[ctxPos.index]?.join else none

/-- The context of a job and its `ctx_pos`. -/
def Job.target : Job H → Option (Nat × CtxPos)
  | .init ctx ctxPos _ _ => some (ctx, ctxPos)
  | .deinit ctx ctxPos _ => some (ctx, ctxPos)
  | .finished _ => none

/-- The context that the end of a job closes, with `ctx_pos`: the one of a cleanup, or of a
`module_init` that returned an error. -/
def Job.closes : Job H → Option (Nat × CtxPos)
  | .init ctx ctxPos [] ret => if ret ≠ 0 then some (ctx, ctxPos) else none
  | .deinit ctx ctxPos [] => some (ctx, ctxPos)
  | _ => none

/-- What a step closes through a `ctx_pos`. -/
def LoaderAct.closes (s : Loader H) : LoaderAct H → Option (Nat × CtxPos)
  | .finish j => s.jobs[j]?.bind Job.closes
  | .fail j => s.jobs[j]?.bind Job.target
  | _ => none

/-- A module that is unloaded has `module_cleanup`, and a job that closes a context finds this
context where its `ctx_pos` points. -/
def LoaderAct.FindsOwn (s : Loader H) (act : LoaderAct H) : Prop :=
  (∀ queued evt i, act = .event queued evt → s.findModule evt.name = some i →
    (s.cleanupOf evt.name).isSome) ∧
  ∀ ctx ctxPos, act.closes s = some (ctx, ctxPos) → s.entryAt ctxPos = some ctx

/-! ## The table of the contexts -/

/-- `ctx_pos` as a position in the table. -/
def CtxPos.slotPos (ctxPos : CtxPos) : SlotPos :=
  ⟨ctxPos.block, ctxPos.index⟩

/-- The context of a job and its position. -/
def Job.pending (job : Job H) : Option (Nat × SlotPos) :=
  job.target.map fun t => (t.1, t.2.slotPos)

/-- The contexts of a loader as a table of slots. -/
def Loader.table (s : Loader H) : SlotTable where
  count := s.ctxs.length
  released := s.freed
  block := s.block
  slots := s.loaded
  pending := s.jobs.map Job.pending

section
variable {s s' : Loader H} {ctx j : Nat} {ctxPos : CtxPos} {job : Job H}

theorem Loader.entriesLive_iff_table : s.EntriesLive ↔ s.table.Live :=
  ⟨fun h => ⟨h.held, h.once⟩, fun h => ⟨h.held, h.once⟩⟩

theorem Loader.table_close : (s.close ctx ctxPos).table = s.table.release ctx ctxPos.slotPos := by
  by_cases hblock : ctxPos.block = s.block
  · simp [close, clearPos, table, SlotTable.release, SlotTable.clear, CtxPos.slotPos, hblock]
  · simp [close, clearPos, table, SlotTable.release, SlotTable.clear, CtxPos.slotPos, hblock]

theorem Loader.table_setJob_finished {error : Bool} :
    (s.setJob j (.finished error)).table = s.table.finish j := by
  simp only [setJob, table, SlotTable.finish, List.map_set]
  rfl

/-- A call of a job leaves its context. -/
theorem Loader.table_setJob_afterCall {r : Int} (hjob : s.jobs[j]? = some job) :
    (s.setJob j (job.afterCall r)).table = s.table := by
  have hpending : (job.afterCall r).pending = job.pending := by
    cases job <;> rfl
  obtain ⟨hlt, hget⟩ := List.getElem?_eq_some_iff.1 hjob
  have hset : (s.jobs.map Job.pending).set j job.pending = s.jobs.map Job.pending := by
    rw [← List.map_set, ← hget, List.set_getElem_self]
  simp only [setJob, table, List.map_set, hpending, hset]

/-- The job of a context is a pending release of the table. -/
theorem Loader.mem_pending (hjob : s.jobs[j]? = some job) (htarget : job.target = some (ctx, ctxPos)) :
    some (ctx, ctxPos.slotPos) ∈ s.table.pending := by
  refine List.mem_map.2 ⟨job, List.mem_of_getElem? hjob, ?_⟩
  rw [Job.pending, htarget]
  rfl

/-- A job closes its own context. -/
theorem Job.target_of_closes (h : job.closes = some (ctx, ctxPos)) :
    job.target = some (ctx, ctxPos) := by
  cases job with
  | init c pos todo ret =>
    cases todo with
    | nil =>
      rw [closes] at h
      split at h
      · exact h
      · cases h
    | cons p todo => cases h
  | deinit c pos todo =>
    cases todo with
    | nil => exact h
    | cons p todo => cases h
  | finished error => cases h

/-- What `modules_loadmod` does to the table: `loaded` may grow, and a new context may take a free
entry, with a job or without. -/
theorem modulesLoadmod_table {modDir modFile : CString} {sys : LoadSys H}
    (h : modulesLoadmod modDir sys s modFile = some s') :
    ∃ t, (t = s.table ∨ ∃ moved n, t = s.table.grow moved n) ∧
      (s'.table = t ∧ s'.loadedUse = s.loadedUse ∨
        ∃ i : Nat, t.slots[i]? = some none ∧ s'.loadedUse = s.loadedUse + 1 ∧
          (s'.table = t.acquire i ∨ s'.table = (t.acquire i).request t.count ⟨t.block, i⟩)) := by
  unfold modulesLoadmod at h
  split at h
  · cases h
  split at h
  · cases h
    exact ⟨s.table, .inl rfl, .inl ⟨rfl, rfl⟩⟩
  next lib hlib =>
  split at h
  · cases h
    exact ⟨s.table, .inl rfl, .inl ⟨rfl, rfl⟩⟩
  next s₁ hgrow =>
  have hgrown : (s₁.table = s.table ∨ ∃ moved n, s₁.table = s.table.grow moved n) ∧
      s₁.loadedUse = s.loadedUse := by
    unfold Loader.grow at hgrow
    split at hgrow
    · obtain ⟨moved, -, rfl⟩ := Option.map_eq_some_iff.1 hgrow
      exact ⟨.inr ⟨moved, s.loaded.length, rfl⟩, rfl⟩
    · cases hgrow
      exact ⟨.inl rfl, rfl⟩
  refine ⟨s₁.table, hgrown.1, ?_⟩
  rw [← hgrown.2]
  split at h
  · cases h
  next i hi =>
  cases h
  have hfree : s₁.loaded[i]? = some none := by
    obtain ⟨hlt, hnone, -⟩ := List.findIdx?_eq_some_iff_getElem.1 hi
    rw [List.getElem?_eq_getElem hlt, Option.isNone_iff_eq_none.1 hnone]
  split
  · refine .inr ⟨i, hfree, rfl, ?_⟩
    by_cases hqueued : sys.queued
    · refine .inr ?_
      simp [Loader.addModule, Loader.table, SlotTable.acquire, SlotTable.request, hqueued,
        Job.pending, Job.target, CtxPos.slotPos]
    · refine .inl ?_
      simp [Loader.addModule, Loader.table, SlotTable.acquire, hqueued]
  · exact .inl ⟨rfl, rfl⟩

/-- The module that is found for a file is behind an entry that is not `NULL`. -/
theorem Loader.findModule_entry {name : CString} {i : Nat} (h : s.findModule name = some i) :
    ∃ ctx, s.loaded[i]? = some (some ctx) := by
  obtain ⟨hlt, hmodule, -⟩ := List.findIdx?_eq_some_iff_getElem.1 h
  rw [List.getElem?_eq_getElem hlt]
  generalize s.loaded[i] = entry at hmodule
  cases entry with
  | none => cases hmodule
  | some ctx => exact ⟨ctx, rfl⟩

/-- What `module_cleanup` removes, read behind the entry that is found. -/
theorem Loader.cleanupOf_eq {name : CString} {i : Nat} (h : s.findModule name = some i)
    (hctx : s.loaded[i]? = some (some ctx)) :
    s.cleanupOf name = s.ctxs[ctx]?.bind (·.dlsym.moduleCleanup) := by
  rw [cleanupOf, h]
  simp [hctx]

/-- What an event does to the table. Nothing happens unless the module is found; without
`module_cleanup` its context is freed and the entry left. -/
theorem watchdirEvent_table (queued : Bool) (s : Loader H) (evt : InotifyEvent) :
    s.findModule evt.name = none ∧ (watchdirEvent queued s evt).table = s.table ∨
      ∃ i ctx, s.findModule evt.name = some i ∧ s.loaded[i]? = some (some ctx) ∧
        (s.cleanupOf evt.name = none ∧ (watchdirEvent queued s evt).table = s.table.drop ctx ∨
          (s.cleanupOf evt.name).isSome ∧
            (watchdirEvent queued s evt).table =
              if queued then s.table.request ctx ⟨s.block, i⟩ else s.table) := by
  rw [watchdirEvent]
  cases hfind : s.findModule evt.name with
  | none => exact .inl ⟨rfl, rfl⟩
  | some i =>
    obtain ⟨ctx, hctx⟩ := Loader.findModule_entry hfind
    refine .inr ⟨i, ctx, rfl, hctx, ?_⟩
    rw [Loader.cleanupOf_eq hfind hctx]
    simp only [hctx, Option.join_some, modulesUnloadmod]
    cases s.ctxs[ctx]?.bind (·.dlsym.moduleCleanup) with
    | none => exact .inl ⟨rfl, rfl⟩
    | some names =>
      refine .inr ⟨rfl, ?_⟩
      cases queued with
      | false => rfl
      | true => simp [Loader.table, SlotTable.request, Job.pending, Job.target, CtxPos.slotPos]

/-- What the end of a job does: it closes its context or not. -/
theorem Job.finish_eq {error : Bool} (h : job.finish s = some (s', error)) :
    s' = (job.closes.map fun t => s.close t.1 t.2).getD s := by
  cases job with
  | init ctx ctxPos todo ret =>
    cases todo with
    | nil =>
      rw [finish] at h
      rw [closes]
      split at h
      · next hret =>
        cases h
        rw [if_pos hret]
        rfl
      · next hret =>
        cases h
        rw [if_neg hret]
        rfl
    | cons p todo => cases h
  | deinit ctx ctxPos todo =>
    cases todo with
    | nil =>
      cases h
      rfl
    | cons p todo => cases h
  | finished error => cases h

/-- What the failure of a job does: it closes its context. -/
theorem Job.fail_eq {error : Bool} (h : job.fail s = some (s', error)) :
    s' = (job.target.map fun t => s.close t.1 t.2).getD s := by
  cases job with
  | init ctx ctxPos todo ret => cases h; rfl
  | deinit ctx ctxPos todo => cases h; rfl
  | finished error => cases h

/-- What the end or the failure of a job does, with what it closes. -/
theorem loaderStep_ends {modDir : CString} {detached : Bool} {act : LoaderAct H}
    {out : Option (LoggedCall H)} (hact : act = .finish j ∨ act = .fail j)
    (h : loaderStep modDir detached s act = some (s', out)) :
    ∃ job error, s.jobs[j]? = some job ∧
      (∀ t, act.closes s = some t → job.target = some t) ∧
      s' = Loader.setJob ((((act.closes s).map fun t => s.close t.1 t.2)).getD s) j
        (.finished error) := by
  rcases hact with rfl | rfl
  · cases loaderStep_inv h with
    | @finish _ job _ error hjob hfinish =>
      refine ⟨job, error, hjob, fun t ht => ?_, ?_⟩
      · rw [LoaderAct.closes, hjob, Option.bind_some] at ht
        exact Job.target_of_closes ht
      · rw [LoaderAct.closes, hjob, Option.bind_some, Job.finish_eq hfinish]
  · cases loaderStep_inv h with
    | @fail _ job _ error hjob hfail =>
      refine ⟨job, error, hjob, fun t ht => ?_, ?_⟩
      · rwa [LoaderAct.closes, hjob, Option.bind_some] at ht
      · rw [LoaderAct.closes, hjob, Option.bind_some, Job.fail_eq hfail]

/-! ## Runs -/

/-- `modules_loadmod` keeps the invariant. -/
theorem sound_modulesLoadmod {modDir modFile : CString} {sys : LoadSys H} (hs : s.table.Sound)
    (h : modulesLoadmod modDir sys s modFile = some s') : s'.table.Sound := by
  obtain ⟨t, ht, htable⟩ := modulesLoadmod_table h
  have hsound : t.Sound := by
    rcases ht with rfl | ⟨moved, n, rfl⟩
    · exact hs
    · exact hs.grow
  rcases htable with ⟨hsame, -⟩ | ⟨i, hi, -, hacquire | hrequest⟩
  · rw [hsame]
    exact hsound
  · rw [hacquire]
    exact hsound.acquire hi
  · rw [hrequest]
    refine (hsound.acquire hi).request ?_
    exact SlotTable.getElem?_set_eq_some.2 (.inl ⟨rfl, (List.getElem?_eq_some_iff.1 hi).1, rfl⟩)

/-- An event for a module with `module_cleanup`, or for none, keeps the invariant. -/
theorem sound_watchdirEvent {queued : Bool} {evt : InotifyEvent} (hs : s.table.Sound)
    (hcleanup : ∀ i, s.findModule evt.name = some i → (s.cleanupOf evt.name).isSome) :
    (watchdirEvent queued s evt).table.Sound := by
  rcases watchdirEvent_table queued s evt with ⟨-, hsame⟩ | ⟨i, ctx, hfind, hctx, hcases⟩
  · rw [hsame]
    exact hs
  · rcases hcases with ⟨hnone, -⟩ | ⟨-, htable⟩
    · have hsome := hcleanup i hfind
      rw [hnone] at hsome
      cases hsome
    · rw [htable]
      split
      · exact hs.request hctx
      · exact hs

/-- The end of a job that closes nothing, or finds what it closes, keeps the invariant; otherwise an
entry of `loaded` refers to a freed context, or a context was freed twice. -/
theorem ends_sound_iff {modDir : CString} {detached : Bool} {act : LoaderAct H}
    {out : Option (LoggedCall H)} (hact : act = .finish j ∨ act = .fail j) (hs : s.table.Sound)
    (h : loaderStep modDir detached s act = some (s', out)) :
    ((∀ ctx ctxPos, act.closes s = some (ctx, ctxPos) → s.entryAt ctxPos = some ctx) →
        s'.table.Sound) ∧
      ((∃ ctx ctxPos, act.closes s = some (ctx, ctxPos) ∧ s.entryAt ctxPos ≠ some ctx) →
        ¬ s'.table.Live) := by
  obtain ⟨job, error, hjob, htarget, rfl⟩ := loaderStep_ends hact h
  rw [Loader.table_setJob_finished]
  constructor
  · intro hown
    refine SlotTable.Sound.finish ?_
    cases hcloses : act.closes s with
    | none => exact hs
    | some t =>
      show (s.close t.1 t.2).table.Sound
      rw [Loader.table_close]
      exact hs.release (hown t.1 t.2 hcloses)
  · rintro ⟨ctx, ctxPos, hcloses, hother⟩ hlive
    have hmem := Loader.mem_pending hjob (htarget _ hcloses)
    refine hs.not_live_release hmem hother ?_
    rw [hcloses] at hlive
    rw [← Loader.table_close]
    exact ⟨hlive.held, hlive.once⟩

/-- A step that meets the condition keeps the invariant. -/
theorem sound_loaderStep {modDir : CString} {act : LoaderAct H} {out : Option (LoggedCall H)}
    (hs : s.table.Sound) (hown : act.FindsOwn s)
    (hstep : loaderStep modDir poolDetached s act = some (s', out)) : s'.table.Sound := by
  cases loaderStep_inv hstep with
  | loadmod hload => exact sound_modulesLoadmod hs hload
  | event hread => exact sound_watchdirEvent hs fun i => hown.1 _ _ i rfl
  | join hwatchdog hjoined => exact hs
  | @load _ sys s₁ hwatchdog hload =>
    have hsound : s₁.table.Sound := sound_modulesLoadmod hs hload
    exact hsound
  | @call j job calloc op cmds r hjob hop hcmds =>
    have htable : Loader.table { s.setJob j (job.afterCall r) with cmds := cmds } = s.table :=
      Loader.table_setJob_afterCall hjob
    rw [htable]
    exact hs
  | finish hjob hfinish => exact (ends_sound_iff (.inl rfl) hs hstep).1 hown.2
  | fail hjob hfail => exact (ends_sound_iff (.inr rfl) hs hstep).1 hown.2

/-- A step that does not meet it leaves an entry that refers to a freed context, or has freed one
twice. -/
theorem not_live_loaderStep {modDir : CString} {act : LoaderAct H} {out : Option (LoggedCall H)}
    (hs : s.table.Sound) (hother : ¬ act.FindsOwn s)
    (hstep : loaderStep modDir poolDetached s act = some (s', out)) : ¬ s'.table.Live := by
  intro hlive
  cases act with
  | event queued evt =>
    refine hother ⟨?_, by rintro ctx ctxPos ⟨⟩⟩
    rintro queued' evt' i ⟨⟩ hfind
    cases loaderStep_inv hstep with
    | event hread =>
      rcases watchdirEvent_table queued s evt with ⟨hnot, -⟩ | ⟨k, ctx, -, hctx, hcases⟩
      · cases hnot.symm.trans hfind
      · rcases hcases with ⟨-, htable⟩ | ⟨hsome, -⟩
        · rw [htable] at hlive
          exact absurd hlive (SlotTable.not_live_drop hctx)
        · exact hsome
  | finish j =>
    refine hother ⟨by rintro queued evt i ⟨⟩, fun ctx ctxPos hcloses => ?_⟩
    by_contra hne
    exact (ends_sound_iff (.inl rfl) hs hstep).2 ⟨ctx, ctxPos, hcloses, hne⟩ hlive
  | fail j =>
    refine hother ⟨by rintro queued evt i ⟨⟩, fun ctx ctxPos hcloses => ?_⟩
    by_contra hne
    exact (ends_sound_iff (.inr rfl) hs hstep).2 ⟨ctx, ctxPos, hcloses, hne⟩ hlive
  | _ => exact hother ⟨by rintro queued evt i ⟨⟩, by rintro ctx ctxPos ⟨⟩⟩

/-- The empty table before the first module is loaded. -/
theorem sound_loaderInit : (loaderInit : Loader H).table.Sound := by
  have hempty : ∀ (i r : Nat), (loaderInit : Loader H).table.slots[i]? ≠ some (some r) := by
    intro i r hi
    cases List.eq_of_mem_replicate (List.mem_of_getElem? hi)
  refine ⟨⟨fun i r hi => absurd hi (hempty i r), List.nodup_nil⟩,
    fun i r hi => absurd hi (hempty i r), ?_, fun i k r hi => absurd hi (hempty i r), ?_, ?_⟩
  · rintro r ⟨⟩
  · rintro r pos ⟨⟩
  · rintro r pos ⟨⟩

/-- In every run of the loader, all entries refer to contexts that are not freed, and no context is
freed twice, if and only if every module that is unloaded has `module_cleanup` and every job that
closes a context finds it where its `ctx_pos` points. -/
theorem entriesLive_iff (modDir : CString) (acts : List (LoaderAct H)) :
    EveryState (loaderStep modDir poolDetached) loaderInit acts Loader.EntriesLive ↔
      EachStep (loaderStep modDir poolDetached) loaderInit acts LoaderAct.FindsOwn := by
  refine everyState_iff_eachStep (I := fun s => s.table.Sound)
    (fun s hs => Loader.entriesLive_iff_table.2 hs.toLive) ?_ ?_ acts sound_loaderInit
  · exact fun s act s' out hs hown hstep => sound_loaderStep hs hown hstep
  · exact fun s act s' out hs hother hstep hlive =>
      not_live_loaderStep hs hother hstep (Loader.entriesLive_iff_table.1 hlive)

/-- A module without `module_cleanup` is deleted: its context is freed and its entry stays. And the
file of a module is written twice before the first cleanup runs: the second event finds the entry of
the first context again, and both cleanups free it. -/
theorem not_entriesLive :
    ¬ EveryState (loaderStep (H := Unit) (CString.lit "./") poolDetached) loaderInit
        [.loadmod ⟨some ⟨[], none⟩, some false, true, true⟩ (CString.lit "a.so"),
          .event true ⟨true, CString.lit "a.so"⟩] Loader.EntriesLive ∧
      ¬ EveryState (loaderStep (H := Unit) (CString.lit "./") poolDetached) loaderInit
        [.loadmod ⟨some ⟨[], some []⟩, some false, true, true⟩ (CString.lit "a.so"),
          .event true ⟨false, CString.lit "a.so"⟩, .join,
          .load ⟨some ⟨[], some []⟩, some false, true, true⟩,
          .event true ⟨false, CString.lit "a.so"⟩, .join,
          .load ⟨some ⟨[], some []⟩, some false, true, true⟩,
          .finish 1, .finish 3] Loader.EntriesLive := by
  constructor
  · intro h
    have hlive := h _ _ _ (List.prefix_refl _) rfl
    exact hlive.held 0 0 rfl (.head _)
  · intro h
    have honce : [0, 0].Nodup := (h _ _ _ (List.prefix_refl _) rfl).once
    exact absurd honce (by decide)

end

end MinervaBot
