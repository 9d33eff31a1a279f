import MinervaBot.LoaderContexts

/-!
# Free entries for new modules

`modules_loadmod` lets `loaded` grow when `loaded_use` is about to reach `loaded_len`, then searches
a free entry, and ends the bot if there is none. But `loaded_use` goes down when an unload is asked
for, and the entry is cleared when the cleanup of the module has run, or never.

`searchFinds_iff` tells for every run when each search finds a free entry: while `loaded` does not
grow, the unloads that were asked for and not yet made up by a cleared entry must fit behind
`loaded_use`.
-/

namespace MinervaBot

open Lib

variable {H : Type}

/-! ## Searches -/

/-- The loader in which `modules_loadmod` searches a free entry, if it gets there. -/
def Loader.searched (modDir : CString) (sys : LoadSys H) (s : Loader H) (modFile : CString) :
    Option (Loader H) :=
  if modFile.length + modDir.length + 1 > pathMax then none
  else sys.dlopen.bind fun _ => s.grow sys.realloc

/-- The loader in which a step searches a free entry. -/
def LoaderAct.searched (modDir : CString) (s : Loader H) : LoaderAct H → Option (Loader H)
  | .loadmod sys modFile =>
    match s.watchdog with
    | .join .. => none
    | _ => s.searched modDir sys modFile
  | .load sys =>
    match s.watchdog with
    | .load name => s.searched modDir sys name
    | _ => none
  | _ => none

/-- Whenever a run gets to the search of `modules_loadmod`, an entry is free. -/
def SearchFinds (modDir : CString) (acts : List (LoaderAct H)) : Prop :=
  ∀ (pre : List (LoaderAct H)) (act : LoaderAct H) (s : Loader H)
    (outs : List (Option (LoggedCall H))) (s₁ : Loader H), pre ++ [act] <+: acts →
    runSteps (loaderStep modDir poolDetached) loaderInit pre = some (s, outs) →
    act.searched modDir s = some s₁ → ∃ i : Nat, s₁.loaded[i]? = some none

/-! ## Requests and cleared entries -/

/-- Whether a step lowers `loaded_use` for an unload: at the end of `threadpool_queue_deinit`. -/
def LoaderAct.unloads (s : Loader H) : LoaderAct H → Nat
  | .join => 1
  | .event false evt => if (s.cleanupOf evt.name).isSome then 1 else 0
  | _ => 0

/-- Whether a step clears an entry that is not `NULL`. -/
def LoaderAct.clears (s : Loader H) (act : LoaderAct H) : Nat :=
  if ((act.closes s).bind fun t => s.entryAt t.2).isSome then 1 else 0

/-- How often a run lowers `loaded_use`. -/
def unloadCount (modDir : CString) (acts : List (LoaderAct H)) : Nat :=
  countSteps (loaderStep modDir poolDetached) LoaderAct.unloads loaderInit acts

/-- How many entries a run clears. -/
def clearCount (modDir : CString) (acts : List (LoaderAct H)) : Nat :=
  countSteps (loaderStep modDir poolDetached) LoaderAct.clears loaderInit acts

/-- Whenever a run gets to the search of `modules_loadmod` without growth of `loaded`, there is room
behind `loaded_use` for the unloads so far that were not yet made up by a cleared entry. -/
def RequestsFit (modDir : CString) (acts : List (LoaderAct H)) : Prop :=
  ∀ (pre : List (LoaderAct H)) (act : LoaderAct H) (s : Loader H)
    (outs : List (Option (LoggedCall H))) (s₁ : Loader H), pre ++ [act] <+: acts →
    runSteps (loaderStep modDir poolDetached) loaderInit pre = some (s, outs) →
    act.searched modDir s = some s₁ → s.loadedUse + 1 < s.loaded.length →
      s.loadedUse + unloadCount modDir pre < s.loaded.length + clearCount modDir pre

/-- How many entries of `loaded` are in use beyond `loaded_use`. -/
def Loader.drift (s : Loader H) : Int :=
  s.table.occupied - s.loadedUse

section
variable {s s' : Loader H} {modDir modFile : CString} {sys : LoadSys H}

/-- A load raises both numbers, or none. -/
theorem drift_modulesLoadmod (h : modulesLoadmod modDir sys s modFile = some s') :
    s'.drift = s.drift ∧ s.loaded.length ≤ s'.loaded.length := by
  obtain ⟨t, ht, htable⟩ := modulesLoadmod_table h
  have hgrown : t.occupied = s.table.occupied ∧ s.table.slots.length ≤ t.slots.length := by
    rcases ht with rfl | ⟨moved, n, rfl⟩
    · exact ⟨rfl, Nat.le_refl _⟩
    · exact ⟨SlotTable.occupied_grow, by simp [SlotTable.grow]⟩
  have hlen : ∀ i, (t.acquire i).slots.length = t.slots.length := fun i => List.length_set
  rcases htable with ⟨hsame, huse⟩ | ⟨i, hi, huse, hacquire | hrequest⟩
  · rw [Loader.drift, Loader.drift, hsame, huse, hgrown.1]
    refine ⟨rfl, ?_⟩
    show s.table.slots.length ≤ s'.table.slots.length
    rw [hsame]
    exact hgrown.2
  · rw [Loader.drift, Loader.drift, hacquire, huse, SlotTable.occupied_acquire hi, hgrown.1]
    refine ⟨by omega, ?_⟩
    show s.table.slots.length ≤ s'.table.slots.length
    rw [hacquire, hlen]
    exact hgrown.2
  · have hoccupied : ((t.acquire i).request t.count ⟨t.block, i⟩).occupied = t.occupied + 1 :=
      SlotTable.occupied_acquire hi
    rw [Loader.drift, Loader.drift, hrequest, huse, hoccupied, hgrown.1]
    refine ⟨by omega, ?_⟩
    show s.table.slots.length ≤ s'.table.slots.length
    rw [hrequest]
    exact (hlen i).symm ▸ hgrown.2

/-- An event clears no entry; without a thread for the cleanup `loaded_use` goes down at once. -/
theorem watchdirEvent_use {queued : Bool} {evt : InotifyEvent} :
    (watchdirEvent queued s evt).loaded = s.loaded ∧
      (watchdirEvent queued s evt).loadedUse =
        s.loadedUse - LoaderAct.unloads s (.event queued evt) := by
  rw [watchdirEvent]
  cases hfind : s.findModule evt.name with
  | none =>
    have hnone : s.cleanupOf evt.name = none := by
      rw [Loader.cleanupOf, hfind]
      rfl
    cases queued <;> simp [LoaderAct.unloads, hnone]
  | some i =>
    obtain ⟨ctx, hctx⟩ := Loader.findModule_entry hfind
    have hcleanup := Loader.cleanupOf_eq hfind hctx
    simp only [hctx, Option.join_some, modulesUnloadmod]
    cases hnames : s.ctxs[ctx]?.bind (·.dlsym.moduleCleanup) with
    | none => cases queued <;> simp [LoaderAct.unloads, hcleanup, hnames]
    | some names => cases queued <;> simp [LoaderAct.unloads, hcleanup, hnames]

/-- Clearing an entry leaves `loaded_use` and the length of `loaded`. -/
theorem Loader.close_use (ctx : Nat) (ctxPos : CtxPos) (s : Loader H) :
    (s.close ctx ctxPos).loadedUse = s.loadedUse ∧
      (s.close ctx ctxPos).loaded.length = s.loaded.length := by
  unfold Loader.close Loader.clearPos
  split
  · exact ⟨rfl, List.length_set⟩
  · exact ⟨rfl, rfl⟩

/-- The end of a job clears at most one entry, and leaves `loaded_use`. -/
theorem drift_ends {detached : Bool} {act : LoaderAct H} {out : Option (LoggedCall H)} {j : Nat}
    (hact : act = .finish j ∨ act = .fail j)
    (h : loaderStep modDir detached s act = some (s', out)) :
    s'.drift + act.clears s = s.drift ∧ s'.loaded.length = s.loaded.length := by
  obtain ⟨job, error, -, -, rfl⟩ := loaderStep_ends hact h
  rw [LoaderAct.clears]
  cases act.closes s with
  | none => exact ⟨Int.add_zero _, rfl⟩
  | some t =>
    obtain ⟨huse, hlen⟩ := Loader.close_use t.1 t.2 s
    refine ⟨?_, hlen⟩
    have hclear := @SlotTable.occupied_clear s.table t.2.slotPos
    have hoccupied : (s.close t.1 t.2).table.occupied = (s.table.clear t.2.slotPos).occupied := by
      rw [Loader.table_close]
      rfl
    have hentry : s.table.held t.2.slotPos = s.entryAt t.2 := rfl
    show ((s.close t.1 t.2).table.occupied - (s.close t.1 t.2).loadedUse : Int) + _ = _
    rw [hoccupied, huse, Option.bind_some, ← hentry, Loader.drift]
    omega

/-- One step: the unloads raise the drift, and the cleared entries lower it. `loaded` never gets
shorter. -/
theorem drift_loaderStep {detached : Bool} {act : LoaderAct H} {out : Option (LoggedCall H)}
    (h : loaderStep modDir detached s act = some (s', out)) :
    s'.drift + act.clears s = s.drift + act.unloads s ∧ s.loaded.length ≤ s'.loaded.length := by
  cases loaderStep_inv h with
  | loadmod hload =>
    obtain ⟨hdrift, hlen⟩ := drift_modulesLoadmod hload
    exact ⟨congrArg (· + 0) hdrift, hlen⟩
  | @event queued evt hread =>
    obtain ⟨hloaded, huse⟩ := @watchdirEvent_use _ s queued evt
    have hoccupied : (watchdirEvent queued s evt).table.occupied = s.table.occupied := by
      show List.countP _ (watchdirEvent queued s evt).loaded = _
      rw [hloaded]
      rfl
    refine ⟨?_, by rw [hloaded]⟩
    show _ + ((0 : Nat) : Int) = _
    rw [Loader.drift, Loader.drift, hoccupied, huse]
    omega
  | join hwatchdog hjoined =>
    refine ⟨?_, Nat.le_refl _⟩
    show (s.table.occupied - (s.loadedUse - 1) : Int) + ((0 : Nat) : Int) = _ + ((1 : Nat) : Int)
    rw [Loader.drift]
    omega
  | load hwatchdog hload =>
    obtain ⟨hdrift, hlen⟩ := drift_modulesLoadmod hload
    exact ⟨congrArg (· + 0) hdrift, hlen⟩
  | call hjob hop hcmds => exact ⟨rfl, Nat.le_refl _⟩
  | finish hjob hfinish =>
    obtain ⟨hdrift, hlen⟩ := drift_ends (.inl rfl) h
    exact ⟨hdrift.trans (Int.add_zero _).symm, Nat.le_of_eq hlen.symm⟩
  | fail hjob hfail =>
    obtain ⟨hdrift, hlen⟩ := drift_ends (.inr rfl) h
    exact ⟨hdrift.trans (Int.add_zero _).symm, Nat.le_of_eq hlen.symm⟩

/-- Where the search takes place: in `loaded` as it is, or as it has grown. -/
theorem searched_cases {act : LoaderAct H} (h : act.searched modDir s = some s') :
    s.loaded.length ≤ s.loadedUse + 1 ∧
        s'.loaded = s.loaded ++ .replicate s.loaded.length none ∨
      s.loadedUse + 1 < s.loaded.length ∧ s' = s := by
  have hgrow : ∃ realloc, s.grow realloc = some s' := by
    have hsearched : ∀ {sys : LoadSys H} {modFile : CString},
        s.searched modDir sys modFile = some s' → ∃ realloc, s.grow realloc = some s' := by
      intro sys modFile h
      rw [Loader.searched] at h
      split at h
      · cases h
      · obtain ⟨lib, -, hgrow⟩ := Option.bind_eq_some_iff.1 h
        exact ⟨_, hgrow⟩
    cases act with
    | loadmod sys modFile =>
      rw [LoaderAct.searched] at h
      split at h
      · cases h
      · exact hsearched h
    | load sys =>
      rw [LoaderAct.searched] at h
      split at h
      · exact hsearched h
      · cases h
    | _ => cases h
  obtain ⟨realloc, hgrow⟩ := hgrow
  rw [Loader.grow] at hgrow
  split at hgrow
  · next hfull =>
    obtain ⟨moved, -, rfl⟩ := Option.map_eq_some_iff.1 hgrow
    exact .inl ⟨hfull, rfl⟩
  · next hroom =>
    cases hgrow
    exact .inr ⟨by omega, rfl⟩

/-- The drift of a run is what was unloaded less what was cleared, and `loaded` keeps its first
entries. -/
theorem drift_run {acts : List (LoaderAct H)} {outs : List (Option (LoggedCall H))}
    (h : runSteps (loaderStep modDir poolDetached) loaderInit acts = some (s, outs)) :
    s.drift + clearCount modDir acts = unloadCount modDir acts ∧ 6 ≤ s.loaded.length := by
  constructor
  · have hledger := runSteps_ledger (fun _ _ _ _ hstep => (drift_loaderStep hstep).1) h
    rwa [show (loaderInit : Loader H).drift = 0 from rfl, Int.zero_add] at hledger
  · have hkeep : ∀ (s : Loader H) (act : LoaderAct H) s' out, 6 ≤ s.loaded.length →
        loaderStep modDir poolDetached s act = some (s', out) → 6 ≤ s'.loaded.length :=
      fun _ _ _ _ hlen hstep => Nat.le_trans hlen (drift_loaderStep hstep).2
    have hlen : 6 ≤ (loaderInit : Loader H).loaded.length := Nat.le_refl 6
    exact runSteps_preserves hkeep hlen h

/-- In every run, each search of `modules_loadmod` finds a free entry if and only if, whenever
`loaded` does not grow, the unloads so far that no cleared entry has made up fit behind
`loaded_use`. -/
theorem searchFinds_iff (modDir : CString) (acts : List (LoaderAct H)) :
    SearchFinds modDir acts ↔ RequestsFit modDir acts := by
  have hfree : ∀ (pre : List (LoaderAct H)) (act : LoaderAct H) s outs (s₁ : Loader H),
      runSteps (loaderStep modDir poolDetached) loaderInit pre = some (s, outs) →
      act.searched modDir s = some s₁ → ((∃ i : Nat, s₁.loaded[i]? = some none) ↔
        (s.loadedUse + 1 < s.loaded.length →
          s.loadedUse + unloadCount modDir pre < s.loaded.length + clearCount modDir pre)) := by
    intro pre act s outs s₁ hrun hsearched
    obtain ⟨hdrift, hlen⟩ := drift_run hrun
    rcases searched_cases hsearched with ⟨hfull, hgrown⟩ | ⟨hroom, rfl⟩
    · refine ⟨fun _ hlt => absurd hlt (by omega), fun _ => ⟨s.loaded.length, ?_⟩⟩
      rw [hgrown, List.getElem?_append_right (Nat.le_refl _), Nat.sub_self,
        List.getElem?_replicate, if_pos (by omega)]
    · have hexists := @SlotTable.exists_free_iff s₁.table
      rw [Loader.drift] at hdrift
      refine (hexists.trans ?_).trans ⟨fun h _ => h, fun h => h hroom⟩
      show s₁.table.occupied < s₁.loaded.length ↔ _
      omega
  constructor
  · intro h pre act s outs s₁ hpre hrun hsearched
    exact (hfree pre act s outs s₁ hrun hsearched).1 (h pre act s outs s₁ hpre hrun hsearched)
  · intro h pre act s outs s₁ hpre hrun hsearched
    exact (hfree pre act s outs s₁ hrun hsearched).2 (h pre act s outs s₁ hpre hrun hsearched)

/-- The file of a module is written six times while no cleanup gets to run: `loaded_use` stays at
`1`, and the last load finds no free entry. -/
theorem not_searchFinds :
    ¬ SearchFinds (H := Unit) (CString.lit "./")
      (.loadmod ⟨some ⟨[], some []⟩, some false, true, true⟩ (CString.lit "a.so") ::
        (List.replicate 6
          [.event true ⟨false, CString.lit "a.so"⟩, .join,
            .load ⟨some ⟨[], some []⟩, some false, true, true⟩]).flatten) := by
  intro h
  obtain ⟨i, hi⟩ := h
    (.loadmod ⟨some ⟨[], some []⟩, some false, true, true⟩ (CString.lit "a.so") ::
      ((List.replicate 5
        [.event true ⟨false, CString.lit "a.so"⟩, .join,
          .load ⟨some ⟨[], some []⟩, some false, true, true⟩]).flatten ++
        [.event true ⟨false, CString.lit "a.so"⟩, .join]))
    (.load ⟨some ⟨[], some []⟩, some false, true, true⟩) _ _ _ (List.prefix_refl _) rfl rfl
  have hnone : none ∈ [some 0, some 1, some 2, some 3, some 4, some 5] :=
    List.mem_of_getElem? hi
  exact absurd hnone (by decide)

end

end MinervaBot
