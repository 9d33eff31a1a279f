import MinervaBot.PermissionsEntries
import MinervaBot.Pipeline
import Mathlib.Logic.Relation

/-!
# Where levels come from

A `setp` command gives a level below its sender's, so every level that is stored goes back to the
owner's along a chain of `setp` commands with falling levels (`Delegated`), each of them from a
sender whom the entry before it covers and each queued by a line that the connection has delivered.
This holds in any interleaving of the commands (`pipeline_delegated`): a command that goes on with a
level which another one has changed meanwhile still goes back to the entry from which its level was
read. So the calls above a notice go back to the owner, too, and without a command of the owner
there are none (`privileged_needs_owner`).
-/

namespace MinervaBot

open Lib

/-! ## Chains -/

/-- `permissions_get` looks at the entry of `k` for the host of the sender. -/
def Covers (k sender : CString) : Prop :=
  ∃ host, (ircParsesender sender).host = some host ∧ k ∈ candidates host

/-- By one of the commands, a `setp`, a sender whom the entry `p` covers gives `q`. -/
structure Gives (queue : List (QueueCmd Handler)) (p q : CString × Int) : Prop where
  op_le : permsOp ≤ p.2
  lt : q.2 < p.2
  asked : ∃ cmd ∈ queue, ∃ alloc, cmd.handler = .perms alloc ∧
    cmd.cmdname.bytes.head? = some 115 ∧ Covers p.1 cmd.sender ∧ Names cmd.args q.1 q.2

/-- The entry goes back to the owner's. -/
def Delegated (owner : Option CString) (queue : List (QueueCmd Handler)) (host : CString)
    (level : Int) : Prop :=
  ∃ o, owner = some o ∧ Relation.ReflTransGen (Gives queue) (o, 100000) (host, level)

/-- The level is `0`, or that of an entry that covers the sender and goes back to the owner's. -/
def Holds (owner : Option CString) (queue : List (QueueCmd Handler)) (sender : CString)
    (level : Int) : Prop :=
  level = 0 ∨ ∃ k, Covers k sender ∧ Delegated owner queue k level

section
variable {owner : Option CString} {queue queue' : List (QueueCmd Handler)}
  {host sender : CString} {level : Int}

/-- More commands leave what a `setp` gives. -/
theorem Gives.mono {p q : CString × Int} (h : Gives queue p q) (hsub : queue ⊆ queue') :
    Gives queue' p q where
  op_le := h.op_le
  lt := h.lt
  asked := by
    obtain ⟨cmd, hcmd, hasked⟩ := h.asked
    exact ⟨cmd, hsub hcmd, hasked⟩

/-- They leave the chains. -/
theorem Delegated.mono (h : Delegated owner queue host level) (hsub : queue ⊆ queue') :
    Delegated owner queue' host level := by
  obtain ⟨o, ho, hchain⟩ := h
  exact ⟨o, ho, Relation.ReflTransGen.mono (fun _ _ hgives => hgives.mono hsub) _ _ hchain⟩

/-- They leave the levels that are held. -/
theorem Holds.mono (h : Holds owner queue sender level) (hsub : queue ⊆ queue') :
    Holds owner queue' sender level :=
  h.imp_right fun ⟨k, hcovers, hk⟩ => ⟨k, hcovers, hk.mono hsub⟩

/-- Along a chain the levels fall: only the owner's entry has the owner's level. -/
theorem Delegated.level_cases (h : Delegated owner queue host level) :
    owner = some host ∧ level = 100000 ∨ level < 100000 := by
  obtain ⟨o, ho, hchain⟩ := h
  have hle : ∀ {q : CString × Int}, Relation.ReflTransGen (Gives queue) (o, 100000) q →
      q.2 ≤ 100000 := by
    intro q hq
    induction hq with
    | refl => exact Int.le_refl _
    | tail _ hgives ih =>
      have := hgives.lt
      omega
  rcases hchain.cases_tail with heq | ⟨p, hp, hgives⟩
  · cases heq
    exact .inl ⟨ho, rfl⟩
  · have hlt : level < p.2 := hgives.lt
    have := hle hp
    exact .inr (by omega)

/-- A chain starts with a command of a sender whom the owner's entry covers, unless it is the
owner's entry itself. -/
theorem Delegated.owner_cmd (h : Delegated owner queue host level) :
    ∃ o, owner = some o ∧ (host = o ∨ ∃ cmd ∈ queue, Covers o cmd.sender) := by
  obtain ⟨o, ho, hchain⟩ := h
  refine ⟨o, ho, ?_⟩
  rcases hchain.cases_head with heq | ⟨p, hgives, -⟩
  · cases heq
    exact .inl rfl
  · obtain ⟨cmd, hcmd, alloc, -, -, hcovers, -⟩ := hgives.asked
    exact .inr ⟨cmd, hcmd, hcovers⟩

/-- A `permissions_set` that a command names goes back to the owner's entry, as its level does. -/
theorem Holds.gives {cmd : QueueCmd Handler} (hcmd : cmd ∈ queue)
    (h : Holds owner queue cmd.sender level) {alloc : Alloc} {host : CString} {newLevel : Int}
    (hhandler : cmd.handler = .perms alloc) (hword : cmd.cmdname.bytes.head? = some 115)
    (hnames : Names cmd.args host newLevel) (hop : permsOp ≤ level) (hlt : newLevel < level) :
    Delegated owner queue host newLevel := by
  rcases h with rfl | ⟨k, hcovers, o, ho, hchain⟩
  · exact absurd hop (by decide)
  · exact ⟨o, ho, hchain.tail ⟨hop, hlt, cmd, hcmd, alloc, hhandler, hword, hcovers, hnames⟩⟩

end

/-! ## Runs -/

/-- The call is that of the command with this index; it speaks to the target of the command, and a
level allows it that the sender holds, or it is the modes of a `voice` with more than one word. -/
def Backed (owner : Option CString) (queue : List (QueueCmd Handler)) (j : Nat) (call : CoreCall) :
    Prop :=
  ∃ cmd, queue[j]? = some cmd ∧ call.At cmd.target ∧
    ∃ level, Holds owner queue cmd.sender level ∧
      call.Checked cmd.handler level cmd.cmdname cmd.args

/-- The invariant: every level that is stored, that a command goes on with, or that has allowed a
call goes back to the owner's. -/
structure Pipeline.Traced (owner : Option CString) (s : Pipeline) : Prop where
  stored : s.bot.perms.permMap.All (Delegated owner s.queue)
  checked : ∀ job ∈ s.jobs, ∀ level, job.pc = .checked level →
    Holds owner s.queue job.cmd.sender level
  logged : ∀ j call, (j, call) ∈ s.log → Backed owner s.queue j call
  calls : s.log.map Prod.snd = s.bot.calls

section
variable {cmdPrefix : CString} {owner : Option CString} {s s' : Pipeline} {j : Nat}
  {cmd : QueueCmd Handler} {pc : JobPc}

/-- A call stays backed when commands are queued. -/
theorem Backed.append {queue : List (QueueCmd Handler)} {call : CoreCall}
    (h : Backed owner queue j call) (more : List (QueueCmd Handler)) :
    Backed owner (queue ++ more) j call := by
  obtain ⟨cmd, hj, hat, level, hholds, hchecked⟩ := h
  have hlt : j < queue.length := (List.getElem?_eq_some_iff.1 hj).1
  exact ⟨cmd, (List.getElem?_append_left hlt).trans hj, hat, level,
    hholds.mono (List.subset_append_left _ _), hchecked⟩

/-- A step of a command keeps what is said of the other commands. -/
theorem Pipeline.Traced.of_set (h : s.Traced owner) (hj : s.jobs[j]? = some ⟨cmd, pc⟩) {pc' : JobPc}
    (hpc' : ∀ level, pc' = .checked level → Holds owner s.queue cmd.sender level) {bot : Bot}
    {log : List (Nat × CoreCall)} (hbot : bot.perms.permMap.All (Delegated owner s.queue))
    (hlog : ∀ i call, (i, call) ∈ log → (i, call) ∈ s.log ∨ Backed owner s.queue i call)
    (hcalls : log.map Prod.snd = bot.calls) :
    { s with bot, log, jobs := s.jobs.set j ⟨cmd, pc'⟩ }.Traced owner := by
  have hqueue : { s with bot, log, jobs := s.jobs.set j ⟨cmd, pc'⟩ }.queue = s.queue :=
    map_cmd_set hj pc'
  refine ⟨?_, ?_, ?_, hcalls⟩
  · rw [hqueue]
    exact hbot
  · intro job hjob level hlevel
    rw [hqueue]
    rcases List.mem_or_eq_of_mem_set hjob with hjob | rfl
    · exact h.checked job hjob level hlevel
    · exact hpc' level hlevel
  · intro i call hcall
    rw [hqueue]
    exact (hlog i call hcall).elim (h.logged i call) id

/-- A step that adds commands to queue. -/
theorem Pipeline.Traced.of_queued (h : s.Traced owner) {new : List PipelineJob}
    (hjobs : s'.jobs = s.jobs ++ new) (hnew : ∀ job ∈ new, job.pc = .queued) (hbot : s'.bot = s.bot)
    (hlog : s'.log = s.log) : s'.Traced owner := by
  have hqueue : s'.queue = s.queue ++ new.map PipelineJob.cmd := by
    rw [queue, queue, hjobs, List.map_append]
  have hsub : s.queue ⊆ s'.queue := by
    rw [hqueue]
    exact List.subset_append_left _ _
  refine ⟨?_, ?_, ?_, ?_⟩
  · rw [hbot]
    exact h.stored.mono fun _ _ hk => hk.mono hsub
  · intro job hjob level hlevel
    rw [hjobs] at hjob
    rcases List.mem_append.1 hjob with hjob | hjob
    · exact (h.checked job hjob level hlevel).mono hsub
    · rw [hnew job hjob] at hlevel
      cases hlevel
  · intro i call hcall
    rw [hlog] at hcall
    rw [hqueue]
    exact (h.logged i call hcall).append _
  · rw [hlog, hbot, h.calls]

/-- Every step keeps the invariant. -/
theorem Pipeline.Traced.step {act : PipelineAct} (h : s.Traced owner)
    (hstep : PipelineStep cmdPrefix s act s') : s'.Traced owner := by
  cases hstep with
  | connect | recv =>
    exact h.of_queued (List.append_nil _).symm (List.forall_mem_nil _) rfl rfl
  | @byte cmds accepted c rbuf hrbuf =>
    refine h.of_queued rfl (fun job hjob => ?_) rfl rfl
    split at hjob
    · obtain ⟨cmd, -, rfl⟩ := List.mem_map.1 hjob
      rfl
    · cases hjob
  | @checked j cmd level perms hj hget =>
    refine h.of_set hj ?_ ?_ (fun i call hcall => .inl hcall) h.calls
    · rintro level' ⟨⟩
      rcases permissionsGet_all h.stored hget with hzero | ⟨host, hhost, k, hk, hdelegated⟩
      · exact .inl hzero
      · exact .inr ⟨k, ⟨host, hhost, hk⟩, hdelegated⟩
    · have hmap := permissionsGet_permMap (ircParsesender cmd.sender).host s.bot.perms
      rw [hget] at hmap
      show perms.permMap.All _
      rw [hmap]
      exact h.stored
  | @lost j cmd hj =>
    refine h.of_set hj (by rintro level ⟨⟩) ?_ (fun i call hcall => .inl hcall) h.calls
    show (permissionsGet (ircParsesender cmd.sender).host s.bot.perms).2.permMap.All _
    rw [permissionsGet_permMap]
    exact h.stored
  | @handled j cmd level bot hj hrun =>
    have hmem := List.mem_of_getElem? hj
    have hcmd : cmd ∈ s.queue := List.mem_map_of_mem hmem
    have hholds := h.checked _ hmem level rfl
    obtain ⟨new, hnew, hall⟩ := cmd.handler.run_extends cmd.cmdname (cmd.who level) cmd.target
      cmd.args s.bot.calls s.bot (.refl _ _)
    rw [hrun] at hnew
    refine h.of_set hj (by rintro level ⟨⟩) ?_ (fun i call hcall => ?_) ?_
    · rw [← hrun]
      refine cmd.handler.run_preserves (Q := fun b => b.perms.permMap.All _)
        (fun call _ _ b hb => hb) (fun host b hb => ?_)
        (fun alloc host newLevel hhandler hword hnames hop hlt b hb => ?_) s.bot h.stored
      · show (permissionsGet host b.perms).2.permMap.All _
        rw [permissionsGet_permMap]
        exact hb
      · exact permissionsSet_all alloc (hholds.gives hcmd hhandler hword hnames hop hlt) b.perms hb
    · rcases List.mem_append.1 hcall with hcall | hcall
      · exact .inl hcall
      · rw [hnew, List.drop_left] at hcall
        obtain ⟨call', hcall', heq⟩ := List.mem_map.1 hcall
        cases heq
        obtain ⟨hat, hchecked⟩ := hall _ hcall'
        have hqueue : s.queue[j]? = some cmd := by
          rw [queue, List.getElem?_map, hj]
          rfl
        exact .inr ⟨cmd, hqueue, hat, level, hholds, hchecked⟩
    · rw [List.map_append, h.calls, hnew, List.drop_left, List.map_map]
      exact congrArg _ (List.map_id new)

/-- The start: the owner's entry is the only one. -/
theorem Pipeline.init_traced {calloc : Bool} {alloc : Alloc} {perms : PermState}
    (hinit : permissionsInit calloc alloc owner = some perms) (buf nickbuf : Mem) :
    (Pipeline.init perms buf nickbuf).Traced owner where
  stored := by
    show perms.permMap.All _
    unfold permissionsInit at hinit
    split at hinit
    · cases hinit
    · next m hnew =>
      have hempty : m.All (Delegated owner (init perms buf nickbuf).queue) := by
        unfold hashmapNew at hnew
        split at hnew
        · cases hnew
          rintro i cells ⟨⟩
        · cases hnew
      split at hinit
      · next o =>
        obtain ⟨m', hput, rfl⟩ := Option.map_eq_some_iff.1 hinit
        exact hempty.put ⟨o, rfl, .refl⟩ hput
      · cases hinit
        exact hempty
  checked := List.forall_mem_nil _
  logged := by rintro j call ⟨⟩
  calls := rfl

/-- Every state of a run has the invariant. -/
theorem pipeline_traced {calloc : Bool} {alloc : Alloc} {perms : PermState} {buf nickbuf : Mem}
    {acts : List PipelineAct} {os : List Unit}
    (hinit : permissionsInit calloc alloc owner = some perms)
    (h : runSteps (pipelineStep cmdPrefix) (.init perms buf nickbuf) acts = some (s, os)) :
    s.Traced owner :=
  runSteps_preserves (fun _ _ _ _ hs hstep => hs.step (pipelineStep_inv hstep))
    (Pipeline.init_traced hinit buf nickbuf) h

end

/-! ## What this means -/

section
variable {cmdPrefix : CString} {owner : Option CString} {calloc : Bool} {alloc : Alloc}
  {perms : PermState} {buf nickbuf : Mem} {acts : List PipelineAct} {s : Pipeline} {os : List Unit}

/-- In every run, whatever the connection delivers, whichever modules are loaded meanwhile and
however the commands interleave: each call into the core is that of a command which a line delivered
has queued, it speaks to the target of the command, and it is allowed for `0` or for the level of an
entry that covers the sender and goes back, along `setp` commands of covered senders with falling
levels, to the owner's; the modes of a `voice` with more than one word are the exception, and need
such a level from `PERMS_HOP` on. -/
theorem pipeline_delegated (hinit : permissionsInit calloc alloc owner = some perms)
    (h : runSteps (pipelineStep cmdPrefix) (.init perms buf nickbuf) acts = some (s, os)) :
    s.log.map Prod.snd = s.bot.calls ∧
      ∀ j call, (j, call) ∈ s.log → Backed owner (queuedCmds cmdPrefix acts) j call := by
  have htraced := pipeline_traced hinit h
  rw [← (Pipeline.lines_queue h).2]
  exact ⟨htraced.calls, htraced.logged⟩

/-- The appointment is a call of the owner's command. -/
theorem pipeline_delegated_appoint :
    ∃ perms s os, permissionsInit true .ok (some (CString.lit "own")) = some perms ∧
      runSteps (pipelineStep (CString.lit ",")) (.init perms (fun _ => 0) fun _ => 0) appointRun =
        some (s, os) ∧
      Backed (some (CString.lit "own")) (queuedCmds (CString.lit ",") appointRun) 0
        (.setperms (CString.lit "op") 40000) := by
  obtain ⟨perms, hinit⟩ : ∃ perms,
    permissionsInit true .ok (some (CString.lit "own")) = some perms := ⟨_, rfl⟩
  obtain ⟨s, os, hrun, hlog, -⟩ := appointRun_log hinit
  refine ⟨perms, s, os, hinit, hrun, (pipeline_delegated hinit hrun).2 0 _ ?_⟩
  rw [hlog]
  exact .head _

/-- In every run, each level that is stored is `0` or goes back to the owner's; and nobody but the
owner has a level that is not below the owner's. -/
theorem stored_delegated (hinit : permissionsInit calloc alloc owner = some perms)
    (h : runSteps (pipelineStep cmdPrefix) (.init perms buf nickbuf) acts = some (s, os))
    {host : CString} {level : Int} (hget : hashmapGet s.bot.perms.permMap host = some level) :
    (level = 0 ∨ Delegated owner (queuedCmds cmdPrefix acts) host level) ∧
      (owner = some host ∧ level = 100000 ∨ level < 100000) := by
  rw [← (Pipeline.lines_queue h).2]
  rcases (pipeline_traced hinit h).stored.get hget with hzero | hdelegated
  · exact ⟨.inl hzero, .inr (by omega)⟩
  · exact ⟨.inr hdelegated, hdelegated.level_cases⟩

/-- The level of `op` goes back to the owner's. -/
theorem stored_delegated_appoint :
    ∃ perms s os, permissionsInit true .ok (some (CString.lit "own")) = some perms ∧
      runSteps (pipelineStep (CString.lit ",")) (.init perms (fun _ => 0) fun _ => 0) appointRun =
        some (s, os) ∧
      hashmapGet s.bot.perms.permMap (CString.lit "op") = some 40000 ∧
      (((40000 : Int) = 0 ∨ Delegated (some (CString.lit "own"))
          (queuedCmds (CString.lit ",") appointRun) (CString.lit "op") 40000) ∧
        (some (CString.lit "own") = some (CString.lit "op") ∧ (40000 : Int) = 100000 ∨
          (40000 : Int) < 100000)) := by
  obtain ⟨perms, hinit⟩ : ∃ perms,
    permissionsInit true .ok (some (CString.lit "own")) = some perms := ⟨_, rfl⟩
  obtain ⟨s, os, hrun, -, hget⟩ := appointRun_log hinit
  exact ⟨perms, s, os, hinit, hrun, hget, stored_delegated hinit hrun hget⟩

/-- In every run: a call into the core that is no notice is made only after the connection has
delivered a line that has queued a command from a sender whom the owner's entry covers. -/
theorem privileged_needs_owner (hinit : permissionsInit calloc alloc owner = some perms)
    (h : runSteps (pipelineStep cmdPrefix) (.init perms buf nickbuf) acts = some (s, os))
    {j : Nat} {call : CoreCall} (hcall : (j, call) ∈ s.log) (hprivileged : ¬ call.IsNotice) :
    ∃ o, owner = some o ∧
      ∃ d ∈ deliveries acts, ∃ cmd ∈ d.queued cmdPrefix, Covers o cmd.sender := by
  have hdelivered : ∀ {cmd}, cmd ∈ s.queue → ∃ d ∈ deliveries acts, cmd ∈ d.queued cmdPrefix := by
    intro cmd hcmd
    rw [(Pipeline.lines_queue h).2] at hcmd
    exact List.mem_flatMap.1 hcmd
  obtain ⟨cmd, hj, -, level, hholds, hchecked⟩ := (pipeline_traced hinit h).logged j call hcall
  have hlevel : permsHop ≤ level := Int.not_lt.1 fun hlt => hprivileged (hchecked.isNotice hlt)
  rcases hholds with rfl | ⟨k, hcovers, hdelegated⟩
  · exact absurd hlevel (by decide)
  · obtain ⟨o, ho, rfl | ⟨cmd', hcmd', hcovers'⟩⟩ := hdelegated.owner_cmd
    · obtain ⟨d, hd, hmem⟩ := hdelivered (List.mem_of_getElem? hj)
      exact ⟨k, ho, d, hd, cmd, hmem, hcovers⟩
    · obtain ⟨d, hd, hmem⟩ := hdelivered hcmd'
      exact ⟨o, ho, d, hd, cmd', hmem, hcovers'⟩

/-- The appointment needs the command of the owner. -/
theorem privileged_needs_owner_appoint :
    ∃ perms s os, permissionsInit true .ok (some (CString.lit "own")) = some perms ∧
      runSteps (pipelineStep (CString.lit ",")) (.init perms (fun _ => 0) fun _ => 0) appointRun =
        some (s, os) ∧
      ∃ o, some (CString.lit "own") = some o ∧ ∃ d ∈ deliveries appointRun,
        ∃ cmd ∈ d.queued (CString.lit ","), Covers o cmd.sender := by
  obtain ⟨perms, hinit⟩ : ∃ perms,
    permissionsInit true .ok (some (CString.lit "own")) = some perms := ⟨_, rfl⟩
  obtain ⟨s, os, hrun, hlog, -⟩ := appointRun_log hinit
  refine ⟨perms, s, os, hinit, hrun, privileged_needs_owner hinit hrun (j := 0) ?_
    (show ¬ (CoreCall.setperms (CString.lit "op") 40000).IsNotice from id)⟩
  rw [hlog]
  exact .head _

end

end MinervaBot
