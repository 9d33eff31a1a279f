import MinervaBot.Commands
import MinervaBot.Handlers
import MinervaBot.IrcActions
import MinervaBot.Lib.Run

/-!
# From the connection to the handlers

`irc_loop` takes the bytes of `rbuf` one by one, and the commands it finds are run by the threads of
the pool while it reads on. A byte, the call of `permissions_get` at the start of a command and the
call of its handler are one step each, and they interleave in any order: between the two calls of a
command, other commands may change the level that the first of them has returned. The tree of the
commands is whatever it is when a line ends, since modules are loaded and unloaded meanwhile, and
the pool may refuse a command. `main` may connect anew, which starts `irc_loop` over.

`Pipeline` also records the lines of earlier connections and, with the index of its command, each
call into the core. What is undefined ends a run. The critical sections of `permissions_mutex` are
within a step each, so a mutex that a step finds taken is never released.

What a run delivers is read off its steps (`deliveries`): the chunks, framed anew on each
connection, and for each line the tree that is there when it ends. `pipeline_in_order` says that the
lines and the commands of the run are these.
-/

namespace MinervaBot

open Lib

/-- How far a command is. -/
inductive JobPc where
  | queued
  | checked (level : Int)
  | finished
  deriving DecidableEq

/-- A command in the pool. -/
structure PipelineJob where
  cmd : QueueCmd Handler
  pc : JobPc

/-- `irc_loop` with the rest of `rbuf` and the byte before it, the commands, and what they share. -/
structure Pipeline where
  rbuf : List UInt8
  prev : Option UInt8
  loop : LoopState
  past : List (List UInt8)
  jobs : List PipelineJob
  bot : Bot
  log : List (Nat × CoreCall)

/-- A step of `main`, or of the thread of a command. -/
inductive PipelineAct where
  | connect (buf nickbuf : Mem)
  | recv (chunk : Chunk)
  | byte (cmds : CommandTree Handler) (accepted : Bool)
  | check (j : Nat)
  | handle (j : Nat)

/-- The command that `modules_check_cmd` queues. -/
def IrcAction.queues (cmdPrefix : CString) (cmds : CommandTree Handler) :
    IrcAction → Option (QueueCmd Handler)
  | .modulesCheckCmd user target message =>
    MinervaBot.modulesCheckCmd cmdPrefix cmds user target message
  | _ => none

/-- `irc_loop` at a byte of `rbuf`. -/
def Pipeline.byte (cmdPrefix : CString) (s : Pipeline) (cmds : CommandTree Handler)
    (accepted : Bool) (c : UInt8) (rbuf : List UInt8) : Pipeline :=
  let loop := ircByte s.prev c s.loop
  let cmds := (loop.actions.drop s.loop.actions.length).filterMap (·.queues cmdPrefix cmds)
  { s with
    rbuf, loop
    prev := some c
    jobs := s.jobs ++ if accepted then cmds.map (⟨·, .queued⟩) else [] }

/-- The call of `permissions_get` in the thread of a command. -/
def Pipeline.check (s : Pipeline) (j : Nat) (cmd : QueueCmd Handler) : Option Pipeline :=
  match onPerms (permissionsGet (ircParsesender cmd.sender).host) s.bot with
  | (.returned level, bot) => some { s with bot, jobs := s.jobs.set j ⟨cmd, .checked level⟩ }
  | (.segv, bot) | (.blocked, bot) => some { s with bot, jobs := s.jobs.set j ⟨cmd, .finished⟩ }
  | (.undefined, _) => none

/-- The sender of a command as its handler gets it. -/
def QueueCmd.who (cmd : QueueCmd Handler) (level : Int) : CommandSender :=
  { ircParsesender cmd.sender with permissionLevel := level }

/-- The call of the handler in the thread of a command. -/
def Pipeline.handle (s : Pipeline) (j : Nat) (cmd : QueueCmd Handler) (level : Int) :
    Option Pipeline :=
  match cmd.handler.run cmd.cmdname (cmd.who level) cmd.target cmd.args s.bot with
  | (.returned _, bot) | (.segv, bot) | (.blocked, bot) =>
    some { s with
      bot
      jobs := s.jobs.set j ⟨cmd, .finished⟩
      log := s.log ++ (bot.calls.drop s.bot.calls.length).map (j, ·) }
  | (.undefined, _) => none

/-- A step. -/
def pipelineStep (cmdPrefix : CString) (s : Pipeline) : PipelineAct → Option (Pipeline × Unit)
  | .connect buf nickbuf =>
    some ({ s with
      rbuf := [], prev := none, loop := .init buf nickbuf, past := s.past ++ s.loop.lines }, ())
  | .recv chunk =>
    match s.rbuf with
    | [] => some ({ s with rbuf := chunk.rbuf, prev := none }, ())
    | _ :: _ => none
  | .byte cmds accepted =>
    match s.rbuf with
    | [] => none
    | c :: rbuf => some (s.byte cmdPrefix cmds accepted c rbuf, ())
  | .check j =>
    match s.jobs[j]? with
    | some ⟨cmd, .queued⟩ => (s.check j cmd).map (·, ())
    | _ => none
  | .handle j =>
    match s.jobs[j]? with
    | some ⟨cmd, .checked level⟩ => (s.handle j cmd level).map (·, ())
    | _ => none

/-- The start: a fresh `irc_loop` and no command yet. -/
def Pipeline.init (perms : PermState) (buf nickbuf : Mem) : Pipeline where
  rbuf := []
  prev := none
  loop := .init buf nickbuf
  past := []
  jobs := []
  bot := ⟨perms, []⟩
  log := []

/-- All lines handled. -/
def Pipeline.lines (s : Pipeline) : List (List UInt8) :=
  s.past ++ s.loop.lines

/-! ## What a run delivers -/

/-- A line that has come to its end, the tree at that moment, and whether the pool takes what
`modules_check_cmd` queues. -/
structure Delivery where
  line : List UInt8
  cmds : CommandTree Handler
  accepted : Bool

/-- The commands that a line puts into the pool. -/
def Delivery.queued (cmdPrefix : CString) (d : Delivery) : List (QueueCmd Handler) :=
  if d.accepted then (lineActions d.line).filterMap (·.queues cmdPrefix d.cmds) else []

/-- The lines that steps deliver: `rest` is what they have of a chunk, and `f` what the connection
has delivered before. -/
def deliveriesFrom : (rest : List (UInt8 × Bool)) → Framer UInt8 → List PipelineAct → List Delivery
  | _, _, [] => []
  | _, _, .connect .. :: acts => deliveriesFrom [] .init acts
  | rest, f, .recv chunk :: acts => deliveriesFrom (rest ++ chunkMarks none chunk.rbuf) f acts
  | [], f, .byte .. :: acts => deliveriesFrom [] f acts
  | x :: rest, f, .byte cmds accepted :: acts =>
    let g := f.feed 513 x
    (g.frames.drop f.frames.length).map (⟨·, cmds, accepted⟩) ++ deliveriesFrom rest g acts
  | rest, f, .check _ :: acts | rest, f, .handle _ :: acts => deliveriesFrom rest f acts

/-- The lines that the steps of a run deliver. -/
def deliveries (acts : List PipelineAct) : List Delivery :=
  deliveriesFrom [] .init acts

/-- The commands that the steps of a run put into the pool. -/
def queuedCmds (cmdPrefix : CString) (acts : List PipelineAct) : List (QueueCmd Handler) :=
  (deliveries acts).flatMap (·.queued cmdPrefix)

/-- The commands of a state. -/
def Pipeline.queue (s : Pipeline) : List (QueueCmd Handler) :=
  s.jobs.map (·.cmd)

/-! ## What a step does -/

/-- A step as a relation, with what it calls. -/
inductive PipelineStep (cmdPrefix : CString) (s : Pipeline) : PipelineAct → Pipeline → Prop
  | connect (buf nickbuf : Mem) : PipelineStep cmdPrefix s (.connect buf nickbuf)
      { s with
        rbuf := [], prev := none, loop := .init buf nickbuf, past := s.past ++ s.loop.lines }
  | recv {chunk : Chunk} : s.rbuf = [] →
      PipelineStep cmdPrefix s (.recv chunk) { s with rbuf := chunk.rbuf, prev := none }
  | byte {cmds : CommandTree Handler} {accepted : Bool} {c : UInt8} {rbuf : List UInt8} :
      s.rbuf = c :: rbuf →
      PipelineStep cmdPrefix s (.byte cmds accepted) (s.byte cmdPrefix cmds accepted c rbuf)
  | checked {j : Nat} {cmd : QueueCmd Handler} {level : Int} {perms : PermState} :
      s.jobs[j]? = some ⟨cmd, .queued⟩ →
      permissionsGet (ircParsesender cmd.sender).host s.bot.perms = (.returned level, perms) →
      PipelineStep cmdPrefix s (.check j)
        { s with
          bot := { s.bot with perms }
          jobs := s.jobs.set j ⟨cmd, .checked level⟩ }
  | lost {j : Nat} {cmd : QueueCmd Handler} :
      s.jobs[j]? = some ⟨cmd, .queued⟩ →
      PipelineStep cmdPrefix s (.check j)
        { s with
          bot :=
            { s.bot with perms := (permissionsGet (ircParsesender cmd.sender).host s.bot.perms).2 }
          jobs := s.jobs.set j ⟨cmd, .finished⟩ }
  | handled {j : Nat} {cmd : QueueCmd Handler} {level : Int} {bot : Bot} :
      s.jobs[j]? = some ⟨cmd, .checked level⟩ →
      (cmd.handler.run cmd.cmdname (cmd.who level) cmd.target cmd.args s.bot).2 = bot →
      PipelineStep cmdPrefix s (.handle j)
        { s with
          bot
          jobs := s.jobs.set j ⟨cmd, .finished⟩
          log := s.log ++ (bot.calls.drop s.bot.calls.length).map (j, ·) }

section
variable {cmdPrefix : CString} {s s' : Pipeline} {act : PipelineAct} {u : Unit}

theorem pipelineStep_inv (h : pipelineStep cmdPrefix s act = some (s', u)) :
    PipelineStep cmdPrefix s act s' := by
  cases act with
  | connect buf nickbuf =>
    cases h
    exact .connect buf nickbuf
  | recv chunk =>
    simp only [pipelineStep] at h
    split at h
    · next hrbuf => cases h; exact .recv hrbuf
    · cases h
  | byte cmds accepted =>
    simp only [pipelineStep] at h
    split at h
    · cases h
    · next hrbuf => cases h; exact .byte hrbuf
  | check j =>
    simp only [pipelineStep] at h
    split at h
    · next cmd hjob =>
      obtain ⟨s', hcheck, ⟨⟩⟩ := Option.map_eq_some_iff.1 h
      unfold Pipeline.check at hcheck
      simp only [onPerms, Exec.zoom] at hcheck
      generalize hget : permissionsGet (ircParsesender cmd.sender).host s.bot.perms = r at hcheck
      have hperms : r.2 = (permissionsGet (ircParsesender cmd.sender).host s.bot.perms).2 := by
        rw [hget]
      obtain ⟨outcome, perms⟩ := r
      cases outcome with
      | returned level => cases hcheck; exact .checked hjob hget
      | segv => cases hcheck; rw [show perms = _ from hperms]; exact .lost hjob
      | blocked => cases hcheck; rw [show perms = _ from hperms]; exact .lost hjob
      | undefined => cases hcheck
    · cases h
  | handle j =>
    simp only [pipelineStep] at h
    split at h
    · next cmd level hjob =>
      obtain ⟨s', hhandle, ⟨⟩⟩ := Option.map_eq_some_iff.1 h
      unfold Pipeline.handle at hhandle
      split at hhandle
      · next hrun => cases hhandle; exact .handled hjob (congrArg Prod.snd hrun)
      · next hrun => cases hhandle; exact .handled hjob (congrArg Prod.snd hrun)
      · next hrun => cases hhandle; exact .handled hjob (congrArg Prod.snd hrun)
      · cases hhandle
    · cases h

end

/-! ## Lines and commands -/

/-- The frames that are complete stay in front. -/
theorem frames_feed (f : Framer UInt8) (x : UInt8 × Bool) :
    (f.feed 513 x).frames = f.frames ++ (f.feed 513 x).frames.drop f.frames.length := by
  unfold Framer.feed
  split
  · rw [List.drop_left]
  · rw [List.drop_length, List.append_nil]

/-- The frames that a byte completes are the lines handled at it, and what is done then is what they
ask for. -/
theorem LoopState.Acts.byte_lines {loop : LoopState} {f : Framer UInt8} (h : loop.Acts f)
    (prev : Option UInt8) (c : UInt8) {new : List (List UInt8)}
    (hnew : new = ((f.feed 513 (c, decide (prev = some 13 ∧ c = 10))).frames.drop f.frames.length)) :
    (ircByte prev c loop).lines = loop.lines ++ new ∧
      (ircByte prev c loop).actions = loop.actions ++ new.flatMap lineActions := by
  have h' := h.byte prev c
  rw [h'.tracks.lines, h'.actions, h.tracks.lines, h.actions, frames_feed, ← hnew,
    List.flatMap_append]
  exact ⟨rfl, rfl⟩

section
variable {cmdPrefix : CString} {s s' : Pipeline} {f : Framer UInt8} {act : PipelineAct}

variable (cmdPrefix) in
/-- What a byte adds: the lines that it completes, and the commands that they queue. -/
theorem Pipeline.byte_new (h : s.loop.Acts f) (cmds : CommandTree Handler) (accepted : Bool)
    (c : UInt8) (rbuf : List UInt8) {new : List Delivery}
    (hnew : new = ((f.feed 513 (c, decide (s.prev = some 13 ∧ c = 10))).frames.drop
      f.frames.length).map (⟨·, cmds, accepted⟩)) :
    (s.byte cmdPrefix cmds accepted c rbuf).lines = s.lines ++ new.map (·.line) ∧
      (s.byte cmdPrefix cmds accepted c rbuf).queue =
        s.queue ++ new.flatMap (·.queued cmdPrefix) := by
  obtain ⟨hlines, hactions⟩ := h.byte_lines s.prev c rfl
  constructor
  · show s.past ++ (ircByte s.prev c s.loop).lines = s.past ++ s.loop.lines ++ _
    rw [hlines, hnew, List.map_map, List.append_assoc]
    exact congrArg _ (congrArg _ (List.map_id _).symm)
  · show (s.jobs ++ (if accepted then _ else _)).map PipelineJob.cmd = s.jobs.map PipelineJob.cmd ++ _
    rw [hactions, List.drop_left, List.map_append, hnew, List.flatMap_map]
    refine congrArg _ ?_
    cases accepted with
    | false => simp [Delivery.queued]
    | true =>
      show (List.map _ (List.filterMap _ _)).map PipelineJob.cmd = _
      rw [List.map_map, List.filterMap_flatMap]
      exact List.map_id _

/-- A step of a command leaves the commands. -/
theorem map_cmd_set {jobs : List PipelineJob} {j : Nat} {cmd : QueueCmd Handler} {pc : JobPc}
    (hj : jobs[j]? = some ⟨cmd, pc⟩) (pc' : JobPc) :
    (jobs.set j ⟨cmd, pc'⟩).map PipelineJob.cmd = jobs.map PipelineJob.cmd := by
  refine List.ext_getElem? fun i => ?_
  rw [List.getElem?_map, List.getElem?_map, List.getElem?_set]
  split
  · next hi =>
    subst hi
    rw [if_pos (List.getElem?_eq_some_iff.1 hj).1, hj]
    rfl
  · rfl

/-- What steps add from any state in which `irc_loop` has done what its lines ask for: the lines
that they deliver, and the commands that these queue. -/
theorem runSteps_deliveries : ∀ {acts : List PipelineAct} {s s' : Pipeline} {f : Framer UInt8}
    {os : List Unit}, runSteps (pipelineStep cmdPrefix) s acts = some (s', os) → s.loop.Acts f →
      s'.lines = s.lines ++ (deliveriesFrom (chunkMarks s.prev s.rbuf) f acts).map (·.line) ∧
      s'.queue = s.queue ++
        (deliveriesFrom (chunkMarks s.prev s.rbuf) f acts).flatMap (·.queued cmdPrefix)
  | [], s, s', f, os, h, hacts => by
    cases h
    exact ⟨(List.append_nil _).symm, (List.append_nil _).symm⟩
  | act :: acts, s, s', f, os, h, hacts => by
    obtain ⟨s₁, u, os', hstep, hrest, -⟩ := runSteps_cons_inv h
    cases pipelineStep_inv hstep with
    | connect buf nickbuf =>
      have hinit : (LoopState.init buf nickbuf).Acts .init :=
        ⟨LoopState.init_tracks buf nickbuf, rfl⟩
      obtain ⟨hlines, hqueue⟩ := runSteps_deliveries hrest hinit
      refine ⟨hlines.trans ?_, hqueue⟩
      show s.past ++ s.loop.lines ++ [] ++ _ = _
      rw [List.append_nil]
      rfl
    | recv hrbuf =>
      have hchunk := runSteps_deliveries hrest hacts
      rw [hrbuf]
      exact hchunk
    | @byte cmds accepted c rbuf hrbuf =>
      obtain ⟨hlines, hqueue⟩ := runSteps_deliveries hrest (hacts.byte s.prev c)
      obtain ⟨hlines₁, hqueue₁⟩ := s.byte_new cmdPrefix hacts cmds accepted c rbuf rfl
      rw [hrbuf]
      simp only [chunkMarks, deliveriesFrom, List.map_append, List.flatMap_append]
      rw [← List.append_assoc, ← List.append_assoc, ← hlines₁, ← hqueue₁]
      exact ⟨hlines, hqueue⟩
    | checked hj =>
      obtain ⟨hlines, hqueue⟩ := runSteps_deliveries hrest hacts
      refine ⟨hlines, hqueue.trans ?_⟩
      exact congrArg (fun queue => queue ++ _) (map_cmd_set hj _)
    | lost hj =>
      obtain ⟨hlines, hqueue⟩ := runSteps_deliveries hrest hacts
      refine ⟨hlines, hqueue.trans ?_⟩
      exact congrArg (fun queue => queue ++ _) (map_cmd_set hj _)
    | handled hj =>
      obtain ⟨hlines, hqueue⟩ := runSteps_deliveries hrest hacts
      refine ⟨hlines, hqueue.trans ?_⟩
      exact congrArg (fun queue => queue ++ _) (map_cmd_set hj _)

/-- The lines and the commands of a run are those that its steps deliver. -/
theorem Pipeline.lines_queue {perms : PermState} {buf nickbuf : Mem} {acts : List PipelineAct}
    {os : List Unit}
    (h : runSteps (pipelineStep cmdPrefix) (.init perms buf nickbuf) acts = some (s, os)) :
    s.lines = (deliveries acts).map (·.line) ∧ s.queue = queuedCmds cmdPrefix acts := by
  have hinit : (Pipeline.init perms buf nickbuf).loop.Acts .init :=
    ⟨LoopState.init_tracks buf nickbuf, rfl⟩
  exact runSteps_deliveries h hinit

/-- The chunk that a step receives. -/
def PipelineAct.chunk? : PipelineAct → Option Chunk
  | .recv chunk => some chunk
  | _ => none

/-- The step connects anew. -/
def PipelineAct.connects : PipelineAct → Bool
  | .connect .. => true
  | _ => false

/-- On a connection, what `irc_loop` has done and will do for the rest of `rbuf` is what it does for
the chunks that the steps have received. -/
theorem runSteps_received {start : LoopState} : ∀ {acts : List PipelineAct} {s s' : Pipeline}
    {os : List Unit} {chunks : List Chunk},
    runSteps (pipelineStep cmdPrefix) s acts = some (s', os) →
    (∀ act ∈ acts, act.connects = false) →
    ircBytes s.prev s.rbuf s.loop = ircLoop (received chunks) start →
      ircBytes s'.prev s'.rbuf s'.loop =
        ircLoop (received (chunks ++ acts.filterMap PipelineAct.chunk?)) start
  | [], s, s', os, chunks, h, _, hloop => by
    cases h
    rw [List.filterMap_nil, List.append_nil]
    exact hloop
  | act :: acts, s, s', os, chunks, h, hsame, hloop => by
    obtain ⟨s₁, u, os', hstep, hrest, -⟩ := runSteps_cons_inv h
    have hacts : ∀ act ∈ acts, act.connects = false := fun act hact => hsame act (.tail _ hact)
    cases pipelineStep_inv hstep with
    | connect buf nickbuf =>
      have hconnects := hsame _ (.head _)
      cases hconnects
    | @recv chunk hrbuf =>
      rw [hrbuf] at hloop
      have hchunk : ircBytes none chunk.rbuf s.loop = ircLoop (received (chunks ++ [chunk])) start := by
        rw [ircLoop_received_concat, ← hloop]
        rfl
      have hreceived := runSteps_received hrest hacts hchunk
      rwa [List.append_assoc] at hreceived
    | byte hrbuf =>
      rw [hrbuf] at hloop
      have hreceived := runSteps_received hrest hacts hloop
      exact hreceived
    | checked | lost | handled =>
      have hreceived := runSteps_received hrest hacts hloop
      exact hreceived

end

/-! ## Once and in order -/

/-- The command has finished. -/
def Pipeline.Finished (s : Pipeline) (j : Nat) : Prop :=
  ∃ cmd, s.jobs[j]? = some ⟨cmd, .finished⟩

/-- The step calls the handler of the command. -/
def PipelineAct.handles (j : Nat) : PipelineAct → Bool
  | .handle i => i == j
  | _ => false

section
variable {cmdPrefix : CString} {s s' : Pipeline} {act : PipelineAct} {u : Unit}

/-- A finished command stays so, while another command goes on. -/
theorem getElem?_set_finished {jobs : List PipelineJob} {i j : Nat} {cmd cmd' : QueueCmd Handler}
    {pc : JobPc} (hj : jobs[j]? = some ⟨cmd, pc⟩) (hpc : pc ≠ .finished)
    (hi : jobs[i]? = some ⟨cmd', .finished⟩) (job : PipelineJob) :
    (jobs.set j job)[i]? = some ⟨cmd', .finished⟩ := by
  rw [List.getElem?_set_ne, hi]
  rintro rfl
  rw [hi] at hj
  cases hj
  exact hpc rfl

/-- A finished command stays so, and its handler is not called again. -/
theorem Pipeline.Finished.step {j : Nat} (h : s.Finished j)
    (hstep : PipelineStep cmdPrefix s act s') : s'.Finished j ∧ act.handles j = false := by
  obtain ⟨cmd, hj⟩ := h
  cases hstep with
  | connect | recv => exact ⟨⟨cmd, hj⟩, rfl⟩
  | byte hrbuf =>
    refine ⟨⟨cmd, ?_⟩, rfl⟩
    exact (List.getElem?_append_left (List.getElem?_eq_some_iff.1 hj).1).trans hj
  | checked hi | lost hi => exact ⟨⟨cmd, getElem?_set_finished hi (by rintro ⟨⟩) hj _⟩, rfl⟩
  | @handled i cmd' level bot hi hrun =>
    refine ⟨⟨cmd, getElem?_set_finished hi (by rintro ⟨⟩) hj _⟩, beq_false_of_ne ?_⟩
    rintro rfl
    rw [hj] at hi
    cases hi

/-- The handler of a command is called by a step that finishes it. -/
theorem PipelineStep.handles {j : Nat} (hstep : PipelineStep cmdPrefix s act s')
    (hact : act.handles j = true) : s'.Finished j := by
  cases hstep with
  | connect | recv | byte | checked | lost => cases hact
  | @handled i cmd level bot hi hrun =>
    obtain rfl := eq_of_beq hact
    exact ⟨cmd, List.getElem?_set_self (List.getElem?_eq_some_iff.1 hi).1⟩

/-- From a state in which the command has finished its handler is never called, and from any state
at most once. -/
theorem countP_handles (j : Nat) : ∀ {acts : List PipelineAct} {s s' : Pipeline} {os : List Unit},
    runSteps (pipelineStep cmdPrefix) s acts = some (s', os) →
      acts.countP (·.handles j) ≤ 1 ∧ (s.Finished j → acts.countP (·.handles j) = 0)
  | [], s, s', os, h => ⟨Nat.zero_le 1, fun _ => rfl⟩
  | act :: acts, s, s', os, h => by
    obtain ⟨s₁, u, os', hstep, hrest, -⟩ := runSteps_cons_inv h
    have hinv := pipelineStep_inv hstep
    obtain ⟨hle, hzero⟩ := countP_handles j hrest
    rw [List.countP_cons]
    by_cases hact : act.handles j = true
    · rw [if_pos hact, hzero (hinv.handles hact)]
      refine ⟨Nat.le_refl 1, fun hfinished => ?_⟩
      rw [(hfinished.step hinv).2] at hact
      cases hact
    · rw [if_neg hact]
      exact ⟨hle, fun hfinished => hzero (hfinished.step hinv).1⟩

/-- In every run, the lines are those that the chunks of the connections make, the commands are
those that `modules_check_cmd` queues for these lines, in the order of the lines and with the tree
that is there when the line ends, but for those that the pool refuses; and the handler of a command
is called at most once. -/
theorem pipeline_in_order {perms : PermState} {buf nickbuf : Mem} {acts : List PipelineAct}
    {os : List Unit}
    (h : runSteps (pipelineStep cmdPrefix) (.init perms buf nickbuf) acts = some (s, os)) :
    s.lines = (deliveries acts).map (·.line) ∧ s.queue = queuedCmds cmdPrefix acts ∧
      ∀ j, acts.countP (·.handles j) ≤ 1 :=
  have hqueue := Pipeline.lines_queue h
  ⟨hqueue.1, hqueue.2, fun j => (countP_handles j h).1⟩

/-- The tree with `setp`. -/
def setpTree : CommandTree Handler :=
  (modulesRegisterCmd (fun _ => true) cmdsInit (CString.lit "setp") (some (.perms .ok))).2

/-- The owner `own` appoints `op`. -/
def appointLine : Chunk :=
  ⟨(CString.lit ":a!b@own PRIVMSG #c :,setp 40000 op\r\n").bytes, by decide, by decide⟩

/-- The line comes, and its command runs. -/
def appointRun : List PipelineAct :=
  .recv appointLine :: List.replicate appointLine.rbuf.length (.byte setpTree true) ++
    [.check 0, .handle 0]

/-- The calls of the run, and the level that it stores. -/
theorem appointRun_log {perms : PermState}
    (hinit : permissionsInit true .ok (some (CString.lit "own")) = some perms) :
    ∃ s os, runSteps (pipelineStep (CString.lit ",")) (.init perms (fun _ => 0) fun _ => 0)
        appointRun = some (s, os) ∧
      s.log = [(0, .setperms (CString.lit "op") 40000), (0, .msgva (CString.lit "#c")
        (.levelSet (CString.lit "a") (CString.lit "op") 40000))] ∧
      hashmapGet s.bot.perms.permMap (CString.lit "op") = some 40000 := by
  have hrun : ((runSteps (pipelineStep (CString.lit ",")) (.init perms (fun _ => 0) fun _ => 0)
      appointRun).map fun r => (r.1.log, hashmapGet r.1.bot.perms.permMap (CString.lit "op"))) =
      some ([(0, .setperms (CString.lit "op") 40000), (0, .msgva (CString.lit "#c")
        (.levelSet (CString.lit "a") (CString.lit "op") 40000))], some 40000) := by
    cases hinit
    decide +kernel
  obtain ⟨⟨s, os⟩, hr, hlog⟩ := Option.map_eq_some_iff.1 hrun
  exact ⟨s, os, hr, (Prod.mk.inj hlog).1, (Prod.mk.inj hlog).2⟩

/-- The line of the owner is framed and queues its `setp`. -/
theorem pipeline_in_order_appoint :
    ∃ perms s os, permissionsInit true .ok (some (CString.lit "own")) = some perms ∧
      runSteps (pipelineStep (CString.lit ",")) (.init perms (fun _ => 0) fun _ => 0) appointRun =
        some (s, os) ∧
      s.lines = [appointLine.rbuf] ∧
      s.queue = [⟨.perms .ok, CString.lit "setp", CString.lit "a!b@own", CString.lit "#c",
        CString.lit "40000 op"⟩] ∧
      ∀ j, appointRun.countP (·.handles j) ≤ 1 := by
  obtain ⟨perms, hinit⟩ : ∃ perms,
    permissionsInit true .ok (some (CString.lit "own")) = some perms := ⟨_, rfl⟩
  obtain ⟨s, os, hrun, -⟩ := appointRun_log hinit
  obtain ⟨hlines, hqueue, hhandles⟩ := pipeline_in_order hrun
  refine ⟨perms, s, os, hinit, hrun, hlines.trans ?_, hqueue.trans ?_, hhandles⟩
  · decide +kernel
  · decide +kernel

end

/-! ## One command alone -/

/-- The two steps of a command, taken at once, are `threadpool_wrapper_cmd`. -/
theorem pipeline_command {cmdPrefix : CString} {s s' : Pipeline} {j : Nat} {cmd : QueueCmd Handler}
    {os : List Unit} (hjob : s.jobs[j]? = some ⟨cmd, .queued⟩)
    (h : runSteps (pipelineStep cmdPrefix) s [.check j, .handle j] = some (s', os)) :
    s'.bot = (threadpoolWrapperCmd cmd.handler.run cmd.cmdname cmd.sender cmd.target cmd.args
      s.bot).2 := by
  obtain ⟨s₁, _, _, hcheck, hrest, -⟩ := runSteps_cons_inv h
  obtain ⟨s₂, _, _, hhandle, hnil, -⟩ := runSteps_cons_inv hrest
  cases hnil
  have hlt : j < s.jobs.length := (List.getElem?_eq_some_iff.1 hjob).1
  cases pipelineStep_inv hcheck with
  | @checked _ cmd' level perms hqueued hget =>
    obtain rfl : cmd' = cmd := (PipelineJob.mk.inj (Option.some.inj (hqueued.symm.trans hjob))).1
    have hlevel : onPerms (permissionsGet (ircParsesender cmd'.sender).host) s.bot =
        (.returned level, { s.bot with perms }) := by
      rw [onPerms, Exec.zoom, hget]
    cases pipelineStep_inv hhandle with
    | @handled _ cmd'' level' bot hchecked hrun =>
      rw [List.getElem?_set_self hlt] at hchecked
      cases hchecked
      rw [threadpoolWrapperCmd_state, runCommand, Exec.bind_returned hlevel, Exec.bind_pure_snd]
      exact hrun.symm
  | @lost _ cmd' hqueued =>
    cases pipelineStep_inv hhandle with
    | handled hchecked =>
      rw [List.getElem?_set_self hlt] at hchecked
      cases hchecked

end MinervaBot
