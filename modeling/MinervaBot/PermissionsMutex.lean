import MinervaBot.Handlers

/-!
# The mutex of the permissions

`permissions_get` takes `permissions_mutex` before it looks at the host, so it leaves the mutex
taken when `strlen(NULL)` faults and when it returns early for a long host.
`permissionsGet_leavesFree` says for which senders and for which arguments of `getp` neither
happens, and that commands of this kind never block one another.
-/

namespace MinervaBot

open Lib

/-- `permissions_get` does not dereference a `NULL` host, and however it is left, by return or by
the fault handler, the mutex is free again. -/
def LeavesFree (host : Option CString) (s : PermState) : Prop :=
  (permissionsGet host s).1 ≠ .segv ∧
    ((permissionsGet host s).1 = .segv ∨ (∃ level, (permissionsGet host s).1 = .returned level) →
      (permissionsGet host s).2.locked = false)

/-- `permissions_get` leaves the mutex free for the hosts of at most 128 bytes only. -/
theorem leavesFree_iff {s : PermState} (hfree : s.locked = false) {host : Option CString} :
    LeavesFree host s ↔ ∃ h, host = some h ∧ h.length ≤ 128 := by
  cases host with
  | none =>
    have hget := permissionsGet_null hfree
    simp [LeavesFree, hget]
  | some h =>
    rcases Nat.lt_or_ge 128 h.length with hlong | hshort
    · have hget := permissionsGet_long hfree hlong
      have hnot : ¬ h.length ≤ 128 := by omega
      simp [LeavesFree, hget, hnot]
    · obtain ⟨pbuf, pbufWrites, hget⟩ := permissionsGet_eq hfree hshort
      cases hval : firstNonzero (hashmapGet s.permMap) (candidates h) with
      | none => simp [LeavesFree, hget, hval, Outcome.ofOption, hshort]
      | some v => simp [LeavesFree, hget, hval, Outcome.ofOption, hshort]

/-! ## Commands -/

/-- The mutex is free. -/
def Free (b : Bot) : Prop :=
  b.perms.locked = false

/-- A sender with a host that `permissions_get` accepts. -/
def GoodSender (sender : CString) : Prop :=
  ∃ nick ident host : List UInt8, sender.bytes = nick ++ 33 :: (ident ++ 64 :: host) ∧
    33 ∉ nick ∧ 64 ∉ ident ∧ host.length ≤ 128

/-- A sender is good if its host is one that `permissions_get` accepts. -/
theorem goodSender_iff {sender : CString} :
    GoodSender sender ↔ ∃ h, (ircParsesender sender).host = some h ∧ h.length ≤ 128 := by
  constructor
  · rintro ⟨nick, ident, host, hbytes, hnick, hident, hlen⟩
    have hnul : 0 ∉ host := fun h0 => sender.noNul (by simp [hbytes, h0])
    exact ⟨⟨host, hnul⟩, ircParsesender_host_eq_some_iff.2 ⟨nick, ident, hbytes, hnick, hident⟩,
      hlen⟩
  · rintro ⟨h, hhost, hlen⟩
    obtain ⟨nick, ident, hbytes, hnick, hident⟩ := ircParsesender_host_eq_some_iff.1 hhost
    exact ⟨nick, ident, h.bytes, hbytes, hnick, hident, hlen⟩

/-- A message dispatched to one of the handlers. -/
structure Command where
  handler : Handler
  cmdname : CString
  sender : CString
  target : CString
  args : CString

/-- The command neither comes from a sender that leaves the mutex taken, nor asks for the level of
such a host. -/
def Command.Good (c : Command) : Prop :=
  GoodSender c.sender ∧ (c.cmdname.bytes.head? = some 103 → c.args.length ≤ 128)

/-- Run commands one after the other, each in its thread. -/
def runCommands : List Command → Exec Bot Unit
  | [] => pure ()
  | c :: cs => do
    threadpoolWrapperCmd c.handler.run c.cmdname c.sender c.target c.args
    runCommands cs

section
open Exec

/-- `permissions_get` on a host it accepts. -/
theorem permissionsGet_triple {host : CString} (hlen : host.length ≤ 128) :
    Triple (fun s => s.locked = false) (permissionsGet (some host)) fun _ s => s.locked = false := by
  intro s hs
  obtain ⟨pbuf, pbufWrites, hget⟩ := permissionsGet_eq hs hlen
  cases hval : firstNonzero (hashmapGet s.permMap) (candidates host) with
  | none => exact .inl (by rw [hget, hval]; rfl)
  | some v => exact .inr ⟨v, _, by rw [hget, hval]; rfl, by simp⟩

/-- `permissions_set` takes the mutex and releases it. -/
theorem permissionsSet_triple (alloc : Alloc) (host : CString) (level : Int) :
    Triple (fun s => s.locked = false) (permissionsSet alloc host level)
      fun _ s => s.locked = false := by
  have hlock : Triple (fun s => s.locked = false) permissionsLock fun _ _ => True :=
    fun s hs => .inr ⟨(), _, permissionsLock_free hs, trivial⟩
  have hget : Triple (fun _ => True) (permMapGet host) fun _ _ => True :=
    fun s _ => Triple.ofOption (P := fun _ => True) (fun _ _ h => h) s trivial
  have hremove : Triple (fun _ => True) (permMapRemove host) fun _ _ => True := by
    intro s _
    exact Triple.bind (Triple.ofOption (P := fun _ => True) (Q := fun _ _ => True) fun _ _ h => h)
      (fun _ => Triple.modify fun _ h => h) s trivial
  have hput : Triple (fun _ => True) (permMapPut alloc host level) fun _ _ => True := by
    intro s _
    exact Triple.bind (Triple.ofOption (P := fun _ => True) (Q := fun _ _ => True) fun _ _ h => h)
      (fun _ => Triple.modify fun _ h => h) s trivial
  have hunlock : Triple (fun _ => True) permissionsUnlock fun _ s => s.locked = false :=
    Triple.modify fun _ _ => rfl
  refine hlock.bind fun _ => hget.bind fun perm => ?_
  split
  · exact hremove.bind fun _ => hput.bind fun _ => hunlock
  · exact hput.bind fun _ => hunlock

/-- A value leaves the mutex alone. -/
theorem pure_free {α : Type} (a : α) : Triple Free (pure a : Exec Bot α) fun _ => Free :=
  .pure fun _ h => h

/-- A call into the core leaves the mutex alone. -/
theorem coreCall_free (call : CoreCall) : Triple Free (coreCall call) fun _ => Free :=
  Triple.modify fun _ h => h

/-- A text put together in `buf` leaves the mutex alone. -/
theorem cmdBuf_free (mode args : CString) : Triple Free (cmdBuf mode args) fun _ => Free :=
  Triple.ofOption fun _ _ h => h

/-- A refusal leaves the mutex alone. -/
theorem refuse_free (who : CommandSender) (where' : CString) :
    Triple Free (refuse who where') fun _ => Free :=
  (coreCall_free _).bind fun _ => pure_free 0

/-- A call of the permissions keeps the mutex free if it does so on their state. -/
theorem onPerms_free {α : Type} {x : Exec PermState α}
    (h : Triple (fun s => s.locked = false) x fun _ s => s.locked = false) :
    Triple Free (onPerms x) fun _ => Free :=
  h.zoom fun _ _ _ hs => hs

/-- `setp` gives the mutex back. -/
theorem handleSetp_free (alloc : Alloc) (who : CommandSender) (where' args : CString) :
    Triple Free (handleSetp alloc who where' args) fun _ => Free := by
  unfold handleSetp
  split
  · exact coreCall_free _
  · dsimp only
    split
    · refine Triple.bind (Triple.bind (coreCall_free _) fun _ => ?_) fun _ => coreCall_free _
      exact onPerms_free (permissionsSet_triple alloc _ _)
    · exact coreCall_free _

/-- `getp` gives the mutex back for a host that fits in `pbuf`. -/
theorem handleGetp_free (who : CommandSender) (where' : CString) {args : CString}
    (hlen : args.length ≤ 128) : Triple Free (handleGetp who where' args) fun _ => Free := by
  unfold handleGetp
  split
  · refine Triple.bind (Triple.bind (coreCall_free _) fun _ => ?_) fun _ => coreCall_free _
    exact onPerms_free (permissionsGet_triple hlen)
  · exact coreCall_free _

/-- `reload` leaves the mutex alone. -/
theorem handleReload_free (cmdname : CString) (who : CommandSender) (where' args : CString) :
    Triple Free (handleReload cmdname who where' args) fun _ => Free := by
  unfold handleReload
  split
  · exact refuse_free who where'
  · exact (coreCall_free _).bind fun _ => (coreCall_free _).bind fun _ => pure_free 0

/-- The commands of `bot_admin` leave the mutex alone. -/
theorem adminHandleCmd_free (cmdname : CString) (who : CommandSender) (where' args : CString) :
    Triple Free (adminHandleCmd cmdname who where' args) fun _ => Free := by
  unfold adminHandleCmd
  split
  · exact refuse_free who where'
  · split
    · exact (coreCall_free _).bind fun _ => pure_free 0
    · exact (coreCall_free _).bind fun _ => pure_free 0
    · exact (pure_free ()).bind fun _ => pure_free 0

/-- `raw` leaves the mutex alone. -/
theorem handleRaw_free (cmdname : CString) (who : CommandSender) (where' args : CString) :
    Triple Free (handleRaw cmdname who where' args) fun _ => Free := by
  unfold handleRaw
  split
  · exact refuse_free who where'
  · exact (coreCall_free _).bind fun _ => pure_free 0

/-- The commands of a half-op leave the mutex alone. -/
theorem chanopHopCmd_free (cmdname where' args : CString) :
    Triple Free (chanopHopCmd cmdname where' args) fun _ => Free := by
  unfold chanopHopCmd
  split
  · split <;> exact coreCall_free _
  · exact (cmdBuf_free _ _).bind fun _ => coreCall_free _
  · exact pure_free ()

/-- The commands of an op leave the mutex alone. -/
theorem chanopOpCmd_free (cmdname where' args : CString) :
    Triple Free (chanopOpCmd cmdname where' args) fun _ => Free := by
  unfold chanopOpCmd
  split
  · exact coreCall_free _
  · exact (cmdBuf_free _ _).bind fun _ => (coreCall_free _).bind fun _ => coreCall_free _
  · exact (cmdBuf_free _ _).bind fun _ => coreCall_free _
  · exact pure_free ()

/-- The commands of `bot_chanop` leave the mutex alone. -/
theorem chanopHandleCmd_free (cmdname : CString) (who : CommandSender) (where' args : CString) :
    Triple Free (chanopHandleCmd cmdname who where' args) fun _ => Free := by
  unfold chanopHandleCmd
  split
  · exact refuse_free who where'
  · refine (chanopHopCmd_free cmdname where' args).bind fun _ => ?_
    split
    · exact refuse_free who where'
    · exact (chanopOpCmd_free cmdname where' args).bind fun _ => pure_free 0

/-- The commands of `bot_perms` give the mutex back, but for a long host of `getp`. -/
theorem permsHandleCmd_free (alloc : Alloc) (cmdname : CString) (who : CommandSender)
    (where' args : CString) (hlen : cmdname.bytes.head? = some 103 → args.length ≤ 128) :
    Triple Free (permsHandleCmd alloc cmdname who where' args) fun _ => Free := by
  unfold permsHandleCmd
  split
  · exact (handleSetp_free alloc who where' args).bind fun _ => pure_free 0
  · next hword =>
    exact (handleGetp_free who where' (hlen hword)).bind fun _ => pure_free 0
  · exact (pure_free ()).bind fun _ => pure_free 0

/-- A handler keeps the mutex free unless it is `getp` for a long host. -/
theorem Handler.run_free (handler : Handler) (cmdname : CString) (who : CommandSender)
    (where' args : CString) (hlen : cmdname.bytes.head? = some 103 → args.length ≤ 128) :
    Triple Free (handler.run cmdname who where' args) fun _ => Free := by
  cases handler with
  | reload => exact handleReload_free cmdname who where' args
  | admin => exact adminHandleCmd_free cmdname who where' args
  | raw => exact handleRaw_free cmdname who where' args
  | chanop => exact chanopHandleCmd_free cmdname who where' args
  | perms alloc => exact permsHandleCmd_free alloc cmdname who where' args hlen

/-- A good command keeps the mutex free. -/
theorem Command.Good.free {c : Command} (h : c.Good) :
    Triple Free (threadpoolWrapperCmd c.handler.run c.cmdname c.sender c.target c.args)
      fun _ => Free := by
  obtain ⟨hsender, hargs⟩ := h
  obtain ⟨host, hhost, hlen⟩ := goodSender_iff.1 hsender
  refine Triple.catchSegv ?_
  unfold runCommand
  simp only [hhost]
  refine Triple.bind (onPerms_free (permissionsGet_triple hlen)) fun level => ?_
  exact (c.handler.run_free _ _ _ _ hargs).bind fun _ => pure_free ()

/-- Good commands never block or leave the mutex taken, however many there are. -/
theorem runCommands_free {cs : List Command} (h : ∀ c ∈ cs, c.Good) :
    Triple Free (runCommands cs) fun _ => Free := by
  induction cs with
  | nil => exact pure_free ()
  | cons c cs ih => exact (h c (.head _)).free.bind fun _ => ih fun c hc => h c (.tail _ hc)

end

/-! ## When the mutex is released -/

/-- With the mutex free, `permissions_get` leaves it free, without a `NULL` host, for exactly the
senders `nick!ident@host` and the arguments of `getp` whose host has at most 128 bytes. Commands
that are like this run one after the other without blocking. -/
theorem permissionsGet_leavesFree (m : Hashmap) (pbuf : Mem) (pbufWrites : List Int) :
    (∀ sender, LeavesFree (ircParsesender sender).host ⟨m, false, pbuf, pbufWrites⟩ ↔
      GoodSender sender) ∧
    (∀ args : CString, LeavesFree (some args) ⟨m, false, pbuf, pbufWrites⟩ ↔
      args.length ≤ 128) ∧
    ∀ cs : List Command, (∀ c ∈ cs, c.Good) → ∀ calls,
      (runCommands cs ⟨⟨m, false, pbuf, pbufWrites⟩, calls⟩).1 = .undefined ∨
        ∃ b, runCommands cs ⟨⟨m, false, pbuf, pbufWrites⟩, calls⟩ = (.returned (), b) ∧
          b.perms.locked = false := by
  refine ⟨fun sender => ?_, fun args => ?_, fun cs hcs calls => ?_⟩
  · rw [leavesFree_iff rfl, goodSender_iff]
  · rw [leavesFree_iff rfl]
    simp
  · rcases runCommands_free hcs ⟨⟨m, false, pbuf, pbufWrites⟩, calls⟩ rfl with hundef | ⟨⟨⟩, b, h, hb⟩
    · exact .inl hundef
    · exact .inr ⟨b, h, hb⟩

/-- A command from a server name faults in `strlen(NULL)` and leaves the mutex taken; the next
command blocks. -/
theorem serverSender_blocks :
    ∃ m, hashmapNew true = some m ∧
      let getp := permsHandleCmd .ok
      let r := threadpoolWrapperCmd getp (CString.lit "getp") (CString.lit "irc.server")
        (CString.lit "#chan") (CString.lit "") ⟨.ofMap m, []⟩
      ¬ LeavesFree (ircParsesender (CString.lit "irc.server")).host (.ofMap m) ∧
      r.1 = .returned () ∧ r.2.perms.locked = true ∧
      (threadpoolWrapperCmd getp (CString.lit "getp") (CString.lit "a!b@c") (CString.lit "#chan")
        (CString.lit "") r.2).1 = .blocked := by
  refine ⟨_, rfl, ?_, ?_, ?_, ?_⟩
  · rw [leavesFree_iff rfl]
    decide
  · decide +kernel
  · decide +kernel
  · decide +kernel

end MinervaBot
