import MinervaBot.Threadpool
import MinervaBot.Lib.MemStr

/-!
# The block of a queued command

`threadpool_queue_cmd` copies the four strings of a command behind a `struct threadpool_cmd_args`,
all in one block, and `threadpool_wrapper_cmd` hands the copies to the handler after
`irc_parsesender` has split the sender in place. The functions here work on the memory, where
`threadpoolWrapperCmd` of `MinervaBot.Threadpool` works on strings; `threadpoolWrapperCmdAt_eq` says
that the worker in memory is that worker on the strings in the block. `QueueCall.handler_runs` says
on which strings it runs the handler.
-/

namespace MinervaBot

open Lib

/-- `sizeof(struct threadpool_cmd_args)` on a 64-bit machine. -/
def sizeofCmdArgs : Nat := 80

/-- `struct threadpool_cmd_args`, less the sender that the worker fills in. Pointers are
addresses. -/
structure ThreadpoolCmdArgs where
  n : Nat
  handler : CommandHandler
  cmdname : Int
  «from» : Int
  where' : Int
  args : Int

/-- What `threadpool_queue_cmd` leaves for the thread it starts: the block of `size` bytes at
`block`, the struct at its start, and the memory. -/
structure QueuedCmd where
  size : Nat
  block : Int
  arg : ThreadpoolCmdArgs
  mem : Mem

/-- `threadpool_queue_cmd` with the slot `n` found. `malloc` gives the address of a block of a
size, `none` for `NULL`, and `create` tells whether `pthread_create` succeeds; `none` is a call that
starts no thread. Strings end within `len` bytes. -/
def threadpoolQueueCmdAt (len : Nat) (malloc : Nat → Option Int) (create : Bool) (n : Nat) (m : Mem)
    (handler : CommandHandler) (cmdname sender where' args : Int) : Option QueuedCmd :=
  let a := sizeofCmdArgs
  let b := m.strlen len cmdname + 1
  let c := m.strlen len sender + 1
  let d := m.strlen len where' + 1
  let e := m.strlen len args + 1
  let size := (a + b + c + d + e) % 2 ^ 64
  match malloc size with
  | none => none
  | some block =>
    let arg : ThreadpoolCmdArgs :=
      { n, handler
        cmdname := block + a
        «from» := block + a + b
        where' := block + a + b + c
        args := block + a + b + c + d }
    let m := m.memcpy arg.cmdname cmdname b
    let m := m.memcpy arg.from sender c
    let m := m.memcpy arg.where' where' d
    let m := m.memcpy arg.args args e
    if create then some { size, block, arg, mem := m } else none

/-- `struct command_sender` in memory, less the level; `none` for `NULL`. -/
structure SenderPtrs where
  nick : Int
  ident : Option Int
  host : Option Int

/-- The sender that the pointers show, with the level `0`. -/
def SenderPtrs.read (len : Nat) (m : Mem) (sender : SenderPtrs) : CommandSender where
  nick := m.cstr sender.nick len
  ident := sender.ident.map fun p => m.cstr p len
  host := sender.host.map fun p => m.cstr p len
  permissionLevel := 0

/-- `irc_parsesender` on the string at `str`: the pointers, and the memory with the terminators it
writes. -/
def ircParsesenderAt (len : Nat) (m : Mem) (str : Int) : SenderPtrs × Mem :=
  match m.strchr len str 33 with
  -- without an ident, '@' is looked for in the empty string
  | none => ({ nick := str, ident := none, host := none }, m)
  | some t =>
    let m := m.write t 0
    match m.strchr len (t + 1) 64 with
    | none => ({ nick := str, ident := some (t + 1), host := none }, m)
    | some u => ({ nick := str, ident := some (t + 1), host := some (u + 1) }, m.write u 0)

/-- `threadpool_wrapper_cmd` on a struct in memory, without the bookkeeping of the pool. -/
def threadpoolWrapperCmdAt (len : Nat) (m : Mem) (arg : ThreadpoolCmdArgs) : Exec Bot Unit :=
  let parsed := ircParsesenderAt len m arg.from
  let who := parsed.1.read len parsed.2
  Exec.catchSegv
    (do
      let level ← onPerms (permissionsGet who.host)
      let _ ← arg.handler (parsed.2.cstr arg.cmdname len) { who with permissionLevel := level }
        (parsed.2.cstr arg.where' len) (parsed.2.cstr arg.args len))
    (pure ())

/-! ## The sender split in place -/

variable {len : Nat} {m : Mem}

/-- `irc_parsesender` in place reads as `ircParsesender` of the string, and changes no byte outside
it. -/
theorem ircParsesenderAt_spec {str : Int} {s : CString} (h : m.HasStr str s)
    (hlen : s.length < len) :
    (ircParsesenderAt len m str).1.read len (ircParsesenderAt len m str).2 = ircParsesender s ∧
      ∀ i ∉ Mem.strRegion str s, (ircParsesenderAt len m str).2 i = m i := by
  have hout : ∀ {k : Nat} {i : Int}, k < s.length → i ∉ Mem.strRegion str s → i ≠ str + k := by
    rintro k i hk hi rfl
    refine hi ⟨?_, ?_⟩ <;> simp only [Mem.strRegion] <;> omega
  unfold ircParsesenderAt ircParsesender
  rw [h.strchr hlen]
  cases hbang : s.strchr 33 with
  | none => exact ⟨by simp [SenderPtrs.read, h.cstr hlen], fun i _ => rfl⟩
  | some i =>
    have hi : i < s.length := CString.lt_length_of_strchr hbang
    obtain ⟨hnick, hrest⟩ := h.cut hi
    have hnicklen : (s.take i).length < len := by rw [CString.length_take]; omega
    have hrestlen : (s.drop (i + 1)).length < len := by rw [CString.length_drop]; omega
    simp only [Option.map_some, hrest.strchr hrestlen]
    cases hat : (s.drop (i + 1)).strchr 64 with
    | none =>
      refine ⟨?_, fun k hk => Mem.write_of_ne _ _ (hout hi hk)⟩
      simp [SenderPtrs.read, hnick.cstr hnicklen, hrest.cstr hrestlen]
    | some j =>
      have hj : j < (s.drop (i + 1)).length := CString.lt_length_of_strchr hat
      obtain ⟨hident, hhost⟩ := hrest.cut hj
      -- the second terminator lies behind the nick
      have hnick' := hnick.write_other (i := str + i + 1 + j) 0 fun hmem => by
        rw [Region.mem_iff, Mem.strRegion, CString.length_take] at hmem
        simp only at hmem
        omega
      have hidentlen : ((s.drop (i + 1)).take j).length < len := by
        rw [CString.length_take]; omega
      have hhostlen : ((s.drop (i + 1)).drop (j + 1)).length < len := by
        rw [CString.length_drop]; omega
      refine ⟨?_, fun k hk => ?_⟩
      · simp [SenderPtrs.read, hnick'.cstr hnicklen, hident.cstr hidentlen, hhost.cstr hhostlen]
      · rw [CString.length_drop] at hj
        have hne := hout (k := i + 1 + j) (by omega) hk
        push_cast at hne
        simp only [Option.map_some]
        rw [Mem.write_of_ne _ _ (by omega), Mem.write_of_ne _ _ (hout hi hk)]

/-! ## The worker in memory -/

/-- The strings of a command, in the order in which they stand in the block. -/
structure CmdStrings where
  cmdname : CString
  sender : CString
  where' : CString
  args : CString

/-- The strings as a list. -/
def CmdStrings.toList (t : CmdStrings) : List CString :=
  [t.cmdname, t.sender, t.where', t.args]

/-- The strings of the struct `arg` are the strings `t`. -/
structure ThreadpoolCmdArgs.Holds (arg : ThreadpoolCmdArgs) (m : Mem) (t : CmdStrings) : Prop where
  cmdname : m.HasStr arg.cmdname t.cmdname
  sender : m.HasStr arg.from t.sender
  where' : m.HasStr arg.where' t.where'
  args : m.HasStr arg.args t.args

/-- The regions of the strings of the struct `arg`. -/
def ThreadpoolCmdArgs.regions (arg : ThreadpoolCmdArgs) (t : CmdStrings) : List Region :=
  [Mem.strRegion arg.cmdname t.cmdname, Mem.strRegion arg.from t.sender,
    Mem.strRegion arg.where' t.where', Mem.strRegion arg.args t.args]

/-- Splitting the sender in place leaves the other three strings, if they stand in regions that do
not meet. -/
theorem cstr_afterParsesender {arg : ThreadpoolCmdArgs} {t : CmdStrings} (h : arg.Holds m t)
    (hdisj : (arg.regions t).Pairwise Region.Disjoint) (hlen : ∀ s ∈ t.toList, s.length < len) :
    (ircParsesenderAt len m arg.from).2.cstr arg.cmdname len = t.cmdname ∧
      (ircParsesenderAt len m arg.from).2.cstr arg.where' len = t.where' ∧
      (ircParsesenderAt len m arg.from).2.cstr arg.args len = t.args := by
  obtain ⟨-, hout⟩ := ircParsesenderAt_spec h.sender (hlen _ (.tail _ (.head _)))
  simp only [ThreadpoolCmdArgs.regions, List.pairwise_cons, List.mem_cons, List.not_mem_nil,
    or_false, forall_eq_or_imp, forall_eq] at hdisj
  obtain ⟨⟨hcmdname, -, -⟩, ⟨hwhere, hargs⟩, -⟩ := hdisj
  -- what does not meet the sender is still there behind the split
  have hkeep : ∀ {p : Int} {s : CString}, m.HasStr p s →
      (Mem.strRegion p s).Disjoint (Mem.strRegion arg.from t.sender) → s ∈ t.toList →
      (ircParsesenderAt len m arg.from).2.cstr p len = s := by
    intro p s hp hd hs
    refine Mem.HasStr.cstr (hp.sameOn ⟨le_rfl, le_rfl⟩ fun i hi => hout i fun hi' => ?_) (hlen s hs)
    rw [Region.mem_iff] at hi hi'
    unfold Region.Disjoint at hd
    omega
  exact ⟨hkeep h.cmdname hcmdname (.head _),
    hkeep h.where' hwhere.symm (by simp [CmdStrings.toList]),
    hkeep h.args hargs.symm (by simp [CmdStrings.toList])⟩

/-- On strings that stand in regions that do not meet, the worker in memory is the worker on
strings. -/
theorem threadpoolWrapperCmdAt_eq {arg : ThreadpoolCmdArgs} {t : CmdStrings} (h : arg.Holds m t)
    (hdisj : (arg.regions t).Pairwise Region.Disjoint) (hlen : ∀ s ∈ t.toList, s.length < len) :
    threadpoolWrapperCmdAt len m arg =
      threadpoolWrapperCmd arg.handler t.cmdname t.sender t.where' t.args := by
  obtain ⟨hread, -⟩ := ircParsesenderAt_spec h.sender (hlen _ (.tail _ (.head _)))
  obtain ⟨hcmdname, hwhere, hargs⟩ := cstr_afterParsesender h hdisj hlen
  unfold threadpoolWrapperCmdAt threadpoolWrapperCmd runCommand
  simp only [hread]
  rw [hcmdname, hwhere, hargs]

/-! ## The block -/

/-- A pointer to a C string in an address space of `len` bytes. -/
structure StrPtr (len : Nat) (m : Mem) (s : CString) where
  ptr : Int
  hasStr : m.HasStr ptr s
  inside : (Mem.strRegion ptr s).Inside ⟨0, len⟩

/-- A string of an address space is shorter than it. -/
theorem StrPtr.length_lt {s : CString} (p : StrPtr len m s) : s.length < len := by
  obtain ⟨hlo, hhi⟩ := p.inside
  simp only [Mem.strRegion] at hlo hhi
  omega

/-- The size of the block for a command: the struct and the four strings with their terminators. -/
def CmdStrings.blockSize (t : CmdStrings) : Nat :=
  sizeofCmdArgs + (t.cmdname.length + 1) + (t.sender.length + 1) + (t.where'.length + 1) +
    (t.args.length + 1)

/-- A call of `threadpool_queue_cmd` on the strings `t`: pointers to the strings, a slot, and a
`malloc` that has a block away from the strings. -/
structure QueueCall (t : CmdStrings) where
  len : Nat
  len_le : len ≤ 2 ^ 61
  mem : Mem
  cmdname : StrPtr len mem t.cmdname
  sender : StrPtr len mem t.sender
  where' : StrPtr len mem t.where'
  args : StrPtr len mem t.args
  handler : CommandHandler
  n : Nat
  malloc : Nat → Option Int
  block : Int
  malloc_eq : malloc t.blockSize = some block
  fresh : ∀ r ∈ [Mem.strRegion cmdname.ptr t.cmdname, Mem.strRegion sender.ptr t.sender,
    Mem.strRegion where'.ptr t.where', Mem.strRegion args.ptr t.args],
    r.Disjoint ⟨block, t.blockSize⟩

namespace QueueCall

variable {t : CmdStrings} (q : QueueCall t)

/-- The call, with `pthread_create` succeeding. -/
def queue : Option QueuedCmd :=
  threadpoolQueueCmdAt q.len q.malloc true q.n q.mem q.handler q.cmdname.ptr q.sender.ptr
    q.where'.ptr q.args.ptr

/-- The sources of the four copies. -/
def sources : List (Int × CString) :=
  [(q.cmdname.ptr, t.cmdname), (q.sender.ptr, t.sender), (q.where'.ptr, t.where'),
    (q.args.ptr, t.args)]

/-- The struct as the call fills it in. -/
def arg : ThreadpoolCmdArgs where
  n := q.n
  handler := q.handler
  cmdname := q.block + sizeofCmdArgs
  «from» := q.block + sizeofCmdArgs + (t.cmdname.length + 1 : Nat)
  where' := q.block + sizeofCmdArgs + (t.cmdname.length + 1 : Nat) + (t.sender.length + 1 : Nat)
  args := q.block + sizeofCmdArgs + (t.cmdname.length + 1 : Nat) + (t.sender.length + 1 : Nat) +
    (t.where'.length + 1 : Nat)

/-- The block as the call leaves it. -/
def queued : QueuedCmd where
  size := t.blockSize
  block := q.block
  arg := q.arg
  mem := q.mem.pack (q.block + sizeofCmdArgs) (q.sources.map fun x => (x.1, x.2.length + 1))

/-- The size fits in a `size_t`, and the four copies go one behind the other. -/
theorem queue_eq : q.queue = some q.queued := by
  have hsize : (sizeofCmdArgs + (t.cmdname.length + 1) + (t.sender.length + 1) +
      (t.where'.length + 1) + (t.args.length + 1)) % 2 ^ 64 = t.blockSize := by
    have h1 := q.cmdname.length_lt
    have h2 := q.sender.length_lt
    have h3 := q.where'.length_lt
    have h4 := q.args.length_lt
    have hlen := q.len_le
    exact Nat.mod_eq_of_lt (by simp only [sizeofCmdArgs]; omega)
  simp only [queue, threadpoolQueueCmdAt, q.cmdname.hasStr.strlen q.cmdname.length_lt,
    q.sender.hasStr.strlen q.sender.length_lt, q.where'.hasStr.strlen q.where'.length_lt,
    q.args.hasStr.strlen q.args.length_lt, hsize, q.malloc_eq]
  rfl

/-- The four strings take what the block has behind the struct. -/
theorem blockSize_eq : t.blockSize = sizeofCmdArgs + Mem.packSize t.toList := by
  simp only [CmdStrings.blockSize, CmdStrings.toList, Mem.packSize, List.map_cons, List.map_nil,
    List.sum_cons, List.sum_nil]
  omega

theorem toList_lt : ∀ s ∈ t.toList, s.length < q.len := by
  simp only [CmdStrings.toList, List.mem_cons, List.not_mem_nil, or_false, forall_eq_or_imp,
    forall_eq]
  exact ⟨q.cmdname.length_lt, q.sender.length_lt, q.where'.length_lt, q.args.length_lt⟩

/-- The regions of the struct's strings are the regions behind the struct, one behind the other. -/
theorem arg_regions : q.arg.regions t = Mem.packRegions (q.block + sizeofCmdArgs) t.toList := rfl

/-- The four strings stand in the block one behind the other. -/
theorem queued_hasPack : q.queued.mem.HasPack (q.block + sizeofCmdArgs) t.toList := by
  refine Mem.pack_hasPack q.sources fun x hx => ?_
  have hfresh := q.fresh
  have hhas : q.mem.HasStr x.1 x.2 ∧ (Mem.strRegion x.1 x.2).Disjoint ⟨q.block, t.blockSize⟩ := by
    simp only [sources, List.mem_cons, List.not_mem_nil, or_false] at hx
    rcases hx with rfl | rfl | rfl | rfl
    · exact ⟨q.cmdname.hasStr, hfresh _ (by simp)⟩
    · exact ⟨q.sender.hasStr, hfresh _ (by simp)⟩
    · exact ⟨q.where'.hasStr, hfresh _ (by simp)⟩
    · exact ⟨q.args.hasStr, hfresh _ (by simp)⟩
  refine ⟨hhas.1, Region.Disjoint.symm (Region.Inside.disjoint ?_ hhas.2.symm)⟩
  show Region.Inside ⟨q.block + sizeofCmdArgs, Mem.packSize t.toList⟩ _
  rw [blockSize_eq]
  simp only [Region.Inside]
  omega

/-- In every memory that still has the block, the struct points to the four strings. -/
theorem holds_of_sameOn {m' : Mem} (h : Mem.SameOn ⟨q.block, t.blockSize⟩ q.queued.mem m') :
    q.arg.Holds m' t := by
  obtain ⟨h1, h2, h3, h4, -⟩ := q.queued_hasPack.sameOn h (by
    rw [blockSize_eq]
    simp only [Region.Inside]
    omega)
  exact ⟨h1, h2, h3, h4⟩

/-- The struct and the four strings are five parts of the block that do not meet. -/
theorem regions_pairwise :
    (⟨q.block, sizeofCmdArgs⟩ :: q.arg.regions t).Pairwise Region.Disjoint ∧
      ∀ r ∈ (⟨q.block, sizeofCmdArgs⟩ :: q.arg.regions t : List Region),
        r.Inside ⟨q.block, t.blockSize⟩ := by
  rw [q.arg_regions, blockSize_eq]
  refine ⟨List.pairwise_cons.2 ⟨fun r hr => .inl (Mem.inside_of_mem_packRegions r hr).1,
    Mem.pairwise_packRegions _ _⟩, fun r hr => ?_⟩
  rcases List.mem_cons.1 hr with rfl | hr
  · simp only [Region.Inside]
    omega
  · obtain ⟨hlo, hhi⟩ := Mem.inside_of_mem_packRegions r hr
    simp only [Region.Inside] at hlo hhi ⊢
    omega

/-- Queueing changes nothing outside the four strings' part of the block. -/
theorem queued_mem_of_not_mem {i : Int}
    (hi : i ∉ (⟨q.block + sizeofCmdArgs, Mem.packSize t.toList⟩ : Region)) :
    q.queued.mem i = q.mem i :=
  Mem.pack_of_not_mem _ hi

end QueueCall

/-! ## From the line to the handler -/

/-- `nick!ident@host`. -/
structure HostMask where
  nick : CString
  ident : CString
  host : CString
  nick_noBang : 33 ∉ nick.bytes
  ident_noAt : 64 ∉ ident.bytes

/-- The sender as a line has it. -/
def HostMask.text (k : HostMask) : CString :=
  k.nick ++ CString.lit "!" ++ k.ident ++ CString.lit "@" ++ k.host

/-- `irc_parsesender` takes a mask apart. -/
theorem HostMask.ircParsesender_text (k : HostMask) :
    ircParsesender k.text =
      { nick := k.nick, ident := some k.ident, host := some k.host, permissionLevel := 0 } := by
  have hbytes : k.text.bytes = k.nick.bytes ++ 33 :: (k.ident.bytes ++ 64 :: k.host.bytes) := by
    have hbang : (CString.lit "!").bytes = [33] := by decide
    have hat : (CString.lit "@").bytes = [64] := by decide
    simp [HostMask.text, hbang, hat]
  have hbang : k.text.strchr 33 = some k.nick.length :=
    CString.strchr_eq_some_iff.2 ⟨_, _, hbytes, k.nick_noBang, rfl⟩
  have hdrop : (k.text.drop (k.nick.length + 1)).bytes = k.ident.bytes ++ 64 :: k.host.bytes := by
    simp [hbytes, CString.length, ← List.drop_drop]
  have hat : (k.text.drop (k.nick.length + 1)).strchr 64 = some k.ident.length :=
    CString.strchr_eq_some_iff.2 ⟨_, _, hdrop, k.ident_noAt, rfl⟩
  have hnick : k.text.take k.nick.length = k.nick :=
    CString.ext (by rw [CString.bytes_take, hbytes]; exact List.take_left)
  have hident : (k.text.drop (k.nick.length + 1)).take k.ident.length = k.ident :=
    CString.ext (by rw [CString.bytes_take, hdrop]; exact List.take_left)
  have hhost : (k.text.drop (k.nick.length + 1)).drop (k.ident.length + 1) = k.host :=
    CString.ext (by rw [CString.bytes_drop, hdrop]; simp [CString.length, ← List.drop_drop])
  simp only [ircParsesender, hbang, hat, hnick, hident, hhost]

/-- What the thread does in a memory that still has the block. -/
theorem QueueCall.wrapper_later {cmdname where' args : CString} {mask : HostMask}
    (q : QueueCall ⟨cmdname, mask.text, where', args⟩) {later : Mem}
    (hlater : Mem.SameOn ⟨q.block, CmdStrings.blockSize ⟨cmdname, mask.text, where', args⟩⟩
      q.queued.mem later) :
    threadpoolWrapperCmdAt q.len later q.arg =
      Exec.catchSegv
        (do
          let level ← onPerms (permissionsGet (some mask.host))
          let _ ← q.handler cmdname
            { nick := mask.nick, ident := some mask.ident, host := some mask.host
              permissionLevel := level } where' args)
        (pure ()) := by
  rw [threadpoolWrapperCmdAt_eq (q.holds_of_sameOn hlater)
    (List.pairwise_cons.1 q.regions_pairwise.1).2 q.toList_lt]
  simp only [threadpoolWrapperCmd, runCommand, mask.ircParsesender_text]
  rfl

/-- Where `permissions_get` returns a level, the thread runs the handler with it, on the parts of
the sender and the strings of the call, and leaves what the handler leaves. -/
theorem QueueCall.handler_runs {cmdname where' args : CString} {mask : HostMask}
    (q : QueueCall ⟨cmdname, mask.text, where', args⟩) {later : Mem}
    (hlater : Mem.SameOn ⟨q.block, CmdStrings.blockSize ⟨cmdname, mask.text, where', args⟩⟩
      q.queued.mem later) {b b' : Bot} {level : Int}
    (hlevel : onPerms (permissionsGet (some mask.host)) b = (.returned level, b')) :
    (threadpoolWrapperCmdAt q.len later q.arg b).2 =
      (q.handler cmdname
        { nick := mask.nick, ident := some mask.ident, host := some mask.host
          permissionLevel := level } where' args b').2 := by
  rw [q.wrapper_later hlater, Exec.catchSegv_pure_snd, Exec.bind_returned hlevel,
    Exec.bind_pure_snd]

/-- `threadpool_queue_cmd` on a sender `nick!ident@host` starts a thread whose struct and strings
are five parts of one block that do not meet; besides the struct it writes the strings only. In
every memory that still has the block, whatever else has changed, the thread's
`threadpool_wrapper_cmd` asks for the level of the host and calls the handler with the parts of the
sender and the strings of the call. -/
theorem queuedCmd_handler_sees (cmdname where' args : CString) (mask : HostMask)
    (q : QueueCall ⟨cmdname, mask.text, where', args⟩) :
    ∃ job, q.queue = some job ∧
      job.size = sizeofCmdArgs + (cmdname.length + 1) + (mask.text.length + 1) +
        (where'.length + 1) + (args.length + 1) ∧
      (⟨job.block, sizeofCmdArgs⟩ :: job.arg.regions ⟨cmdname, mask.text, where', args⟩).Pairwise
        Region.Disjoint ∧
      (∀ r ∈ (⟨job.block, sizeofCmdArgs⟩ ::
          job.arg.regions ⟨cmdname, mask.text, where', args⟩ : List Region),
        r.Inside ⟨job.block, job.size⟩) ∧
      job.arg.Holds job.mem ⟨cmdname, mask.text, where', args⟩ ∧
      (∀ i ∉ (⟨job.block + sizeofCmdArgs, job.size - sizeofCmdArgs⟩ : Region),
        job.mem i = q.mem i) ∧
      ∀ later, Mem.SameOn ⟨job.block, job.size⟩ job.mem later →
        threadpoolWrapperCmdAt q.len later job.arg =
          Exec.catchSegv
            (do
              let level ← onPerms (permissionsGet (some mask.host))
              let _ ← q.handler cmdname
                { nick := mask.nick, ident := some mask.ident, host := some mask.host
                  permissionLevel := level } where' args)
            (pure ()) := by
  refine ⟨_, q.queue_eq, rfl, q.regions_pairwise.1, q.regions_pairwise.2,
    q.holds_of_sameOn fun _ _ => rfl, fun i hi => ?_, fun later hlater => ?_⟩
  · refine q.queued_mem_of_not_mem ?_
    have hsize : q.queued.size - sizeofCmdArgs =
        Mem.packSize (CmdStrings.toList ⟨cmdname, mask.text, where', args⟩) := by
      show CmdStrings.blockSize _ - _ = _
      rw [QueueCall.blockSize_eq, Nat.add_sub_cancel_left]
    rwa [hsize] at hi
  · exact q.wrapper_later hlater

/-- `kick` from `n!u@h` in `#c`, with the strings at the addresses 0, 8, 16 and 24 and the block at
100. -/
def kickCall : QueueCall ⟨CString.lit "kick",
    HostMask.text ⟨CString.lit "n", CString.lit "u", CString.lit "h", by decide, by decide⟩,
    CString.lit "#c", CString.lit "bob"⟩ where
  len := 1000
  len_le := by decide
  mem := fun i =>
    ([107, 105, 99, 107, 0, 0, 0, 0, 110, 33, 117, 64, 104, 0, 0, 0,
      35, 99, 0, 0, 0, 0, 0, 0, 98, 111, 98, 0] : List UInt8).getD i.toNat 0
  cmdname := ⟨0, by decide, by decide⟩
  sender := ⟨8, by decide, by decide⟩
  where' := ⟨16, by decide, by decide⟩
  args := ⟨24, by decide, by decide⟩
  handler := fun _ who where' _ => do
    coreCall (.msg where' who.nick)
    return 0
  n := 0
  malloc := fun _ => some 100
  block := 100
  malloc_eq := rfl
  fresh := by decide

/-- The caller's buffers overwritten after the call do not reach the handler. -/
theorem queuedCmd_handler_sees_kick :
    ∃ job, kickCall.queue = some job ∧ job.size = 98 ∧
      threadpoolWrapperCmdAt 1000 (fun i => if i < 100 then 88 else job.mem i) job.arg =
        Exec.catchSegv
          (do
            let level ← onPerms (permissionsGet (some (CString.lit "h")))
            let _ ← kickCall.handler (CString.lit "kick")
              { nick := CString.lit "n", ident := some (CString.lit "u")
                host := some (CString.lit "h"), permissionLevel := level }
              (CString.lit "#c") (CString.lit "bob"))
          (pure ()) := by
  obtain ⟨job, hqueue, hsize, -, -, -, -, hlater⟩ := queuedCmd_handler_sees _ _ _ _ kickCall
  refine ⟨job, hqueue, hsize, hlater _ fun i hi => if_neg ?_⟩
  obtain rfl : kickCall.queued = job := Option.some.inj (kickCall.queue_eq.symm.trans hqueue)
  have hlo : (100 : Int) ≤ i := hi.1
  omega

end MinervaBot
