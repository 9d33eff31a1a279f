import MinervaBot.MainLoop

/-!
# What a connection holds

`net_connect` and `net_disconnect` of `net.c`, with the descriptors and the mbedtls contexts that
they take and give back, under the loop of `main`. What the resolver, the sockets and mbedtls answer
is given (`ConnectReply`); a descriptor that is handed out is not open. `netMainStep` is `mainStep`
of `MinervaBot.MainLoop` with these calls (`netMain_refines`).

`connection_open` says that `main` works on an open descriptor whenever it reads, and closes nothing
else. `connection_ledger` counts what is held: `main` disconnects after every connection, but a
`net_connect` that fails behind its first steps gives nothing back.
-/

namespace MinervaBot

open Lib

/-- The objects of mbedtls that `net_connect_ssl` initialises and `net_disconnect` frees. -/
inductive TlsContext where
  | serverFd
  | ssl
  | conf
  | ctrDrbg
  | entropy
  deriving DecidableEq

/-- The variables of `net.c`, the descriptors of connections that are open, the calls of `close` for
a descriptor that is not, the results of `getaddrinfo` that are not freed, and the calls of the
initialisers and of the functions that free. A descriptor is `none` for `-1`. -/
structure NetVars where
  useSsl : Bool
  conn : Option Nat
  serverFd : Option Nat
  fds : List Nat
  badCloses : Nat
  addrinfos : Nat
  inits : TlsContext → Nat
  frees : TlsContext → Nat

/-- The variables before the first `net_connect`. -/
def NetVars.init : NetVars where
  useSsl := false
  conn := some 0
  serverFd := some 0
  fds := []
  badCloses := 0
  addrinfos := 0
  inits := fun _ => 0
  frees := fun _ => 0

/-- The answers in `net_connect_nossl`; `socket` is `none` for `-1`, and `errno` its error. -/
structure NosslReply where
  getaddrinfo : Int
  socket : Option Nat
  errno : Int
  errno_ne : errno ≠ 0
  connect : Int

/-- The answers in `net_connect_ssl`: results of the calls of mbedtls, with the descriptor that
`mbedtls_net_connect` opens if it succeeds; `handshake` are those of `mbedtls_ssl_handshake`. -/
structure SslReply where
  ctrDrbgSeed : Int
  netConnect : Int
  fd : Nat
  configDefaults : Int
  setup : Int
  setHostname : Int
  handshake : List Int

/-- The answers to a call of `net_connect`, for either way. -/
structure ConnectReply where
  nossl : NosslReply
  ssl : SslReply

/-- A descriptor is opened. The system never gives one that is open. -/
def NetVars.openFd (s : NetVars) (fd : Nat) : Option NetVars :=
  if fd ∈ s.fds then none else some { s with fds := fd :: s.fds }

/-- `close`. -/
def NetVars.close (s : NetVars) (fd : Option Nat) : NetVars :=
  match fd with
  | none => { s with badCloses := s.badCloses + 1 }
  | some fd =>
    if fd ∈ s.fds then { s with fds := s.fds.erase fd }
    else { s with badCloses := s.badCloses + 1 }

/-- `net_connect_nossl`: its result, and the variables. -/
def netConnectNossl (reply : NosslReply) (s : NetVars) : Option (Int × NetVars) :=
  if reply.getaddrinfo ≠ 0 then some (reply.getaddrinfo, s)
  else
    let s := { s with addrinfos := s.addrinfos + 1 }
    match reply.socket with
    | none => some (reply.errno, { s with conn := none, addrinfos := s.addrinfos - 1 })
    | some fd =>
      match s.openFd fd with
      | none => none
      | some s =>
        let s := { s with conn := some fd }
        if reply.connect ≠ 0 then
          some (reply.connect, { s with addrinfos := s.addrinfos - 1 })
        else some (0, { s with addrinfos := s.addrinfos - 1 })

/-- `MBEDTLS_ERR_SSL_WANT_READ` -/
def wantRead : Int := -0x6900

/-- `MBEDTLS_ERR_SSL_WANT_WRITE` -/
def wantWrite : Int := -0x6880

/-- The loop around `mbedtls_ssl_handshake`: the result it ends with, `none` while it goes on. -/
def sslHandshake : List Int → Option Int
  | [] => none
  | ret :: rets =>
    if ret = 0 then some 0
    else if ret ≠ wantRead ∧ ret ≠ wantWrite then some ret
    else sslHandshake rets

/-- `net_connect_ssl`. The results of its failures are the negative numbers of their lines. -/
def netConnectSsl (reply : SslReply) (s : NetVars) : Option (Int × NetVars) :=
  let s := { s with inits := fun c => s.inits c + 1, serverFd := none }
  if reply.ctrDrbgSeed ≠ 0 then some (-89, s)
  else if reply.netConnect ≠ 0 then some (-95, s)
  else
    match s.openFd reply.fd with
    | none => none
    | some s =>
      let s := { s with serverFd := some reply.fd }
      if reply.configDefaults ≠ 0 then some (-101, s)
      else if reply.setup ≠ 0 then some (-109, s)
      else if reply.setHostname ≠ 0 then some (-114, s)
      else
        match sslHandshake reply.handshake with
        | none => none
        | some ret => if ret ≠ 0 then some (-126, s) else some (0, s)

/-- `net_connect`. -/
def netConnect (useSsl : Bool) (reply : ConnectReply) (s : NetVars) : Option (Int × NetVars) :=
  let s := { s with useSsl }
  if useSsl then netConnectSsl reply.ssl s else netConnectNossl reply.nossl s

/-- `net_disconnect`. -/
def netDisconnect (s : NetVars) : NetVars :=
  if !s.useSsl then s.close s.conn
  else
    -- `mbedtls_net_free` closes the descriptor that it has
    let s := if s.serverFd = none then s else { s.close s.serverFd with serverFd := none }
    { s with frees := fun c => s.frees c + 1 }

/-! ## `main` -/

/-- `main` with the variables of `net.c`. -/
structure NetMain where
  main : MainState
  net : NetVars

/-- A signal comes, `main` goes on at `loop_retry` (with the answers to `net_connect`, whether
`irc_login` can copy the nick, and the bytes in the arrays) or at the condition of `irc_loop`, or
`net_recv` returns. -/
inductive NetMainAct where
  | signal
  | connect (reply : ConnectReply) (malloc : Bool) (loginBuf loopBuf nickbuf : Mem)
  | test
  | recv (r : NetRecv)

/-- `main` is at another place; behind a connection it disconnects. -/
def NetMain.goto (s : NetMain) (main : MainState) : NetMain :=
  match main.phase with
  | .retry => { main, net := netDisconnect s.net }
  | _ => { s with main }

/-- One step of `main`, from the first `loop_retry` on. -/
def netMainStep (config : LoginConfig) (useSsl : Bool) (s : NetMain) :
    NetMainAct → Option (NetMain × Unit)
  | .signal => some ({ s with main := { s.main with done := true } }, ())
  | .connect reply malloc loginBuf loopBuf nickbuf =>
    match s.main.phase with
    | .retry =>
      if s.main.done then some ({ s with main := { s.main with phase := .exited } }, ())
      else
        match netConnect useSsl reply s.net with
        | none => none
        | some (ret, net) =>
          let s := { s with net }
          if ret ≠ 0 then some (s, ())
          else if !malloc then some ({ s with net := netDisconnect net }, ())
          else
            some ({ s with main := { s.main with
              phase := .login (.init loginBuf config.user config.realname config.nick config.password)
                (.init loopBuf nickbuf)
              last := none } }, ())
    | _ => none
  | .test =>
    match s.main.phase with
    | .loop loop =>
      some (s.goto { s.main with phase := if s.main.done then .retry else .loopRecv loop }, ())
    | _ => none
  | .recv r =>
    match s.main.phase with
    | .login login loop =>
      some (s.goto { s.main with
        phase := afterLoginRecv loop (loginRecv login r), last := some r }, ())
    | .loopRecv loop =>
      some (s.goto { s.main with phase := afterLoopRecv loop r, last := some r }, ())
    | _ => none

/-- `main` before it connects for the first time. -/
def netMainInit : NetMain where
  main := mainInit
  net := .init

/-! ## What the calls do -/

/-- The descriptor that an attempt opens. -/
def ConnectReply.opens (useSsl : Bool) (reply : ConnectReply) : Option Nat :=
  if useSsl then
    if reply.ssl.ctrDrbgSeed = 0 ∧ reply.ssl.netConnect = 0 then some reply.ssl.fd else none
  else if reply.nossl.getaddrinfo = 0 then reply.nossl.socket else none

/-- Every step of an attempt succeeds. -/
def ConnectReply.Connects (useSsl : Bool) (reply : ConnectReply) : Prop :=
  if useSsl then
    reply.ssl.ctrDrbgSeed = 0 ∧ reply.ssl.netConnect = 0 ∧ reply.ssl.configDefaults = 0 ∧
      reply.ssl.setup = 0 ∧ reply.ssl.setHostname = 0 ∧ sslHandshake reply.ssl.handshake = some 0
  else reply.nossl.getaddrinfo = 0 ∧ reply.nossl.socket ≠ none ∧ reply.nossl.connect = 0

instance (useSsl : Bool) (reply : ConnectReply) : Decidable (reply.Connects useSsl) := by
  unfold ConnectReply.Connects
  infer_instance

/-- The descriptor that the connection uses. -/
def NetVars.current (s : NetVars) : Option Nat :=
  if s.useSsl then s.serverFd else s.conn

/-- What `net_connect` does: it opens a descriptor at most, and its result is `0` exactly if every
step has succeeded; then the connection uses the descriptor. -/
structure ConnectSpec (useSsl : Bool) (reply : ConnectReply) (s : NetVars) (ret : Int)
    (s' : NetVars) : Prop where
  ret_iff : ret = 0 ↔ reply.Connects useSsl
  current : reply.Connects useSsl → ∃ fd, reply.opens useSsl = some fd ∧ s'.current = some fd
  useSsl_eq : s'.useSsl = useSsl
  fds : s'.fds = (reply.opens useSsl).toList ++ s.fds
  fresh : ∀ fd ∈ reply.opens useSsl, fd ∉ s.fds
  badCloses : s'.badCloses = s.badCloses
  addrinfos : s'.addrinfos = s.addrinfos
  inits : ∀ c, s'.inits c = s.inits c + if useSsl then 1 else 0
  frees : s'.frees = s.frees

section
variable {reply : ConnectReply} {s s' : NetVars} {ret : Int} {fd : Nat} {useSsl : Bool}

/-- A descriptor that is opened is a new one. -/
theorem NetVars.openFd_eq_some (h : s.openFd fd = some s') :
    fd ∉ s.fds ∧ s' = { s with fds := fd :: s.fds } := by
  rw [openFd] at h
  split at h
  · cases h
  · next hfresh =>
    cases h
    exact ⟨hfresh, rfl⟩

/-- The specification of `net_connect_nossl`. -/
theorem netConnectNossl_spec (h : netConnect false reply s = some (ret, s')) :
    ConnectSpec false reply s ret s' := by
  simp only [netConnect, Bool.false_eq_true, if_false, netConnectNossl] at h
  split at h
  · next hresolve =>
    cases h
    refine ⟨⟨fun h0 => absurd h0 hresolve, fun hc => absurd hc.1 hresolve⟩,
      fun hc => absurd hc.1 hresolve, rfl, ?_, ?_, rfl, rfl, fun _ => rfl, rfl⟩
    all_goals simp [ConnectReply.opens, hresolve]
  · next hresolve =>
    have hresolve : reply.nossl.getaddrinfo = 0 := not_not.1 hresolve
    split at h
    · next hsocket =>
      cases h
      refine ⟨⟨fun h0 => absurd h0 reply.nossl.errno_ne, fun hc => absurd hsocket hc.2.1⟩,
        fun hc => absurd hsocket hc.2.1, rfl, ?_, ?_, rfl, rfl, fun _ => rfl, rfl⟩
      all_goals simp [ConnectReply.opens, hresolve, hsocket]
    · next fd hsocket =>
      have hopens : reply.opens false = some fd := by
        simp [ConnectReply.opens, hresolve, hsocket]
      split at h
      · cases h
      · next s₁ hopen =>
        obtain ⟨hfresh, rfl⟩ := NetVars.openFd_eq_some hopen
        split at h
        · next hconnect =>
          cases h
          refine ⟨⟨fun h0 => absurd h0 hconnect, fun hc => absurd hc.2.2 hconnect⟩,
            fun hc => absurd hc.2.2 hconnect, rfl, ?_, ?_, rfl, rfl, fun _ => rfl, rfl⟩
          all_goals simp [hopens, hfresh]
        · next hconnect =>
          cases h
          refine ⟨⟨fun _ => ⟨hresolve, by simp [hsocket], not_not.1 hconnect⟩, fun _ => rfl⟩,
            fun _ => ⟨fd, hopens, rfl⟩, rfl, ?_, ?_, rfl, rfl, fun _ => rfl, rfl⟩
          all_goals simp [hopens, hfresh]

/-- The specification of `net_connect_ssl`. -/
theorem netConnectSsl_spec (h : netConnect true reply s = some (ret, s')) :
    ConnectSpec true reply s ret s' := by
  simp only [netConnect, if_true, netConnectSsl] at h
  have hconnects : reply.Connects true ↔ reply.ssl.ctrDrbgSeed = 0 ∧ reply.ssl.netConnect = 0 ∧
      reply.ssl.configDefaults = 0 ∧ reply.ssl.setup = 0 ∧ reply.ssl.setHostname = 0 ∧
      sslHandshake reply.ssl.handshake = some 0 := Iff.rfl
  split at h
  · next hseed =>
    cases h
    refine ⟨⟨fun h0 => absurd h0 (by decide), fun hc => absurd hc.1 hseed⟩,
      fun hc => absurd hc.1 hseed, rfl, ?_, ?_, rfl, rfl, fun _ => rfl, rfl⟩
    all_goals simp [ConnectReply.opens, hseed]
  · next hseed =>
    have hseed : reply.ssl.ctrDrbgSeed = 0 := not_not.1 hseed
    split at h
    · next hnet =>
      cases h
      refine ⟨⟨fun h0 => absurd h0 (by decide), fun hc => absurd hc.2.1 hnet⟩,
        fun hc => absurd hc.2.1 hnet, rfl, ?_, ?_, rfl, rfl, fun _ => rfl, rfl⟩
      all_goals simp [ConnectReply.opens, hnet]
    · next hnet =>
      have hnet : reply.ssl.netConnect = 0 := not_not.1 hnet
      have hopens : reply.opens true = some reply.ssl.fd := by
        simp [ConnectReply.opens, hseed, hnet]
      split at h
      · cases h
      · next s₁ hopen =>
        obtain ⟨hfresh, rfl⟩ := NetVars.openFd_eq_some hopen
        -- from here on the steps differ in their results only
        have hspec : ∀ ret, (ret = 0 ↔ reply.Connects true) → ConnectSpec true reply s ret
            { s with
              useSsl := true
              inits := fun c => s.inits c + 1
              serverFd := some reply.ssl.fd
              fds := reply.ssl.fd :: s.fds } := fun ret hret => by
          refine ⟨hret, fun _ => ⟨_, hopens, rfl⟩, rfl, ?_, ?_, rfl, rfl, fun _ => rfl, rfl⟩
          all_goals simp [hopens]
          exact hfresh
        rw [hconnects] at hspec
        split at h
        · next hfail =>
          cases h
          exact hspec _ ⟨fun h0 => absurd h0 (by decide), fun hc => absurd hc.2.2.1 hfail⟩
        · next hconfig =>
          split at h
          · next hfail =>
            cases h
            exact hspec _ ⟨fun h0 => absurd h0 (by decide), fun hc => absurd hc.2.2.2.1 hfail⟩
          · next hsetup =>
            split at h
            · next hfail =>
              cases h
              exact hspec _ ⟨fun h0 => absurd h0 (by decide), fun hc => absurd hc.2.2.2.2.1 hfail⟩
            · next hhost =>
              split at h
              · cases h
              · next r hshake =>
                split at h
                · next hfail =>
                  cases h
                  refine hspec _ ⟨fun h0 => absurd h0 (by decide), fun hc => ?_⟩
                  cases hshake.symm.trans hc.2.2.2.2.2
                  exact absurd rfl hfail
                · next hzero =>
                  cases h
                  refine hspec _ ⟨fun _ => ⟨hseed, hnet, not_not.1 hconfig, not_not.1 hsetup,
                    not_not.1 hhost, ?_⟩, fun _ => rfl⟩
                  rw [hshake, not_not.1 hzero]

/-- The specification of `net_connect`. -/
theorem netConnect_spec : ∀ {useSsl : Bool}, netConnect useSsl reply s = some (ret, s') →
    ConnectSpec useSsl reply s ret s'
  | true, h => netConnectSsl_spec h
  | false, h => netConnectNossl_spec h

/-- `net_disconnect` closes the descriptor of the connection. -/
structure DisconnectSpec (s s' : NetVars) (fd : Nat) : Prop where
  useSsl_eq : s'.useSsl = s.useSsl
  fds : s'.fds = s.fds.erase fd
  badCloses : s'.badCloses = s.badCloses
  addrinfos : s'.addrinfos = s.addrinfos
  inits : s'.inits = s.inits
  frees : ∀ c, s'.frees c = s.frees c + if s.useSsl then 1 else 0

/-- The specification of `net_disconnect`. -/
theorem netDisconnect_spec (hcurrent : s.current = some fd) (hfd : fd ∈ s.fds) :
    DisconnectSpec s (netDisconnect s) fd := by
  have hclose : s.close (some fd) = { s with fds := s.fds.erase fd } := if_pos hfd
  obtain ⟨useSsl, conn, serverFd, fds, badCloses, addrinfos, inits, frees⟩ := s
  cases useSsl with
  | false =>
    obtain rfl : conn = some fd := hcurrent
    show DisconnectSpec _ (NetVars.close _ (some fd)) fd
    rw [hclose]
    exact ⟨rfl, rfl, rfl, rfl, rfl, fun _ => rfl⟩
  | true =>
    obtain rfl : serverFd = some fd := hcurrent
    simp only [netDisconnect, Bool.not_true, Bool.false_eq_true, if_false, hclose,
      reduceCtorEq]
    exact ⟨rfl, rfl, rfl, rfl, rfl, fun _ => rfl⟩

end

/-! ## Steps -/

/-- The steps, each with what it needs and what it leaves: a signal, the end, an attempt that fails,
a login without memory, a login that begins, a connection that goes on, or one that ends. -/
inductive NetMainStep (useSsl : Bool) (s : NetMain) : NetMainAct → NetMain → Prop
  | signal : NetMainStep useSsl s .signal { s with main := { s.main with done := true } }
  | exit : s.main.phase = .retry → s.main.done = true →
      NetMainStep useSsl s (.connect reply malloc loginBuf loopBuf nickbuf)
        { s with main := { s.main with phase := .exited } }
  | fail : s.main.phase = .retry → s.main.done = false →
      netConnect useSsl reply s.net = some (ret, net) → ret ≠ 0 →
      NetMainStep useSsl s (.connect reply malloc loginBuf loopBuf nickbuf) { s with net }
  | noNick : s.main.phase = .retry → s.main.done = false →
      netConnect useSsl reply s.net = some (0, net) →
      NetMainStep useSsl s (.connect reply malloc loginBuf loopBuf nickbuf)
        { s with net := netDisconnect net }
  | login : s.main.phase = .retry → s.main.done = false →
      netConnect useSsl reply s.net = some (0, net) → main.phase.reads = true →
      NetMainStep useSsl s (.connect reply malloc loginBuf loopBuf nickbuf) { main, net }
  | stays : s.main.phase.reads = true → main.phase.reads = true →
      (∀ reply malloc loginBuf loopBuf nickbuf,
        act ≠ .connect reply malloc loginBuf loopBuf nickbuf) →
      NetMainStep useSsl s act { s with main }
  | leaves : s.main.phase.reads = true → main.phase = .retry →
      (∀ reply malloc loginBuf loopBuf nickbuf,
        act ≠ .connect reply malloc loginBuf loopBuf nickbuf) →
      NetMainStep useSsl s act { main, net := netDisconnect s.net }

section
variable {config : LoginConfig} {useSsl : Bool} {s s' : NetMain} {act : NetMainAct} {u : Unit}

/-- `main` goes on with the connection or leaves it. -/
theorem NetMainStep.goto {main : MainState} (hreads : s.main.phase.reads = true)
    (hmain : main.phase.reads = true ∨ main.phase = .retry)
    (hact : ∀ reply malloc loginBuf loopBuf nickbuf,
      act ≠ .connect reply malloc loginBuf loopBuf nickbuf) :
    NetMainStep useSsl s act (s.goto main) := by
  rw [NetMain.goto]
  split
  · next hretry => exact .leaves hreads hretry hact
  · next hnot => exact .stays hreads (hmain.resolve_right hnot) hact

/-- Every step of the function is one of these. -/
theorem netMainStep_inv (h : netMainStep config useSsl s act = some (s', u)) :
    NetMainStep useSsl s act s' := by
  cases act with
  | signal =>
    cases h
    exact .signal
  | connect reply malloc loginBuf loopBuf nickbuf =>
    simp only [netMainStep] at h
    split at h
    · next hphase =>
      split at h
      · next hdone =>
        cases h
        exact .exit hphase hdone
      · next hdone =>
        have hdone : s.main.done = false := by simpa using hdone
        split at h
        · cases h
        · next ret net hconnect =>
          split at h
          · next hret =>
            cases h
            exact .fail hphase hdone hconnect hret
          · next hret =>
            obtain rfl : ret = 0 := not_not.1 hret
            split at h
            · cases h
              exact .noNick hphase hdone hconnect
            · cases h
              exact .login hphase hdone hconnect rfl
    · cases h
  | test =>
    simp only [netMainStep] at h
    split at h
    · next loop hphase =>
      cases h
      refine .goto (by rw [hphase]; rfl) ?_ (by rintro _ _ _ _ _ ⟨⟩)
      cases s.main.done with
      | true => exact .inr rfl
      | false => exact .inl rfl
    · cases h
  | recv r =>
    simp only [netMainStep] at h
    split at h
    · next login loop hphase =>
      cases h
      refine .goto (by rw [hphase]; rfl) ?_ (by rintro _ _ _ _ _ ⟨⟩)
      simp only [afterLoginRecv]
      split
      · split
        · exact .inl rfl
        · exact .inr rfl
      · exact .inl rfl
    · next loop hphase =>
      cases h
      refine .goto (by rw [hphase]; rfl) ?_ (by rintro _ _ _ _ _ ⟨⟩)
      cases r with
      | eof => exact .inr rfl
      | data chunk => exact .inl rfl
      | error => exact .inl rfl
    · cases h

/-! ## Open descriptors -/

/-- Descriptors are open once, nothing else was ever closed, no list of addresses is left, and while
`main` reads the connection has an open descriptor. -/
structure NetMain.Open (useSsl : Bool) (s : NetMain) : Prop where
  nodup : s.net.fds.Nodup
  badCloses : s.net.badCloses = 0
  addrinfos : s.net.addrinfos = 0
  reading : s.main.phase.reads = true →
    s.net.useSsl = useSsl ∧ ∃ fd ∈ s.net.fds, s.net.current = some fd

/-- What an attempt leaves in place of the variables before it. -/
theorem NetMain.Open.connect {reply : ConnectReply} {ret : Int} {net : NetVars}
    (h : s.Open useSsl) (hconnect : netConnect useSsl reply s.net = some (ret, net)) :
    net.fds.Nodup ∧ net.badCloses = 0 ∧ net.addrinfos = 0 ∧
      (ret = 0 → net.useSsl = useSsl ∧ ∃ fd ∈ net.fds, net.current = some fd) := by
  have hspec := netConnect_spec hconnect
  refine ⟨?_, hspec.badCloses.trans h.badCloses, hspec.addrinfos.trans h.addrinfos, fun hret => ?_⟩
  · rw [hspec.fds]
    cases hopens : reply.opens useSsl with
    | none => exact h.nodup
    | some fd => exact List.nodup_cons.2 ⟨hspec.fresh fd hopens, h.nodup⟩
  · obtain ⟨fd, hopens, hcurrent⟩ := hspec.current (hspec.ret_iff.1 hret)
    refine ⟨hspec.useSsl_eq, fd, ?_, hcurrent⟩
    rw [hspec.fds, hopens]
    exact List.mem_append_left _ (List.mem_singleton_self fd)

/-- `net_disconnect` of a connection with an open descriptor. -/
theorem open_disconnect {net : NetVars} {fd : Nat} {main : MainState} (hnodup : net.fds.Nodup)
    (hbad : net.badCloses = 0) (haddr : net.addrinfos = 0) (hfd : fd ∈ net.fds)
    (hcurrent : net.current = some fd) (hmain : main.phase.reads = false) :
    NetMain.Open useSsl { main, net := netDisconnect net } := by
  have hspec := netDisconnect_spec hcurrent hfd
  refine ⟨?_, hspec.badCloses.trans hbad, hspec.addrinfos.trans haddr, fun hreads => ?_⟩
  · show (netDisconnect net).fds.Nodup
    rw [hspec.fds]
    exact hnodup.erase fd
  · cases hmain.symm.trans hreads

/-- Every step keeps it. -/
theorem NetMain.Open.step (h : s.Open useSsl) (hstep : NetMainStep useSsl s act s') :
    s'.Open useSsl := by
  cases hstep with
  | signal => exact ⟨h.nodup, h.badCloses, h.addrinfos, h.reading⟩
  | exit => exact ⟨h.nodup, h.badCloses, h.addrinfos, by rintro ⟨⟩⟩
  | fail hphase _ hconnect _ =>
    obtain ⟨hnodup, hbad, haddr, -⟩ := h.connect hconnect
    refine ⟨hnodup, hbad, haddr, fun hreads => ?_⟩
    rw [hphase] at hreads
    cases hreads
  | noNick hphase _ hconnect =>
    obtain ⟨hnodup, hbad, haddr, hok⟩ := h.connect hconnect
    obtain ⟨-, fd, hfd, hcurrent⟩ := hok rfl
    exact open_disconnect hnodup hbad haddr hfd hcurrent (by rw [hphase]; rfl)
  | login _ _ hconnect _ =>
    obtain ⟨hnodup, hbad, haddr, hok⟩ := h.connect hconnect
    exact ⟨hnodup, hbad, haddr, fun _ => hok rfl⟩
  | stays hreads _ => exact ⟨h.nodup, h.badCloses, h.addrinfos, fun _ => h.reading hreads⟩
  | leaves hreads hretry =>
    obtain ⟨-, fd, hfd, hcurrent⟩ := h.reading hreads
    exact open_disconnect h.nodup h.badCloses h.addrinfos hfd hcurrent (by rw [hretry]; rfl)

/-- The invariant holds at the start. -/
theorem netMainInit_open : netMainInit.Open useSsl :=
  ⟨List.nodup_nil, rfl, rfl, by rintro ⟨⟩⟩

/-- In every run of `main`, whatever the system, mbedtls and the server answer: while `main` logs in
or handles lines, the connection has a descriptor that is open, no descriptor is ever closed that is
not open, and every list of addresses is freed. -/
theorem connection_open (config : LoginConfig) (useSsl : Bool) (acts : List NetMainAct) :
    EveryState (netMainStep config useSsl) netMainInit acts (NetMain.Open useSsl) := by
  intro pre s os _ hrun
  exact runSteps_preserves (fun _ _ _ _ h hstep => h.step (netMainStep_inv hstep)) netMainInit_open
    hrun

/-! ## What is held -/

/-- The step is an attempt to connect that fails. -/
def NetMain.Fails (useSsl : Bool) (s : NetMain) : NetMainAct → Prop
  | .connect reply _ _ _ _ => s.main.done = false ∧ ¬ reply.Connects useSsl
  | _ => False

instance (s : NetMain) (act : NetMainAct) : Decidable (s.Fails useSsl act) := by
  cases act <;> unfold NetMain.Fails <;> infer_instance

/-- The descriptors that a step loses: an attempt that fails keeps the one that it has opened. -/
def NetMain.lostFds (useSsl : Bool) (s : NetMain) (act : NetMainAct) : Nat :=
  match act with
  | .connect reply _ _ _ _ =>
    if s.Fails useSsl act then (reply.opens useSsl).toList.length else 0
  | _ => 0

/-- The contexts of a kind that a step loses: an attempt that fails frees none. -/
def NetMain.lostContexts (useSsl : Bool) (s : NetMain) (act : NetMainAct) : Nat :=
  if useSsl ∧ s.Fails useSsl act then 1 else 0

/-- `1` if `main` has a connection. -/
def NetMain.connected (s : NetMain) : Nat :=
  if s.main.phase.reads then 1 else 0

/-- The contexts of a kind that are initialised and not freed. -/
def NetVars.held (s : NetVars) (c : TlsContext) : Int :=
  s.inits c - s.frees c

/-- What an attempt adds to what is held. -/
theorem netConnect_held {reply : ConnectReply} {ret : Int} {net : NetVars}
    (h : netConnect useSsl reply s.net = some (ret, net)) (c : TlsContext) :
    net.fds.length = s.net.fds.length + (reply.opens useSsl).toList.length ∧
      net.held c = s.net.held c + if useSsl then 1 else 0 := by
  have hspec := netConnect_spec h
  constructor
  · rw [hspec.fds, List.length_append, Nat.add_comm]
  · rw [NetVars.held, NetVars.held, hspec.inits, hspec.frees]
    split <;> push_cast <;> omega

/-- What `net_disconnect` takes from it. -/
theorem netDisconnect_held {net : NetVars} {fd : Nat} (hcurrent : net.current = some fd)
    (hfd : fd ∈ net.fds) (c : TlsContext) :
    (netDisconnect net).fds.length + 1 = net.fds.length ∧
      (netDisconnect net).held c + (if net.useSsl then 1 else 0) = net.held c := by
  have hspec := netDisconnect_spec hcurrent hfd
  constructor
  · rw [hspec.fds, List.length_erase_of_mem hfd]
    have hpos := List.length_pos_of_mem hfd
    omega
  · rw [NetVars.held, NetVars.held, hspec.frees, hspec.inits]
    split <;> push_cast <;> omega

/-- An attempt that does not fail loses nothing. -/
theorem NetMain.lost_eq_zero (h : ¬ s.Fails useSsl act) :
    s.lostFds useSsl act = 0 ∧ s.lostContexts useSsl act = 0 := by
  refine ⟨?_, if_neg fun hfails => h hfails.2⟩
  cases act with
  | connect => exact if_neg h
  | _ => rfl

/-- Only an attempt to connect fails. -/
theorem NetMain.not_fails_of_ne (h : ∀ reply malloc loginBuf loopBuf nickbuf,
    act ≠ .connect reply malloc loginBuf loopBuf nickbuf) : ¬ s.Fails useSsl act := by
  cases act with
  | connect => exact absurd rfl (h _ _ _ _ _)
  | _ => exact id

/-- An attempt that succeeds has opened a descriptor, and loses nothing. -/
theorem NetMain.lost_of_connects {reply : ConnectReply} {net : NetVars}
    (h : netConnect useSsl reply s.net = some (0, net)) :
    (∀ malloc loginBuf loopBuf nickbuf,
        s.lostFds useSsl (.connect reply malloc loginBuf loopBuf nickbuf) = 0 ∧
          s.lostContexts useSsl (.connect reply malloc loginBuf loopBuf nickbuf) = 0) ∧
      (reply.opens useSsl).toList.length = 1 := by
  have hspec := netConnect_spec h
  have hconnects := hspec.ret_iff.1 rfl
  refine ⟨fun _ _ _ _ => lost_eq_zero fun hfails => hfails.2 hconnects, ?_⟩
  obtain ⟨fd, hopens, -⟩ := hspec.current hconnects
  rw [hopens]
  rfl

theorem NetMain.connected_eq_one (h : s.main.phase.reads = true) : s.connected = 1 := if_pos h

theorem NetMain.connected_eq_zero (h : s.main.phase = .retry) : s.connected = 0 := by
  rw [connected, h]
  rfl

/-- A step changes what is held by what it loses and by the connection that it begins or ends. -/
theorem NetMainStep.held (h : s.Open useSsl) (hstep : NetMainStep useSsl s act s') (c : TlsContext) :
    s'.net.fds.length + s.connected = s.net.fds.length + s'.connected + s.lostFds useSsl act ∧
      s'.net.held c + (if useSsl then s.connected else 0 : Nat) =
        s.net.held c + (if useSsl then s'.connected else 0 : Nat) + s.lostContexts useSsl act := by
  cases hstep with
  | signal =>
    have hnot : ¬ s.Fails useSsl .signal := id
    obtain ⟨hfds, hcontexts⟩ := NetMain.lost_eq_zero hnot
    rw [hfds, hcontexts]
    exact ⟨rfl, (Int.add_zero _).symm⟩
  | @exit reply malloc loginBuf loopBuf nickbuf hphase hdone =>
    have hnot : ¬ s.Fails useSsl (.connect reply malloc loginBuf loopBuf nickbuf) := fun hfails => by
      cases hdone.symm.trans hfails.1
    rw [(NetMain.lost_eq_zero hnot).1, (NetMain.lost_eq_zero hnot).2,
      NetMain.connected_eq_zero hphase]
    exact ⟨rfl, (Int.add_zero _).symm⟩
  | @fail reply ret net malloc loginBuf loopBuf nickbuf hphase hdone hconnect hret =>
    obtain ⟨hlen, hheld⟩ := netConnect_held hconnect c
    have hfails : s.Fails useSsl (.connect reply malloc loginBuf loopBuf nickbuf) :=
      ⟨hdone, fun hc => hret ((netConnect_spec hconnect).ret_iff.2 hc)⟩
    have hafter : NetMain.connected { s with net } = 0 := NetMain.connected_eq_zero hphase
    have hfds : s.lostFds useSsl (.connect reply malloc loginBuf loopBuf nickbuf) =
        (reply.opens useSsl).toList.length := if_pos hfails
    have hcontexts : s.lostContexts useSsl (.connect reply malloc loginBuf loopBuf nickbuf) =
        if useSsl then 1 else 0 := by simp [NetMain.lostContexts, hfails]
    rw [hfds, hcontexts, NetMain.connected_eq_zero hphase, hafter]
    dsimp only
    exact ⟨by omega, by cases useSsl <;> simp_all⟩
  | @noNick reply net malloc loginBuf loopBuf nickbuf hphase hdone hconnect =>
    obtain ⟨hlen, hheld⟩ := netConnect_held hconnect c
    obtain ⟨hlost, hopens⟩ := NetMain.lost_of_connects hconnect
    obtain ⟨-, -, -, hok⟩ := h.connect hconnect
    obtain ⟨hssl, fd, hfd, hcurrent⟩ := hok rfl
    obtain ⟨hlen', hheld'⟩ := netDisconnect_held hcurrent hfd c
    have hafter : NetMain.connected { s with net := netDisconnect net } = 0 :=
      NetMain.connected_eq_zero hphase
    rw [hssl] at hheld'
    rw [(hlost _ _ _ _).1, (hlost _ _ _ _).2, NetMain.connected_eq_zero hphase, hafter]
    dsimp only
    exact ⟨by omega, by cases useSsl <;> simp_all⟩
  | @login reply net malloc loginBuf loopBuf nickbuf main hphase hdone hconnect hreads =>
    obtain ⟨hlen, hheld⟩ := netConnect_held hconnect c
    obtain ⟨hlost, hopens⟩ := NetMain.lost_of_connects hconnect
    have hafter : NetMain.connected { main, net } = 1 := NetMain.connected_eq_one hreads
    rw [(hlost _ _ _ _).1, (hlost _ _ _ _).2, NetMain.connected_eq_zero hphase, hafter]
    dsimp only
    exact ⟨by omega, by cases useSsl <;> simp_all⟩
  | @stays _ main hreads hreads' hact =>
    have hnot : ¬ s.Fails useSsl _ := NetMain.not_fails_of_ne hact
    obtain ⟨hfds, hcontexts⟩ := NetMain.lost_eq_zero hnot
    have hafter : NetMain.connected { s with main } = 1 := NetMain.connected_eq_one hreads'
    rw [hfds, hcontexts, NetMain.connected_eq_one hreads, hafter]
    exact ⟨rfl, (Int.add_zero _).symm⟩
  | @leaves _ main hreads hretry hact =>
    have hnot : ¬ s.Fails useSsl _ := NetMain.not_fails_of_ne hact
    obtain ⟨hfds, hcontexts⟩ := NetMain.lost_eq_zero hnot
    obtain ⟨hssl, fd, hfd, hcurrent⟩ := h.reading hreads
    obtain ⟨hlen, hheld⟩ := netDisconnect_held hcurrent hfd c
    have hafter : NetMain.connected { main, net := netDisconnect s.net } = 0 :=
      NetMain.connected_eq_zero hretry
    rw [hssl] at hheld
    rw [hfds, hcontexts, NetMain.connected_eq_one hreads, hafter]
    dsimp only
    exact ⟨by omega, by cases useSsl <;> simp_all⟩

/-- In every run of `main`, the descriptors of connections that are open are that of the connection
that `main` has, if any, and one for each attempt to connect that has failed behind the step that
opens it; the contexts of each kind that are initialised and not freed are that of the connection,
and one for each attempt with TLS that has failed at all. -/
theorem connection_ledger {acts : List NetMainAct} {os : List Unit}
    (h : runSteps (netMainStep config useSsl) netMainInit acts = some (s, os)) :
    (s.net.fds.length : Int) = s.connected +
        countSteps (netMainStep config useSsl) (NetMain.lostFds useSsl) netMainInit acts ∧
      ∀ c, s.net.held c = (if useSsl then s.connected else 0 : Nat) +
        countSteps (netMainStep config useSsl) (NetMain.lostContexts useSsl) netMainInit acts := by
  have hstep : ∀ c s act s' u, s.Open useSsl → netMainStep config useSsl s act = some (s', u) →
      s'.Open useSsl ∧
        (s'.net.fds.length : Int) - s'.connected =
          (s.net.fds.length : Int) - s.connected + s.lostFds useSsl act ∧
        s'.net.held c - (if useSsl then s'.connected else 0 : Nat) =
          s.net.held c - (if useSsl then s.connected else 0 : Nat) + s.lostContexts useSsl act := by
    intro c s act s' u hs hact
    have hinv := netMainStep_inv hact
    obtain ⟨hfds, hheld⟩ := hinv.held hs c
    exact ⟨hs.step hinv, by omega, by omega⟩
  constructor
  · have hgains := runSteps_gains (m := fun s : NetMain => (s.net.fds.length : Int) - s.connected)
      (fun s act s' u hs hact => (hstep .ssl s act s' u hs hact).imp_right And.left)
      netMainInit_open h
    have hinit : (netMainInit.net.fds.length : Int) - netMainInit.connected = 0 := rfl
    rw [hinit] at hgains
    omega
  · intro c
    have hgains := runSteps_gains
      (m := fun s : NetMain => s.net.held c - (if useSsl then s.connected else 0 : Nat))
      (fun s act s' u hs hact => (hstep c s act s' u hs hact).imp_right And.right)
      netMainInit_open h
    have hinit : netMainInit.net.held c - (if useSsl then netMainInit.connected else 0 : Nat) = 0 := by
      cases useSsl <;> rfl
    rw [hinit] at hgains
    omega

/-- An attempt over TLS whose handshake fails, then one that succeeds and ends. -/
def failedHandshake : List NetMainAct :=
  [.connect ⟨⟨0, none, 1, by decide, 0⟩, ⟨0, 0, 5, 0, 0, 0, [wantRead, -1]⟩⟩ true
      (fun _ => 0) (fun _ => 0) fun _ => 0,
    .connect ⟨⟨0, none, 1, by decide, 0⟩, ⟨0, 0, 6, 0, 0, 0, [wantWrite, 0]⟩⟩ true
      (fun _ => 0) (fun _ => 0) fun _ => 0,
    .recv .eof]

/-- The descriptor of the attempt that fails stays open. -/
theorem connection_ledger_failedHandshake : ∃ s os,
    runSteps (netMainStep ⟨CString.lit "u", CString.lit "r", CString.lit "n", none⟩ true) netMainInit
        failedHandshake = some (s, os) ∧ s.net.fds = [5] ∧
      ((s.net.fds.length : Int) = s.connected +
          countSteps (netMainStep ⟨CString.lit "u", CString.lit "r", CString.lit "n", none⟩ true)
            (NetMain.lostFds true) netMainInit failedHandshake ∧
        ∀ c, s.net.held c = (if true then s.connected else 0 : Nat) +
          countSteps (netMainStep ⟨CString.lit "u", CString.lit "r", CString.lit "n", none⟩ true)
            (NetMain.lostContexts true) netMainInit failedHandshake) := by
  refine ⟨_, _, rfl, rfl, ?_⟩
  have hrun : runSteps
      (netMainStep ⟨CString.lit "u", CString.lit "r", CString.lit "n", none⟩ true) netMainInit
      failedHandshake = some _ := rfl
  exact connection_ledger hrun

/-! ## The loop of `main` -/

/-- The same step of `mainStep`. -/
def NetMainAct.toMain (useSsl : Bool) : NetMainAct → MainAct
  | .signal => .signal
  | .connect reply malloc loginBuf loopBuf nickbuf =>
    .connect ⟨decide (reply.Connects useSsl), malloc, loginBuf, loopBuf, nickbuf⟩
  | .test => .test
  | .recv r => .recv r

/-- The variables of `main` after a change of phase. -/
theorem NetMain.goto_main (s : NetMain) (main : MainState) : (s.goto main).main = main := by
  rw [goto]
  split <;> rfl

/-- Without its descriptors and contexts a step is a step of `mainStep`. -/
theorem netMain_refines (h : netMainStep config useSsl s act = some (s', u)) :
    mainStep config s.main (act.toMain useSsl) = some (s'.main, ()) := by
  cases act with
  | signal =>
    cases h
    rfl
  | connect reply malloc loginBuf loopBuf nickbuf =>
    simp only [netMainStep] at h
    split at h
    · next hphase =>
      simp only [NetMainAct.toMain, mainStep, hphase, MainState.retry]
      split at h
      · next hdone =>
        cases h
        rw [if_pos hdone]
      · next hdone =>
        rw [if_neg hdone]
        split at h
        · cases h
        · next ret net hconnect =>
          have hret := (netConnect_spec hconnect).ret_iff
          split at h
          · next hfail =>
            cases h
            simp [mt hret.2 hfail]
          · next hok =>
            have hconnects := hret.1 (not_not.1 hok)
            split at h
            · next hmalloc =>
              cases h
              simp_all
            · next hmalloc =>
              cases h
              simp_all
    · cases h
  | test =>
    simp only [netMainStep] at h
    split at h
    · next loop hphase =>
      cases h
      simp only [NetMainAct.toMain, mainStep, hphase, NetMain.goto_main]
    · cases h
  | recv r =>
    simp only [netMainStep] at h
    split at h
    · next login loop hphase =>
      cases h
      simp only [NetMainAct.toMain, mainStep, hphase, NetMain.goto_main]
    · next loop hphase =>
      cases h
      simp only [NetMainAct.toMain, mainStep, hphase, NetMain.goto_main]
    · cases h

end

end MinervaBot
