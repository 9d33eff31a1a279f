import MinervaBot.Reload

/-!
# The modules of the repository

The commands that the modules under `src/modules` register, and what becomes of them when the calls
of several modules interleave. The words are pairwise different, so a call of one module concerns no
word of another: what a message that starts with a word of a module leads to depends on the calls of
this module only (`shipped_isolated`), and modules loaded together bind their words in whatever
order their calls come (`shipped_startup`). `bot_lua` is not among
them: it is built, but its code is behind `#if 0`.
-/

namespace MinervaBot

open Lib

/-- The modules. -/
inductive BotModule where
  | admin
  | chanop
  | cryptocurrency
  | fun'
  | geoip
  | google
  | math
  | misc
  | perms
  | urban
  | wolfram
  deriving DecidableEq

/-- The handlers that the modules register, each under the name of its function. -/
inductive BotHandler where
  | adminHandleReload
  | adminHandleCmd
  | adminHandleRaw
  | chanopHandleCmd
  | cryptocurrencyHandleCmd
  | funHandleCookie
  | funHandleHug
  | funHandleShrug
  | funHandlePotato
  | funHandleCelebrate
  | funHandleFw
  | geoipHandleCmd
  | googleHandleCmd
  | mathHandleCalc
  | miscHandleHelp
  | miscHandleHello
  | permsHandleCmd
  | urbanHandleCmd
  | wolframWaHandleCmd
  deriving DecidableEq

/-- The registrations of `module_init`. C leaves the order of the calls in a sum open. -/
def BotModule.moduleInit : BotModule → List (CString × BotHandler)
  | .admin => [(CString.lit "reload", .adminHandleReload), (CString.lit "join", .adminHandleCmd),
      (CString.lit "part", .adminHandleCmd), (CString.lit "raw", .adminHandleRaw)]
  | .chanop => [(CString.lit "mode", .chanopHandleCmd), (CString.lit "ban", .chanopHandleCmd),
      (CString.lit "kick", .chanopHandleCmd), (CString.lit "op", .chanopHandleCmd),
      (CString.lit "voice", .chanopHandleCmd)]
  | .cryptocurrency => [(CString.lit "BTC", .cryptocurrencyHandleCmd),
      (CString.lit "ETH", .cryptocurrencyHandleCmd), (CString.lit "XMR", .cryptocurrencyHandleCmd),
      (CString.lit "USD", .cryptocurrencyHandleCmd), (CString.lit "CAD", .cryptocurrencyHandleCmd)]
  | .fun' => [(CString.lit "cookie", .funHandleCookie), (CString.lit "hug", .funHandleHug),
      (CString.lit "shrug", .funHandleShrug), (CString.lit "potato", .funHandlePotato),
      (CString.lit "celebrate", .funHandleCelebrate), (CString.lit "confetti", .funHandleCelebrate),
      (CString.lit "party", .funHandleCelebrate), (CString.lit "fw", .funHandleFw)]
  | .geoip => [(CString.lit "geoip", .geoipHandleCmd), (CString.lit "ip", .geoipHandleCmd),
      (CString.lit "host", .geoipHandleCmd)]
  | .google => [(CString.lit "trans", .googleHandleCmd), (CString.lit "tr", .googleHandleCmd)]
  | .math => [(CString.lit "calc", .mathHandleCalc), (CString.lit "eval", .mathHandleCalc)]
  | .misc => [(CString.lit "help", .miscHandleHelp), (CString.lit "hello", .miscHandleHello)]
  | .perms => [(CString.lit "setp", .permsHandleCmd), (CString.lit "getp", .permsHandleCmd)]
  | .urban => [(CString.lit "urban", .urbanHandleCmd), (CString.lit "ud", .urbanHandleCmd)]
  | .wolfram => [(CString.lit "wolframalpha", .wolframWaHandleCmd),
      (CString.lit "wa", .wolframWaHandleCmd), (CString.lit "wolf", .wolframWaHandleCmd)]

/-- The names that `module_cleanup` removes, those of the registrations. -/
def BotModule.moduleCleanup (m : BotModule) : List CString :=
  m.moduleInit.map Prod.fst

/-- The library of a module. -/
def BotModule.library (m : BotModule) : Library BotHandler :=
  ⟨m.moduleInit, some m.moduleCleanup⟩

/-- The name is that of a command of the module, up to its case. -/
def BotModule.Owns (m : BotModule) (name : CString) : Prop :=
  ∃ p ∈ m.moduleInit, lowercase name.bytes = lowercase p.1.bytes

instance (m : BotModule) (name : CString) : Decidable (m.Owns name) :=
  inferInstanceAs (Decidable (∃ p ∈ m.moduleInit, _))

/-- The modules, in the order of their files. -/
def botModules : List BotModule :=
  [.admin, .chanop, .cryptocurrency, .fun', .geoip, .google, .math, .misc, .perms, .urban, .wolfram]

/-- The list has every module. -/
theorem mem_botModules (m : BotModule) : m ∈ botModules := by
  cases m <;> decide

/-- All names consist of letters, and they are pairwise different in lower case. -/
theorem shipped_words : (∀ p ∈ botModules.flatMap BotModule.moduleInit,
      (lowercase p.1.bytes).isSome = true) ∧
    ((botModules.flatMap BotModule.moduleInit).map fun p => lowercase p.1.bytes).Nodup := by
  decide +kernel

section
variable {m m' : BotModule} {p q : CString × BotHandler}

/-- A registration is known by its name. -/
theorem eq_of_lowercase (hp : p ∈ m.moduleInit) (hq : q ∈ m'.moduleInit)
    (h : lowercase p.1.bytes = lowercase q.1.bytes) : p = q :=
  List.inj_on_of_nodup_map shipped_words.2 (List.mem_flatMap.2 ⟨m, mem_botModules m, hp⟩)
    (List.mem_flatMap.2 ⟨m', mem_botModules m', hq⟩) h

/-- No name belongs to two modules. -/
theorem not_owns_of_ne (hne : m' ≠ m) (hp : p ∈ m'.moduleInit) : ¬ m.Owns p.1 := by
  have hall : ∀ m ∈ botModules, ∀ m' ∈ botModules, m' ≠ m → ∀ p ∈ m'.moduleInit, ¬ m.Owns p.1 := by
    decide +kernel
  exact hall m (mem_botModules m) m' (mem_botModules m') hne p hp

end

/-! ## The calls for a word -/

section
variable {H : Type} {cmds cmds' : CommandTree H} {w : Word}

/-- The call is for the word. -/
def IsAbout (w : Word) (call : LoggedCall H) : Prop :=
  lowercase call.1.cmdname.bytes = some w

instance (w : Word) (call : LoggedCall H) : Decidable (IsAbout w call) :=
  inferInstanceAs (Decidable (_ = _))

/-- What a call for a word makes of its handler. -/
def afterCall (v : Option H) (call : LoggedCall H) : Option H :=
  if call.2 < 0 then v
  else
    match call.1 with
    | .register _ _ handler => handler
    | .unregister _ => none

/-- A call changes the handler of its word. -/
theorem CallStep.find_eq {call : LoggedCall H} (h : CallStep cmds call cmds') (w : Word) :
    cmds'.find w = if decide (IsAbout w call) then afterCall (cmds.find w) call else cmds.find w := by
  by_cases hw : IsAbout w call
  · rw [decide_eq_true hw, if_pos rfl]
    obtain ⟨op, r⟩ := call
    have hmap := h.mapStep
    generalize cmds'.find = m at hmap ⊢
    cases hmap with
    | register hw' | unregister hw' =>
      obtain rfl := Option.some.inj (hw'.symm.trans hw)
      exact Function.update_self _ _ _
    | failed hr => exact (if_pos hr).symm
  · rw [decide_eq_false hw]
    exact h.find_of_ne hw

/-- The handler of a word depends on the calls for it. -/
theorem path_find {log : List (LoggedCall H)} (h : Path CallStep cmds log cmds') (w : Word) :
    cmds'.find w = (log.filter fun call => decide (IsAbout w call)).foldl afterCall (cmds.find w) :=
  h.foldl_filter (f := fun c => c.find w) fun _ _ _ hstep => hstep.find_eq w

/-- A call for a name of the module. -/
def BotModule.owns (m : BotModule) (call : LoggedCall H) : Bool :=
  decide (m.Owns call.1.cmdname)

/-- The calls for a word of a module are among the calls for its names. -/
theorem filter_about_owns {m : BotModule} {p : CString × BotHandler} (hp : p ∈ m.moduleInit)
    (hw : lowercase p.1.bytes = some w) (log : List (LoggedCall H)) :
    (log.filter fun call => decide (IsAbout w call)) =
      (log.filter m.owns).filter fun call => decide (IsAbout w call) := by
  rw [List.filter_filter]
  refine List.filter_congr fun call _ => ?_
  by_cases habout : IsAbout w call
  · have howns : m.owns call = true := decide_eq_true ⟨p, hp, habout.trans hw.symm⟩
    rw [howns, Bool.and_true]
  · rw [decide_eq_false habout, Bool.false_and]

end

/-! ## What messages lead to -/

section
variable {H : Type} {modDir modDir' : CString} {s s' : Loader H} {acts acts' : List (LoaderAct H)}
  {outs outs' : List (Option (LoggedCall H))}

/-- Behind a prefix of one byte, a message is dispatched by its first word. -/
theorem modulesCheckCmd_word {cmdPrefix : CString} (hone : cmdPrefix.length = 1)
    {cmds cmds' : CommandTree H} {text : CString}
    (h : ∀ w, lowercase (firstWord text).bytes = some w → cmds.find w = cmds'.find w)
    (sender target : CString) :
    modulesCheckCmd cmdPrefix cmds sender target (cmdPrefix ++ text) =
      modulesCheckCmd cmdPrefix cmds' sender target (cmdPrefix ++ text) := by
  have hbind : (lowercase (firstWord text).bytes).bind cmds.find =
      (lowercase (firstWord text).bytes).bind cmds'.find := by
    cases hw : lowercase (firstWord text).bytes with
    | none => rfl
    | some w => exact h w hw
  simp only [modulesCheckCmd_append, drop_append_text hone, CommandMap.dispatch, hbind]

/-- The calls of one module concern no name of another; and in two runs of the loader, with whatever
directories, libraries, events and orders, in which the same calls for names of a module are made,
with the same results, every message whose first word is such a name leads to the same. -/
theorem shipped_isolated (m : BotModule)
    (h : runSteps (loaderStep modDir poolDetached) loaderInit acts = some (s, outs))
    (h' : runSteps (loaderStep modDir' poolDetached) loaderInit acts' = some (s', outs'))
    (hsame : (callLog outs).filter m.owns = (callLog outs').filter m.owns) :
    (∀ m' ≠ m, ∀ p ∈ m'.moduleInit, ¬ m.Owns p.1) ∧
      ∀ cmdPrefix : CString, cmdPrefix.length = 1 → ∀ text, m.Owns (firstWord text) →
        ∀ sender target, modulesCheckCmd cmdPrefix s.cmds sender target (cmdPrefix ++ text) =
          modulesCheckCmd cmdPrefix s'.cmds sender target (cmdPrefix ++ text) := by
  refine ⟨fun m' hne p hp => not_owns_of_ne hne hp, ?_⟩
  rintro cmdPrefix hone text ⟨p, hp, hname⟩ sender target
  refine modulesCheckCmd_word hone (fun w hw => ?_) sender target
  have hw' : lowercase p.1.bytes = some w := hname.symm.trans hw
  rw [path_find (loaderRun_cmds h) w, path_find (loaderRun_cmds h') w,
    filter_about_owns hp hw' (callLog outs), filter_about_owns hp hw' (callLog outs'), hsame]

/-- `modules_loadmod` of a module, with nothing failing. -/
def BotModule.load (m : BotModule) (modFile : CString) : LoaderAct BotHandler :=
  .loadmod ⟨some m.library, some false, true, true⟩ modFile

/-- `bot_perms` and `bot_misc` are loaded, and their calls interleave. -/
def permsMiscStart : List (LoaderAct BotHandler) :=
  [BotModule.perms.load (CString.lit "bot_perms.so"), BotModule.misc.load (CString.lit "bot_misc.so"),
    .call 1 fun _ => true, .call 0 fun _ => true, .call 0 fun _ => true, .call 1 fun _ => true,
    .finish 0, .finish 1]

/-- `bot_perms` is loaded alone. -/
def permsStart : List (LoaderAct BotHandler) :=
  [BotModule.perms.load (CString.lit "bot_perms.so"), .call 0 fun _ => true, .call 0 fun _ => true,
    .finish 0]

/-- A registration with nothing failing. -/
def registered (name : CString) (handler : BotHandler) : LoggedCall BotHandler :=
  (.register (fun _ => true) name (some handler), 0)

/-- The calls of the two runs. -/
theorem permsMiscStart_log : ∃ s outs,
    runSteps (loaderStep (CString.lit "modules/") poolDetached) loaderInit permsMiscStart =
        some (s, outs) ∧
      callLog outs = [registered (CString.lit "help") .miscHandleHelp,
        registered (CString.lit "setp") .permsHandleCmd,
        registered (CString.lit "getp") .permsHandleCmd,
        registered (CString.lit "hello") .miscHandleHello] :=
  ⟨_, _, rfl, rfl⟩

/-- The calls of `bot_perms` at its start. -/
theorem permsStart_log : ∃ s outs,
    runSteps (loaderStep (CString.lit "modules/") poolDetached) loaderInit permsStart =
        some (s, outs) ∧
      callLog outs = [registered (CString.lit "setp") .permsHandleCmd,
        registered (CString.lit "getp") .permsHandleCmd] :=
  ⟨_, _, rfl, rfl⟩

/-- `bot_perms` started with `bot_misc` and alone. -/
theorem shipped_isolated_perms : ∃ s outs s' outs',
    runSteps (loaderStep (CString.lit "modules/") poolDetached) loaderInit permsMiscStart =
        some (s, outs) ∧
      runSteps (loaderStep (CString.lit "modules/") poolDetached) loaderInit permsStart =
        some (s', outs') ∧
      ∀ sender target, modulesCheckCmd (CString.lit ",") s.cmds sender target
          (CString.lit "," ++ CString.lit "getp ann") =
        modulesCheckCmd (CString.lit ",") s'.cmds sender target
          (CString.lit "," ++ CString.lit "getp ann") := by
  obtain ⟨s, outs, hboth, hlog⟩ := permsMiscStart_log
  obtain ⟨s', outs', halone, hlog'⟩ := permsStart_log
  refine ⟨s, outs, s', outs', hboth, halone, ?_⟩
  refine (shipped_isolated .perms hboth halone ?_).2 (CString.lit ",") (by decide) _ (by decide)
  rw [hlog, hlog']
  rfl

end

section
variable {cmdPrefix modDir : CString} {s : Loader BotHandler} {acts : List (LoaderAct BotHandler)}
  {outs : List (Option (LoggedCall BotHandler))} {mods : List BotModule}

/-- What the calls of a start bind: the words of the modules, each to its handler. -/
theorem find_of_registrations {cmds : CommandTree BotHandler} {log : List (LoggedCall BotHandler)}
    (hpath : Path CallStep cmdsInit log cmds) (hdone : ∀ call ∈ log, call.Done)
    (hremovals : removals log = [])
    (hregs : (registrations log).Perm (mods.flatMap BotModule.moduleInit)) (w : Word) :
    (∃ m ∈ mods, ∃ p ∈ m.moduleInit, lowercase p.1.bytes = some w ∧ cmds.find w = some p.2) ∨
      (∀ m ∈ mods, ∀ p ∈ m.moduleInit, lowercase p.1.bytes ≠ some w) ∧ cmds.find w = none := by
  by_cases hw : ∃ call ∈ log, lowercase call.1.cmdname.bytes = some w
  · obtain ⟨pre, call, post, rfl, -, hcall, hcases⟩ := last_call_decides hpath hdone hw
    rcases hcases with ⟨p, hp, hname, hfind⟩ | ⟨hnone, -⟩
    · have hmem : p ∈ registrations (pre ++ call :: post) :=
        List.mem_filterMap.2 ⟨call, by simp, hp⟩
      obtain ⟨m, hm, hpm⟩ := List.mem_flatMap.1 (hregs.mem_iff.1 hmem)
      exact .inl ⟨m, hm, p, hpm, hname ▸ hcall, hfind⟩
    · -- the last call would be a removal
      have hmem : call ∈ pre ++ call :: post := by simp
      cases hdone call hmem with
      | register => cases hnone
      | @unregister cmdname r =>
        have hremoval : cmdname ∈ removals (pre ++ (.unregister cmdname, r) :: post) :=
          List.mem_filterMap.2 ⟨_, hmem, rfl⟩
        rw [hremovals] at hremoval
        cases hremoval
  · have hnot : ∀ call ∈ log, lowercase call.1.cmdname.bytes ≠ some w := fun call hcall heq =>
      hw ⟨call, hcall, heq⟩
    refine .inr ⟨fun m hm p hp heq => ?_, ?_⟩
    · obtain ⟨call, hcall, -, hname⟩ := mem_of_mem_registrations
        (hregs.mem_iff.2 (List.mem_flatMap.2 ⟨m, hm, hp⟩))
      exact hnot call hcall (hname ▸ heq)
    · exact (hpath.frame (f := fun c => c.find w) (fun _ _ _ hne h => h.find_of_ne hne) hnot).trans
        (congrFun Trie.find_empty w)

/-- At a start, in whatever order the calls of the modules come: if every registration returns `0`,
a message leads to the handler of the module whose name is its first word, and to nothing if that is
the name of none of the modules loaded. -/
theorem shipped_startup (hone : cmdPrefix.length = 1)
    (h : runSteps (loaderStep modDir poolDetached) loaderInit acts = some (s, outs))
    (hdone : ∀ call ∈ callLog outs, call.Done) (hremovals : removals (callLog outs) = [])
    (hregs : (registrations (callLog outs)).Perm (mods.flatMap BotModule.moduleInit))
    {text : CString} (hlen : text.length ≠ 0) (sender target : CString) :
    (∀ m ∈ mods, ∀ p ∈ m.moduleInit, lowercase (firstWord text).bytes = lowercase p.1.bytes →
      modulesCheckCmd cmdPrefix s.cmds sender target (cmdPrefix ++ text) =
        some ⟨p.2, firstWord text, sender, target, afterWord text⟩) ∧
    ((∀ m ∈ mods, ¬ m.Owns (firstWord text)) →
      modulesCheckCmd cmdPrefix s.cmds sender target (cmdPrefix ++ text) = none) := by
  have hfind := find_of_registrations (loaderRun_cmds h) hdone hremovals hregs
  constructor
  · intro m hm p hp hname
    obtain ⟨w, hw⟩ := Option.isSome_iff_exists.1
      (shipped_words.1 p (List.mem_flatMap.2 ⟨m, mem_botModules m, hp⟩))
    have hbound : s.cmds.find w = some p.2 := by
      rcases hfind w with ⟨m', -, q, hq, hqw, hbound⟩ | ⟨hnone, -⟩
      · rw [hbound, eq_of_lowercase hq hp (hqw.trans hw.symm)]
      · exact absurd hw (hnone m hm p hp)
    have hword : lowercase (firstWord ((cmdPrefix ++ text).drop 1)).bytes = some w := by
      rw [drop_append_text hone]
      exact hname.trans hw
    rw [modulesCheckCmd_of_find hlen hword hbound, drop_append_text hone]
  · intro hnot
    rw [modulesCheckCmd_append, if_neg hlen, drop_append_text hone, CommandMap.dispatch]
    cases hw : lowercase (firstWord text).bytes with
    | none => rfl
    | some w =>
      rcases hfind w with ⟨m, hm, p, hp, hpw, -⟩ | ⟨-, hnone⟩
      · exact absurd ⟨p, hp, hw.trans hpw.symm⟩ (hnot m hm)
      · rw [Option.bind_some, hnone]
        rfl

/-- The commands of `bot_perms` and `bot_misc` after their start. -/
theorem shipped_startup_perms_misc : ∃ s outs,
    runSteps (loaderStep (CString.lit "modules/") poolDetached) loaderInit permsMiscStart =
        some (s, outs) ∧
      ∀ sender target, modulesCheckCmd (CString.lit ",") s.cmds sender target
          (CString.lit "," ++ CString.lit "GETP ann") =
        some ⟨.permsHandleCmd, firstWord (CString.lit "GETP ann"), sender, target,
          afterWord (CString.lit "GETP ann")⟩ := by
  obtain ⟨s, outs, hrun, hlog⟩ := permsMiscStart_log
  refine ⟨s, outs, hrun, fun sender target => ?_⟩
  have hdone : ∀ call ∈ callLog outs, call.Done := by
    rw [hlog]
    simp only [List.mem_cons, List.not_mem_nil, or_false]
    rintro call (rfl | rfl | rfl | rfl) <;> exact .register
  have hregs : (registrations (callLog outs)).Perm
      ([BotModule.perms, .misc].flatMap BotModule.moduleInit) := by
    rw [hlog]
    decide
  have hremovals : removals (callLog outs) = [] := by
    rw [hlog]
    rfl
  have hstart := shipped_startup (show (CString.lit ",").length = 1 by decide) hrun hdone hremovals hregs
    (show (CString.lit "GETP ann").length ≠ 0 by decide) sender target
  exact hstart.1 .perms (.head _) (CString.lit "getp", .permsHandleCmd) (by decide) (by decide)

end

end MinervaBot
