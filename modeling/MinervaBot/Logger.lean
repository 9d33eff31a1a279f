import MinervaBot.Lib.CString
import MinervaBot.Lib.Critical

/-!
# The log

`logger_log` of `logger.c` writes a line to `stderr` with three calls of stdio, and holds
`logger_mutex` meanwhile; the time is taken and formatted before. A thread in `logger_log` is a
writer of `MinervaBot.Lib.Critical` whose message is a `LogRecord`. A thread may be stopped inside:
a fault in `vfprintf` jumps out of the call, and nobody gives the lock back.

`stderr_whole_lines` and `stderr_reads_back` say what the calls of any number of threads leave on
`stderr`, and `timestamp_fits` that the time never leaves `timestamp_buf`.
-/

namespace MinervaBot

open Lib

/-- `enum logger_level`, with the numbers that it does not name. -/
inductive LoggerLevel where
  | info
  | warn
  | error
  | other
  deriving DecidableEq

/-- `logger_str`. -/
def loggerStr : LoggerLevel → CString
  | .info => CString.lit "[\x1b[34mINFO\x1b[0m] "
  | .warn => CString.lit "[\x1b[33mWARN\x1b[0m] "
  | .error => CString.lit "[\x1b[31mERR \x1b[0m] "
  | .other => CString.lit ""

/-- The fields of a `struct tm` that are printed, as `localtime` sets them for a time whose year is
an `int`. -/
structure Tm where
  tmYear : Int
  tmMon : Int
  tmMday : Int
  tmHour : Int
  tmMin : Int
  tmSec : Int
  year_range : -2 ^ 31 ≤ tmYear + 1900 ∧ tmYear + 1900 < 2 ^ 31
  mon_range : 0 ≤ tmMon ∧ tmMon ≤ 11
  mday_range : 1 ≤ tmMday ∧ tmMday ≤ 31
  hour_range : 0 ≤ tmHour ∧ tmHour ≤ 23
  min_range : 0 ≤ tmMin ∧ tmMin ≤ 59
  sec_range : 0 ≤ tmSec ∧ tmSec ≤ 60

/-- The decimal digits of a number. -/
def decimal (n : Nat) : List UInt8 :=
  (Nat.toDigits 10 n).map Char.toUInt8

/-- What `printf` writes for `%0*d`, with the width `w`. -/
def padded (w : Nat) (n : Int) : CString :=
  let sign : List UInt8 := if n < 0 then [45] else []
  let digits := decimal n.natAbs
  CString.ofBytes (sign ++ List.replicate (w - (sign.length + digits.length)) 48 ++ digits)

/-- What `logger_log` formats into `timestamp_buf`. -/
def timestamp (tm : Tm) : CString :=
  padded 4 (tm.tmYear + 1900) ++ CString.lit "-" ++ padded 2 (tm.tmMon + 1) ++ CString.lit "-" ++
    padded 2 tm.tmMday ++ CString.lit " " ++ padded 2 tm.tmHour ++ CString.lit ":" ++
    padded 2 tm.tmMin ++ CString.lit ":" ++ padded 2 tm.tmSec

/-- A call of `logger_log`: the time it takes, its arguments, and the text that the format expands
to. -/
structure LogRecord where
  tm : Tm
  level : LoggerLevel
  module' : CString
  text : CString

/-- What the first of the three calls writes. -/
def LogRecord.header (r : LogRecord) : CString :=
  CString.lit "[" ++ timestamp r.tm ++ CString.lit "]" ++ loggerStr r.level ++ CString.lit "[" ++
    r.module' ++ CString.lit "] "

/-- What `fprintf`, `vfprintf` and `fprintf` write in a call of `logger_log`. -/
def LogRecord.writes (r : LogRecord) : List CString :=
  [r.header, r.text, CString.lit "\n"]

/-- The line of a call, without its line break. -/
def LogRecord.line (r : LogRecord) : List UInt8 :=
  r.header.bytes ++ r.text.bytes

/-- A step of a thread in `logger_log`: it gets the lock, makes the next of the three calls, gives
the lock back, or is stopped. A thread is stopped only between the calls: one of `stdio` that has
begun comes to its end. -/
def loggerStep {T : Type} [DecidableEq T] (s : Writers T LogRecord CString) :
    WriterAct T LogRecord → Option (Writers T LogRecord CString × Unit) :=
  writerStep LogRecord.writes s

/-- The bytes that `logger_log` has written to `stderr`. -/
def stderrBytes {T : Type} (s : Writers T LogRecord CString) : List UInt8 :=
  s.stream.flatMap CString.bytes

/-- The calls of `logger_log` that got the lock, in this order. -/
def logged {T : Type} (acts : List (WriterAct T LogRecord)) : List LogRecord :=
  acts.filterMap WriterAct.entered

/-! ## Numbers -/

/-- A number in decimal consists of digits. -/
theorem decimal_digits {n : Nat} : ∀ c ∈ decimal n, 48 ≤ c ∧ c ≤ 57 := by
  intro c hc
  obtain ⟨d, hd, rfl⟩ := List.mem_map.1 hc
  have hdigit : d.isDigit = true := Nat.isDigit_of_mem_toDigits (by decide) (by decide) hd
  simp only [Char.isDigit, Bool.and_eq_true, decide_eq_true_eq] at hdigit
  have hlo : 48 ≤ d.toNat := by simpa using UInt32.le_iff_toNat_le.1 hdigit.1
  have hhi : d.toNat ≤ 57 := by simpa using UInt32.le_iff_toNat_le.1 hdigit.2
  have htoNat : d.toUInt8.toNat = d.toNat := by
    rw [Char.toUInt8, UInt32.toNat_toUInt8]
    exact Nat.mod_eq_of_lt (Nat.lt_of_le_of_lt hhi (by decide))
  rw [UInt8.le_iff_toNat_le, UInt8.le_iff_toNat_le, htoNat]
  exact ⟨hlo, hhi⟩

/-- A number below a power of ten has few digits. -/
theorem length_decimal_le {n k : Nat} (hk : 0 < k) (h : n < 10 ^ k) : (decimal n).length ≤ k := by
  rw [decimal, List.length_map]
  exact (Nat.length_toDigits_le_iff (by decide) hk).2 h

/-- The bytes of a padded number are a sign, zeros and digits. -/
theorem bytes_padded (w : Nat) (n : Int) :
    (padded w n).bytes = (if n < 0 then [45] else []) ++
      List.replicate (w - ((if n < 0 then [45] else [] : List UInt8).length +
        (decimal n.natAbs).length)) 48 ++ decimal n.natAbs := by
  refine CString.bytes_ofBytes fun h0 => ?_
  rcases List.mem_append.1 h0 with h0 | h0
  · rcases List.mem_append.1 h0 with h0 | h0
    · split at h0
      · exact absurd (List.mem_singleton.1 h0) (by decide)
      · cases h0
    · exact absurd (List.eq_of_mem_replicate h0) (by decide)
  · exact absurd (decimal_digits 0 h0).1 (by decide)

/-- A padded number takes its width, or what its sign and its digits take. -/
theorem length_padded_le {w k : Nat} {n : Int} (hk : 0 < k) (h : n.natAbs < 10 ^ k) :
    (padded w n).length ≤ max w (k + if n < 0 then 1 else 0) := by
  have hdigits := length_decimal_le hk h
  rw [CString.length, bytes_padded]
  split <;> simp only [List.length_append, List.length_replicate, List.length_cons,
    List.length_nil] <;> omega

/-- A number of two digits takes two bytes. -/
theorem length_padded_two {n : Int} (hlo : 0 ≤ n) (hhi : n < 100) : (padded 2 n).length ≤ 2 := by
  have h := length_padded_le (w := 2) (k := 2) (n := n) (by decide) (by omega)
  rw [if_neg (Int.not_lt.2 hlo)] at h
  exact h

/-- Whatever time `localtime` gives, its text takes at most 26 bytes, and with its terminator stays
within the 32 bytes of `timestamp_buf`. -/
theorem timestamp_fits (tm : Tm) : (timestamp tm).length + 1 ≤ 32 := by
  have hdash : (CString.lit "-").length = 1 := by decide
  have hblank : (CString.lit " ").length = 1 := by decide
  have hcolon : (CString.lit ":").length = 1 := by decide
  have hyear : (padded 4 (tm.tmYear + 1900)).length ≤ 11 := by
    have hrange := tm.year_range
    have h := length_padded_le (w := 4) (k := 10) (n := tm.tmYear + 1900) (by decide) (by omega)
    refine h.trans ?_
    split <;> decide
  have hmon := length_padded_two (n := tm.tmMon + 1) (by have := tm.mon_range; omega)
    (by have := tm.mon_range; omega)
  have hmday := length_padded_two (n := tm.tmMday) (by have := tm.mday_range; omega)
    (by have := tm.mday_range; omega)
  have hhour := length_padded_two tm.hour_range.1 (by have := tm.hour_range; omega)
  have hmin := length_padded_two tm.min_range.1 (by have := tm.min_range; omega)
  have hsec := length_padded_two tm.sec_range.1 (by have := tm.sec_range; omega)
  simp only [timestamp, CString.length_append, hdash, hblank, hcolon]
  omega

/-- Noon of the first day of 2024. -/
def noon : Tm where
  tmYear := 124
  tmMon := 0
  tmMday := 1
  tmHour := 12
  tmMin := 0
  tmSec := 0
  year_range := by decide
  mon_range := by decide
  mday_range := by decide
  hour_range := by decide
  min_range := by decide
  sec_range := by decide

example : (timestamp noon).bytes = (CString.lit "2024-01-01 12:00:00").bytes := by decide

/-! ## Lines -/

/-- The pieces of a record make its line. -/
theorem LogRecord.bytes_writes (r : LogRecord) :
    r.writes.flatMap CString.bytes = r.line ++ [10] := by
  have hbreak : (CString.lit "\n").bytes = [10] := by decide
  simp [writes, line, hbreak]

/-- The bytes of whole records are their lines. -/
theorem bytes_flatMap_writes (rs : List LogRecord) :
    (rs.flatMap LogRecord.writes).flatMap CString.bytes = rs.flatMap fun r => r.line ++ [10] := by
  rw [List.flatMap_assoc]
  exact congrArg (rs.flatMap ·) (funext LogRecord.bytes_writes)

/-- The first of the writes of a record are the first bytes of its line. -/
theorem LogRecord.bytes_prefix {r : LogRecord} {written : List CString} (h : written <+: r.writes) :
    written.flatMap CString.bytes <+: r.line ++ [10] := by
  obtain ⟨rest, hrest⟩ := h
  rw [← r.bytes_writes, ← hrest, List.flatMap_append]
  exact List.prefix_append _ _

section
variable {T : Type} [DecidableEq T] {acts : List (WriterAct T LogRecord)} {os : List Unit}
  {s : Writers T LogRecord CString}

/-- Whatever the threads do in which order, and wherever they are stopped, `logger_log` has written
the whole lines of the calls that got the lock, in this order and each without anything in between,
and of the last one possibly only a first part. It is whole if nobody has the lock. -/
theorem stderr_whole_lines (h : runSteps loggerStep Writers.init acts = some (s, os)) :
    (s.owner = none ∧ stderrBytes s = (logged acts).flatMap fun r => r.line ++ [10]) ∨
      s.owner ≠ none ∧ ∃ done r part, logged acts = done ++ [r] ∧ part <+: r.line ++ [10] ∧
        stderrBytes s = (done.flatMap fun r => r.line ++ [10]) ++ part := by
  rcases runWriters_stream h with
    ⟨howner, hstream⟩ | ⟨howner, done, r, written, hcalls, hpart, hstream⟩
  · refine .inl ⟨howner, ?_⟩
    rw [stderrBytes, hstream, bytes_flatMap_writes]
    rfl
  · refine .inr ⟨howner, done, r, _, hcalls, r.bytes_prefix hpart, ?_⟩
    rw [stderrBytes, hstream, List.flatMap_append, bytes_flatMap_writes]

/-- Two threads log a line each; the second is stopped behind its first write. -/
def twoThreads : List (WriterAct Bool LogRecord) :=
  [.enter false ⟨noon, .info, CString.lit "main", CString.lit "cleaning up..."⟩, .write false,
    .write false, .write false, .leave false,
    .enter true ⟨noon, .warn, CString.lit "net", CString.lit "hi"⟩, .write true, .stop true]

/-- Two threads log a line each. -/
theorem stderr_whole_lines_two : ∃ s os,
    runSteps loggerStep (Writers.init (T := Bool)) twoThreads = some (s, os) ∧
      ((s.owner = none ∧ stderrBytes s = (logged twoThreads).flatMap fun r => r.line ++ [10]) ∨
        s.owner ≠ none ∧ ∃ done r part, logged twoThreads = done ++ [r] ∧ part <+: r.line ++ [10] ∧
          stderrBytes s = (done.flatMap fun r => r.line ++ [10]) ++ part) :=
  ⟨_, _, rfl, stderr_whole_lines rfl⟩

/-- Once a thread is stopped in `logger_log` while it has the lock, no call writes anything any
more, and none gets the lock. -/
theorem nothing_logged_after_fault (h : runSteps loggerStep Writers.init acts = some (s, os)) {t : T}
    (howner : s.owner = some t) (hstopped : s.pc t = .stopped) {acts' : List (WriterAct T LogRecord)}
    {s' : Writers T LogRecord CString} {os' : List Unit}
    (h' : runSteps loggerStep s acts' = some (s', os')) :
    stderrBytes s' = stderrBytes s ∧ logged acts' = [] := by
  have hserial : s.Serial LogRecord.writes :=
    runSteps_preserves (P := Writers.Serial LogRecord.writes) (fun _ _ _ _ h hs => h.step hs)
      Writers.init_serial h
  obtain ⟨hstream, hbegun⟩ := Writers.Stuck.run ⟨t, howner, hstopped⟩ hserial h'
  refine ⟨by rw [stderrBytes, hstream, stderrBytes], ?_⟩
  have hlogged := runWriters_begun h'
  rw [hbegun] at hlogged
  exact List.self_eq_append_right.1 hlogged

/-- Nothing is logged after the fault of the second thread. -/
theorem nothing_logged_after_fault_two : ∃ s os s' os',
    runSteps loggerStep (Writers.init (T := Bool)) twoThreads = some (s, os) ∧
      runSteps loggerStep s [.stop false] = some (s', os') ∧ stderrBytes s' = stderrBytes s ∧
      logged ([.stop false] : List (WriterAct Bool LogRecord)) = [] := by
  refine ⟨_, _, _, _, rfl, rfl, ?_⟩
  have hrun : runSteps loggerStep (Writers.init (T := Bool)) twoThreads = some _ := rfl
  exact nothing_logged_after_fault hrun (t := true) rfl rfl rfl

/-- Neither the module nor the text has a line break. -/
def LogRecord.OneLine (r : LogRecord) : Prop :=
  10 ∉ r.module'.bytes ∧ 10 ∉ r.text.bytes

instance (r : LogRecord) : Decidable r.OneLine :=
  inferInstanceAs (Decidable (_ ∧ _))

/-- A padded number has no line end. -/
theorem not_mem_padded {w : Nat} {n : Int} : 10 ∉ (padded w n).bytes := by
  rw [bytes_padded]
  intro h
  rcases List.mem_append.1 h with h | h
  · rcases List.mem_append.1 h with h | h
    · split at h
      · exact absurd (List.mem_singleton.1 h) (by decide)
      · cases h
    · exact absurd (List.eq_of_mem_replicate h) (by decide)
  · exact absurd (decimal_digits 10 h).1 (by decide)

/-- The line of a call whose arguments have no line break has none. -/
theorem LogRecord.OneLine.not_mem_line {r : LogRecord} (h : r.OneLine) : 10 ∉ r.line := by
  have hopen : 10 ∉ (CString.lit "[").bytes := by decide
  have hclose : 10 ∉ (CString.lit "]").bytes := by decide
  have hend : 10 ∉ (CString.lit "] ").bytes := by decide
  have hdash : 10 ∉ (CString.lit "-").bytes := by decide
  have hblank : 10 ∉ (CString.lit " ").bytes := by decide
  have hcolon : 10 ∉ (CString.lit ":").bytes := by decide
  have hlevel : 10 ∉ (loggerStr r.level).bytes := by cases r.level <;> decide
  simp only [line, header, timestamp, CString.bytes_append, List.mem_append, hopen, hclose, hend,
    hdash, hblank, hcolon, hlevel, not_mem_padded, h.1, h.2, or_self, not_false_eq_true]

/-- Lines without line break, and a rest without one, are found again between the line breaks. -/
theorem splitOn_lines {lines : List (List UInt8)} {part : List UInt8} (h : ∀ l ∈ lines, 10 ∉ l)
    (hpart : 10 ∉ part) :
    ((lines.flatMap fun l => l ++ [10]) ++ part).splitOn 10 = lines ++ [part] := by
  have hjoin : (lines.flatMap fun l => l ++ [10]) ++ part =
      [10].intercalate (lines ++ [part]) := by
    clear h
    induction lines with
    | nil => simp [List.intercalate]
    | cons l lines ih =>
      rw [List.flatMap_cons, List.append_assoc, ih]
      cases lines with
      | nil => simp [List.intercalate]
      | cons l' lines => simp [List.intercalate]
  rw [hjoin]
  refine List.splitOn_intercalate 10 (fun l hl => ?_) (by simp)
  rcases List.mem_append.1 hl with hl | hl
  · exact h l hl
  · rwa [List.mem_singleton.1 hl]

/-- If no call is given a line break, the text between the line breaks of `stderr` is, line by line,
what the calls have logged in the order in which they got the lock; behind the last line break
stands the first part of at most one further line, and nothing if nobody has the lock. -/
theorem stderr_reads_back (h : runSteps loggerStep Writers.init acts = some (s, os))
    (hone : ∀ r ∈ logged acts, r.OneLine) :
    ∃ shown rest part, logged acts = shown ++ rest ∧ rest.length ≤ 1 ∧
      (stderrBytes s).splitOn 10 = shown.map LogRecord.line ++ [part] ∧
      (∀ r ∈ rest, part <+: r.line) ∧ (rest = [] → part = []) ∧ (s.owner = none → rest = []) := by
  have hline : ∀ shown : List LogRecord, shown <+: logged acts →
      ∀ l ∈ shown.map LogRecord.line, 10 ∉ l := by
    intro shown hpre l hl
    obtain ⟨r, hr, rfl⟩ := List.mem_map.1 hl
    exact (hone r (hpre.subset hr)).not_mem_line
  have hflat : ∀ shown : List LogRecord, (shown.flatMap fun r => r.line ++ [10]) =
      (shown.map LogRecord.line).flatMap fun l => l ++ [10] := fun shown => by
    rw [List.flatMap_map]
  -- without a part of a line all lines are shown
  have hwhole : stderrBytes s = ((logged acts).flatMap fun r => r.line ++ [10]) →
      (stderrBytes s).splitOn 10 = (logged acts).map LogRecord.line ++ [[]] := by
    intro hbytes
    rw [hbytes, hflat, ← splitOn_lines (hline _ (List.prefix_refl _)) List.not_mem_nil,
      List.append_nil]
  rcases stderr_whole_lines h with ⟨howner, hbytes⟩ | ⟨howner, done, r, part, hcalls, hpart, hbytes⟩
  · exact ⟨_, [], [], (List.append_nil _).symm, Nat.zero_le _, hwhole hbytes,
      List.forall_mem_nil _, fun _ => rfl, fun _ => rfl⟩
  · rcases List.prefix_concat_iff.1 hpart with rfl | hpart
    · refine ⟨_, [], [], (List.append_nil _).symm, Nat.zero_le _, hwhole ?_,
        List.forall_mem_nil _, fun _ => rfl, fun _ => rfl⟩
      rw [hbytes, hcalls, List.flatMap_append, List.flatMap_singleton]
    · have hr : 10 ∉ r.line := (hone r (by simp [hcalls])).not_mem_line
      refine ⟨done, [r], part, hcalls, Nat.le_refl _, ?_, ?_, fun h => ?_, fun h => ?_⟩
      · rw [hbytes, hflat]
        exact splitOn_lines (hline _ (by simp [hcalls])) fun h => hr (hpart.subset h)
      · simpa using hpart
      · cases h
      · exact absurd h howner

/-- The lines of two threads are read back. -/
theorem stderr_reads_back_two : ∃ s os,
    runSteps loggerStep (Writers.init (T := Bool)) twoThreads = some (s, os) ∧
      ∃ shown rest part, logged twoThreads = shown ++ rest ∧ rest.length ≤ 1 ∧
        (stderrBytes s).splitOn 10 = shown.map LogRecord.line ++ [part] ∧
        (∀ r ∈ rest, part <+: r.line) ∧ (rest = [] → part = []) ∧ (s.owner = none → rest = []) :=
  ⟨_, _, rfl, stderr_reads_back rfl (by decide)⟩

end

end MinervaBot
