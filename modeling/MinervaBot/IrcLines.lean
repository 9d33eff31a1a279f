import MinervaBot.Irc
import MinervaBot.Lib.Framer
import Mathlib.Data.List.Chain
import Mathlib.Tactic.Tauto

/-!
# The lines that `irc_loop` handles

Seen through its lines, `irc_loop` is a framer with frames of at most 513 bytes, in which a byte is
marked if it is an LF whose predecessor is a CR in the same chunk (`ircLoop_tracks`). So it handles
exactly the lines of a stream as long as no chunk border falls between a CR and its LF, and
`ircLoop_lines_iff` says that it does so only then.
-/

namespace MinervaBot

open Lib

/-! ## The loop as a framer -/

/-- The bytes of the rest of a chunk, marked where `irc_loop` sees the end of a line. -/
def chunkMarks : (prev : Option UInt8) → (rbuf : List UInt8) → List (UInt8 × Bool)
  | _, [] => []
  | prev, c :: rbuf => (c, decide (prev = some 13 ∧ c = 10)) :: chunkMarks (some c) rbuf

/-- The state of `irc_loop` has handled the frames of a framer and holds its frame in progress. -/
structure LoopState.Tracks (s : LoopState) (f : Framer UInt8) : Prop where
  lines : s.lines = f.frames
  o : s.o = f.pending.length - 1
  room : f.pending.length ≤ 512
  buf : s.buf.HasBytes 0 f.pending

/-- On entry nothing has been handled. -/
theorem LoopState.init_tracks (buf nickbuf : Mem) : (init buf nickbuf).Tracks .init :=
  ⟨rfl, rfl, by simp [Framer.init], fun i hi => by simp [Framer.init] at hi⟩

/-- The bytes of a line are those that the memory has from index `0` on. -/
theorem lineBytes_eq {buf : Mem} {b : List UInt8} (h : buf.HasBytes 0 b) {o : Int}
    (ho : o + 1 = b.length) : lineBytes buf o = b := by
  have hmap := h.map_range
  simp only [Int.zero_add] at hmap
  rw [lineBytes, show (o + 1).toNat = b.length by omega]
  exact hmap

/-- A byte is fed to the framer. -/
theorem LoopState.Tracks.byte {s : LoopState} {f : Framer UInt8} (h : s.Tracks f)
    (prev : Option UInt8) (c : UInt8) :
    (ircByte prev c s).Tracks (f.feed 513 (c, decide (prev = some 13 ∧ c = 10))) := by
  have hbuf : (s.buf.write (s.o + 1) c).HasBytes 0 (f.pending ++ [c]) := by
    have hsnoc := h.buf.snoc c
    rwa [show (0 : Int) + f.pending.length = s.o + 1 by rw [h.o]; omega] at hsnoc
  have hlen : s.o + 1 + 1 = (f.pending ++ [c]).length := by
    rw [h.o]; simp
  have hmax : s.o + 1 = 512 ↔ f.pending.length + 1 = 513 := by
    rw [h.o]; omega
  unfold ircByte Framer.feed
  simp only [decide_eq_true_eq, hmax]
  split
  · refine ⟨?_, rfl, by simp, fun i hi => by simp at hi⟩
    simp only [h.lines, lineBytes_eq hbuf hlen]
  · next hend =>
    refine ⟨h.lines, by rw [← hlen]; simp, ?_, hbuf⟩
    have hroom := h.room
    simp only [List.length_append, List.length_singleton]
    omega

/-- A chunk is fed to the framer byte by byte. -/
theorem LoopState.Tracks.bytes (rbuf : List UInt8) : ∀ {s : LoopState} {f : Framer UInt8}
    (prev : Option UInt8), s.Tracks f →
      (ircBytes prev rbuf s).Tracks (f.run 513 (chunkMarks prev rbuf)) := by
  induction rbuf with
  | nil => exact fun _ h => h
  | cons c rbuf ih => exact fun prev h => ih (some c) (h.byte prev c)

/-- The loop feeds all chunks to the framer. -/
theorem ircLoop_tracks (chunks : List Chunk) : ∀ {s : LoopState} {f : Framer UInt8}, s.Tracks f →
    (ircLoop (received chunks) s).Tracks
      (f.run 513 (chunks.flatMap fun chunk => chunkMarks none chunk.rbuf)) := by
  induction chunks with
  | nil => exact fun h => h
  | cons chunk chunks ih =>
    intro s f h
    rw [List.flatMap_cons, Framer.run_append]
    exact ih (h.bytes chunk.rbuf none)

/-- A chunk behind other chunks. -/
theorem ircLoop_received_concat (chunks : List Chunk) (chunk : Chunk) : ∀ s : LoopState,
    ircLoop (received (chunks ++ [chunk])) s =
      ircLoop [(false, .data chunk)] (ircLoop (received chunks) s) := by
  induction chunks with
  | nil => exact fun s => rfl
  | cons c chunks ih => exact fun s => ih _

/-! ## Marks over chunk borders -/

/-- The bytes of a chunk, each with whether its predecessor is in the chunk. -/
def withBorder : List UInt8 → List (UInt8 × Bool)
  | [] => []
  | c :: rbuf => (c, false) :: rbuf.map (·, true)

/-- The marks of a stream whose bytes tell whether their predecessor is in the same chunk. -/
def streamMarks : (prev : UInt8) → List (UInt8 × Bool) → List (UInt8 × Bool)
  | _, [] => []
  | prev, (c, inside) :: l =>
    (c, inside && decide (prev = 13 ∧ c = 10)) :: streamMarks c l

/-- A chunk border between a CR and an LF. -/
def Splits : (prev : UInt8) → List (UInt8 × Bool) → Prop
  | _, [] => False
  | prev, (c, inside) :: l => (inside = false ∧ prev = 13 ∧ c = 10) ∨ Splits c l

/-- No border of the chunks falls between a CR and an LF. -/
def BordersOutside (chunks : List (List UInt8)) : Prop :=
  chunks.IsChain fun a b => ¬ (a.getLast? = some 13 ∧ b.head? = some 10)

/-- The marks of the chunks are marks of the stream. Induction on the chunks to come, and on the
rest of the current one. -/
theorem streamMarks_inside (chunks : List (List UInt8)) : ∀ (rbuf : List UInt8) (p : UInt8),
    streamMarks p (rbuf.map (·, true) ++ chunks.flatMap withBorder) =
      chunkMarks (some p) rbuf ++ chunks.flatMap (chunkMarks none) := by
  induction chunks with
  | nil =>
    intro rbuf
    induction rbuf with
    | nil => exact fun _ => rfl
    | cons c rbuf ih =>
      intro p
      simpa [streamMarks, chunkMarks] using ih c
  | cons chunk chunks ihc =>
    intro rbuf
    induction rbuf with
    | nil =>
      intro p
      cases chunk with
      | nil => simpa [withBorder, chunkMarks] using ihc [] p
      | cons c rbuf =>
        have hrest := ihc rbuf c
        simp only [List.flatMap_cons, withBorder, chunkMarks, List.map_nil, List.nil_append,
          List.cons_append, streamMarks, hrest]
        simp
    | cons c rbuf ih =>
      intro p
      have hrest := ih c
      simp only [List.map_cons, List.cons_append, streamMarks, chunkMarks, hrest]
      simp

/-- The borders of the chunks to come, seen from within a chunk. -/
theorem splits_inside (chunks : List (List UInt8)) (hne : ∀ c ∈ chunks, c ≠ []) :
    ∀ (rbuf : List UInt8) (p : UInt8),
      Splits p (rbuf.map (·, true) ++ chunks.flatMap withBorder) ↔
        ¬ BordersOutside ((p :: rbuf) :: chunks) := by
  induction chunks with
  | nil =>
    intro rbuf
    induction rbuf with
    | nil => simp [Splits, BordersOutside]
    | cons c rbuf ih =>
      intro p
      simpa [Splits, BordersOutside] using ih c
  | cons chunk chunks ihc =>
    have ihc := ihc fun c hc => hne c (.tail _ hc)
    intro rbuf
    induction rbuf with
    | nil =>
      intro p
      obtain ⟨c, rbuf, rfl⟩ := List.exists_cons_of_ne_nil (hne chunk (.head _))
      have hrest := ihc rbuf c
      simp only [List.flatMap_cons, withBorder, List.map_nil, List.nil_append, List.cons_append,
        Splits, hrest, BordersOutside, List.isChain_cons_cons]
      simp only [List.getLast?_singleton, Option.some.injEq, List.head?_cons, not_and, true_and]
      tauto
    | cons c rbuf ih =>
      intro p
      have hrest := ih c
      simp only [List.map_cons, List.cons_append, Splits, hrest, BordersOutside,
        List.isChain_cons_cons, List.getLast?_cons_cons]
      simp

/-- The marks of a connection. -/
theorem flatMap_chunkMarks (chunks : List (List UInt8)) :
    chunks.flatMap (chunkMarks none) = streamMarks 10 (chunks.flatMap withBorder) := by
  have h := streamMarks_inside chunks [] 10
  simpa [chunkMarks] using h.symm

/-- A connection has a border between a CR and an LF or not. -/
theorem splits_iff {chunks : List (List UInt8)} (hne : ∀ c ∈ chunks, c ≠ []) :
    Splits 10 (chunks.flatMap withBorder) ↔ ¬ BordersOutside chunks := by
  have h := splits_inside chunks hne [] 10
  rw [List.map_nil, List.nil_append] at h
  rw [h]
  cases chunks with
  | nil => simp [BordersOutside]
  | cons chunk chunks => simp [BordersOutside, List.isChain_cons_cons]

/-- The borders do not change the bytes. -/
theorem map_fst_withBorder (chunks : List (List UInt8)) :
    (chunks.flatMap withBorder).map (·.1) = chunks.flatten := by
  induction chunks with
  | nil => rfl
  | cons chunk chunks ih =>
    rw [List.flatMap_cons, List.map_append, ih, List.flatten_cons]
    cases chunk <;> simp [withBorder, Function.comp_def]

/-! ## Streams of lines -/

/-- No CR is followed by an LF. -/
def NoPair (line : List UInt8) : Prop :=
  line.IsChain fun a b => ¬ (a = 13 ∧ b = 10)

/-- A line with its CR LF. -/
def withCrLf (line : List UInt8) : List UInt8 :=
  line ++ [13, 10]

/-- Up to the CR of its end, a line has no marks; its LF is marked unless a border precedes it. -/
theorem streamMarks_line (l' : List (UInt8 × Bool)) (b b' : Bool) :
    ∀ (l : List (UInt8 × Bool)) (p : UInt8), NoPair (p :: l.map (·.1)) →
      streamMarks p (l ++ (13, b) :: (10, b') :: l') =
        l.map (fun x => (x.1, false)) ++ (13, false) :: (10, b') :: streamMarks 10 l' ∧
      (Splits p (l ++ (13, b) :: (10, b') :: l') ↔ b' = false ∨ Splits 10 l') := by
  intro l
  induction l with
  | nil =>
    intro p _
    simp [streamMarks, Splits]
  | cons x l ih =>
    intro p hpair
    obtain ⟨c, inside⟩ := x
    rw [NoPair, List.map_cons, List.isChain_cons_cons] at hpair
    obtain ⟨hne, hpair⟩ := hpair
    obtain ⟨hmarks, hsplits⟩ := ih c hpair
    constructor
    · simp only [List.cons_append, streamMarks, hmarks, List.map_cons]
      simp [hne]
    · simp only [List.cons_append, Splits, hsplits]
      tauto

/-- The marks of a stream of lines are those of segments, one a line, which are all marked if no
border falls between a CR and an LF. -/
theorem streamMarks_lines (lines : List (List UInt8)) (hpair : ∀ line ∈ lines, NoPair line) :
    ∀ l : List (UInt8 × Bool), l.map (·.1) = lines.flatMap withCrLf →
      ∃ ss : List (Segment UInt8), ss.map Segment.frame = lines.map withCrLf ∧
        streamMarks 10 l = ss.flatMap Segment.items ∧
        ((∀ s ∈ ss, s.marked = true) ↔ ¬ Splits 10 l) := by
  induction lines with
  | nil =>
    intro l hl
    obtain rfl : l = [] := by simpa using hl
    exact ⟨[], rfl, rfl, by simp [Splits]⟩
  | cons line lines ih =>
    intro l hl
    rw [List.flatMap_cons, withCrLf] at hl
    obtain ⟨l₁, l', rfl, hl₁, hl'⟩ := List.map_eq_append_iff.1 hl
    obtain ⟨lc, l₂, rfl, hlc, hl₂⟩ := List.map_eq_append_iff.1 hl₁
    obtain ⟨x, x', rfl⟩ := List.length_eq_two.1 (by simpa using congrArg List.length hl₂)
    obtain ⟨c, b⟩ := x
    obtain ⟨c', b'⟩ := x'
    obtain ⟨rfl, rfl⟩ : c = 13 ∧ c' = 10 := by simpa using hl₂
    obtain ⟨ss, hframes, hmarks, hsplits⟩ := ih (fun line hline => hpair line (.tail _ hline)) l' hl'
    have hchain : NoPair (10 :: lc.map (·.1)) := by
      rw [hlc]
      exact (hpair line (.head _)).cons fun _ _ h => absurd h.1 (by decide)
    obtain ⟨hline, hlineSplits⟩ := streamMarks_line l' b b' lc 10 hchain
    refine ⟨⟨line ++ [13], 10, b'⟩ :: ss, ?_, ?_, ?_⟩
    · simp [hframes, Segment.frame, withCrLf]
    · rw [List.append_assoc, List.cons_append, List.cons_append, List.nil_append, hline, hmarks,
        List.flatMap_cons, Segment.items, ← hlc]
      simp
    · rw [List.append_assoc, List.cons_append, List.cons_append, List.nil_append, hlineSplits]
      simp [hsplits]

/-! ## The lines handled -/

/-- For a stream of lines of at most 512 bytes, each with one CR LF at its end, and for every way of
cutting it into chunks: `irc_loop` handles exactly the lines of the stream if and only if no chunk
border falls between a CR and its LF. -/
theorem ircLoop_lines_iff (buf nickbuf : Mem) {lines : List (List UInt8)} {chunks : List Chunk}
    (hlen : ∀ line ∈ lines, (withCrLf line).length ≤ 512) (hpair : ∀ line ∈ lines, NoPair line)
    (hcut : (chunks.map (·.rbuf)).flatten = lines.flatMap withCrLf) :
    (ircLoop (received chunks) (.init buf nickbuf)).lines = lines.map withCrLf ↔
      BordersOutside (chunks.map (·.rbuf)) := by
  have htracks := ircLoop_tracks chunks (LoopState.init_tracks buf nickbuf)
  obtain ⟨ss, hframes, hmarks, hmarked⟩ := streamMarks_lines lines hpair
    ((chunks.map (·.rbuf)).flatMap withBorder) (by rw [map_fst_withBorder, hcut])
  have hchunks : chunks.flatMap (fun chunk => chunkMarks none chunk.rbuf) =
      ss.flatMap Segment.items := by
    rw [← hmarks, ← flatMap_chunkMarks, List.flatMap_map]
  have hroom : ∀ s ∈ ss, s.init.length + 1 < 513 := by
    intro s hs
    obtain ⟨line, hline, heq⟩ : ∃ line ∈ lines, withCrLf line = s.frame := by
      rw [← List.mem_map, ← hframes]
      exact List.mem_map_of_mem hs
    have hle := hlen line hline
    rw [heq, Segment.frame, List.length_append, List.length_singleton] at hle
    omega
  rw [htracks.lines, hchunks, ← hframes]
  have hrun := Framer.run_segments ss [] hroom
  rw [List.nil_append] at hrun
  rw [show (Framer.init : Framer UInt8) = ⟨[], []⟩ from rfl, hrun, hmarked, splits_iff, not_not]
  intro c hc
  obtain ⟨chunk, -, rfl⟩ := List.mem_map.1 hc
  exact chunk.nonempty

/-- Cut inside the text, the line `PING x` is handled. -/
theorem ircLoop_lines_iff_ping :
    (ircLoop (received [⟨[80, 73, 78], by decide, by decide⟩,
      ⟨[71, 32, 120, 13, 10], by decide, by decide⟩]) (.init (fun _ => 0) fun _ => 0)).lines =
        [[80, 73, 78, 71, 32, 120, 13, 10]] := by
  have hlen : ∀ line ∈ [[80, 73, 78, 71, 32, 120]], (withCrLf line).length ≤ 512 := by decide
  exact (ircLoop_lines_iff (fun _ => 0) (fun _ => 0) hlen (by simp [NoPair]) rfl).2
    (by simp [BordersOutside])

/-- Cut between its CR and its LF, the line `PING x` is not handled. -/
theorem ircLoop_split_border :
    ∃ chunks : List Chunk,
      (chunks.map (·.rbuf)).flatten = [[80, 73, 78, 71, 32, 120]].flatMap withCrLf ∧
      (ircLoop (received chunks) (.init (fun _ => 0) fun _ => 0)).lines = [] := by
  refine ⟨[⟨[80, 73, 78, 71, 32, 120, 13], by decide, by decide⟩,
    ⟨[10], by decide, by decide⟩], rfl, ?_⟩
  decide +kernel

end MinervaBot
