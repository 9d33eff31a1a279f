import Mathlib.Data.List.Induction

/-!
# Framing

A framer collects items into frames. A frame is complete after a marked item, or when it has `max`
items. `Framer.run_segments` says when a stream made of segments comes out as exactly these
segments: when the last item of each of them is marked. Otherwise the first segment whose end is
missed is at best the beginning of a longer frame (`Framer.run_frames`).
-/

namespace Lib

variable {A : Type}

/-- The frames completed so far, and the items of the next one. -/
structure Framer (A : Type) where
  frames : List (List A)
  pending : List A

/-- No items yet. -/
def Framer.init : Framer A := ⟨[], []⟩

/-- Take an item, with its mark. -/
def Framer.feed (max : Nat) (f : Framer A) (x : A × Bool) : Framer A :=
  if x.2 = true ∨ f.pending.length + 1 = max then ⟨f.frames ++ [f.pending ++ [x.1]], []⟩
  else ⟨f.frames, f.pending ++ [x.1]⟩

/-- Take a list of items. -/
def Framer.run (max : Nat) (f : Framer A) (xs : List (A × Bool)) : Framer A :=
  xs.foldl (feed max) f

theorem Framer.run_append (max : Nat) (f : Framer A) (xs ys : List (A × Bool)) :
    f.run max (xs ++ ys) = (f.run max xs).run max ys :=
  List.foldl_append

/-- Unmarked items are collected as long as the frame has room. -/
theorem Framer.run_unmarked {max : Nat} (xs : List A) :
    ∀ f : Framer A, f.pending.length + xs.length < max →
      f.run max (xs.map (·, false)) = ⟨f.frames, f.pending ++ xs⟩ := by
  induction xs with
  | nil => intro f _; simp [run]
  | cons x xs ih =>
    intro f h
    rw [List.length_cons] at h
    have hfeed : f.feed max (x, false) = ⟨f.frames, f.pending ++ [x]⟩ := by
      rw [feed, if_neg (by simp; omega)]
    have hrun := ih ⟨f.frames, f.pending ++ [x]⟩ (by simp; omega)
    rw [List.map_cons, run, List.foldl_cons, hfeed]
    rw [run] at hrun
    rw [hrun, List.append_assoc]
    rfl

/-- Frames that are complete stay, and a frame in progress is completed with at least one more
item. -/
theorem Framer.run_frames (max : Nat) (xs : List (A × Bool)) : ∀ f : Framer A,
    (f.run max xs).frames = f.frames ∨
      ∃ g rest, (f.run max xs).frames = f.frames ++ g :: rest ∧
        f.pending.length < g.length := by
  induction xs with
  | nil => exact fun f => .inl rfl
  | cons x xs ih =>
    intro f
    rw [run, List.foldl_cons, ← run]
    by_cases h : x.2 = true ∨ f.pending.length + 1 = max
    · have hfeed : f.feed max x = ⟨f.frames ++ [f.pending ++ [x.1]], []⟩ := by
        rw [feed, if_pos h]
      rw [hfeed]
      rcases ih ⟨f.frames ++ [f.pending ++ [x.1]], []⟩ with hrun | ⟨g, rest, hrun, -⟩
      · exact .inr ⟨f.pending ++ [x.1], [], hrun, by simp⟩
      · exact .inr ⟨f.pending ++ [x.1], g :: rest, by simp [hrun], by simp⟩
    · have hfeed : f.feed max x = ⟨f.frames, f.pending ++ [x.1]⟩ := by
        rw [feed, if_neg h]
      rw [hfeed]
      rcases ih ⟨f.frames, f.pending ++ [x.1]⟩ with hrun | ⟨g, rest, hrun, hlen⟩
      · exact .inl hrun
      · exact .inr ⟨g, rest, hrun, by simp at hlen; omega⟩

/-- A segment of a stream: its items, of which only the last may be marked. -/
structure Segment (A : Type) where
  init : List A
  last : A
  marked : Bool

/-- The items of a segment. -/
def Segment.items (s : Segment A) : List (A × Bool) :=
  s.init.map (·, false) ++ [(s.last, s.marked)]

/-- The segment as a frame. -/
def Segment.frame (s : Segment A) : List A :=
  s.init ++ [s.last]

/-- A segment with room in a frame becomes a frame, or stays in progress if its end is not
marked. -/
theorem Framer.run_segment {max : Nat} {s : Segment A} (hlen : s.init.length + 1 < max)
    (fs : List (List A)) :
    run max ⟨fs, []⟩ s.items =
      if s.marked = true then ⟨fs ++ [s.frame], []⟩ else ⟨fs, s.frame⟩ := by
  rw [Segment.items, run_append, run_unmarked _ _ (by simp; omega), List.nil_append]
  show feed max ⟨fs, s.init⟩ (s.last, s.marked) = _
  rw [feed]
  cases s.marked with
  | true => simp [Segment.frame]
  | false =>
    rw [if_neg (by simp; omega)]
    rfl

/-- The frames of a stream of segments are these segments exactly if all of them are marked. -/
theorem Framer.run_segments {max : Nat} (ss : List (Segment A)) :
    ∀ fs : List (List A), (∀ s ∈ ss, s.init.length + 1 < max) →
      ((run max ⟨fs, []⟩ (ss.flatMap Segment.items)).frames = fs ++ ss.map Segment.frame ↔
        ∀ s ∈ ss, s.marked = true) := by
  induction ss with
  | nil => intro fs _; simp [run]
  | cons s ss ih =>
    intro fs hlen
    have hs := hlen s (.head _)
    rw [List.flatMap_cons, run_append, run_segment hs, List.map_cons]
    cases hmarked : s.marked with
    | true =>
      have hrest := ih (fs ++ [s.frame]) fun s' hs' => hlen s' (.tail _ hs')
      rw [List.append_assoc, List.singleton_append] at hrest
      simpa [hmarked] using hrest
    | false =>
      rw [if_neg (by simp)]
      -- The frame in progress is `s` already, so the next complete one is longer.
      rcases run_frames max (ss.flatMap Segment.items) ⟨fs, s.frame⟩ with
        hrun | ⟨g, rest, hrun, hg⟩
      · simp [hrun, hmarked]
      · constructor
        · intro h
          rw [hrun] at h
          obtain ⟨rfl, -⟩ := List.cons.inj (List.append_cancel_left h)
          exact absurd hg (by simp)
        · intro h
          have := h s (.head _)
          rw [hmarked] at this
          cases this

/-! ## Frames shorter than the maximum -/

/-- Among any `max` consecutive items one before the last is marked. -/
def MarkedWithin (max : Nat) (xs : List (A × Bool)) : Prop :=
  ∀ pre w x post, xs = pre ++ (w ++ x :: post) → w.length + 1 = max → ∃ y ∈ w, y.2 = true

/-- The frames that are complete stay complete. -/
theorem Framer.frames_subset (max : Nat) (f : Framer A) (xs : List (A × Bool)) :
    ∀ g ∈ f.frames, g ∈ (f.run max xs).frames := by
  intro g hg
  rcases run_frames max xs f with h | ⟨g', rest, h, -⟩ <;> simp [h, hg]

/-- The frame in progress is made of the last items, none of them marked. Induction on the items
from the end. -/
theorem Framer.run_pending (max : Nat) (xs : List (A × Bool)) :
    ∃ pre w, xs = pre ++ w ∧ w.map Prod.fst = (run max init xs).pending ∧
      ∀ y ∈ w, y.2 = false := by
  induction xs using List.reverseRecOn with
  | nil => exact ⟨[], [], rfl, rfl, by simp⟩
  | append_singleton xs x ih =>
    obtain ⟨pre, w, hxs, hw, hmarks⟩ := ih
    rw [run_append]
    show ∃ pre' w', xs ++ [x] = pre' ++ w' ∧
      w'.map Prod.fst = ((run max init xs).feed max x).pending ∧ ∀ y ∈ w', y.2 = false
    rw [feed]
    split
    · exact ⟨xs ++ [x], [], by simp, rfl, by simp⟩
    · next hend =>
      refine ⟨pre, w ++ [x], by rw [hxs, List.append_assoc], by rw [List.map_append, hw]; rfl, ?_⟩
      intro y hy
      rcases List.mem_append.1 hy with hy | hy
      · exact hmarks y hy
      · obtain rfl := List.mem_singleton.1 hy
        simpa using fun h => hend (.inl h)

/-- Unmarked items up to one before the maximum, and any item then, make a frame. -/
theorem Framer.frame_of_unmarked {max : Nat} {f : Framer A} {w : List (A × Bool)}
    (hmarks : ∀ y ∈ w, y.2 = false) (hlen : f.pending.length + w.length + 1 = max)
    (x : A × Bool) (post : List (A × Bool)) :
    ∃ g ∈ (f.run max (w ++ x :: post)).frames, g.length = max := by
  have hw : w = (w.map Prod.fst).map (·, false) := by
    rw [List.map_map]
    refine (List.map_id w).symm.trans (List.map_congr_left fun y hy => ?_)
    exact Prod.ext rfl (hmarks y hy)
  have hrun : f.run max w = ⟨f.frames, f.pending ++ w.map Prod.fst⟩ := by
    rw [hw, run_unmarked _ _ (by simp; omega), ← hw]
  rw [run_append, hrun]
  have hfull : (f.pending ++ w.map Prod.fst).length + 1 = max := by
    simpa using hlen
  refine ⟨f.pending ++ w.map Prod.fst ++ [x.1], ?_, by simpa [Nat.add_assoc] using hfull⟩
  show _ ∈ ((feed max ⟨f.frames, f.pending ++ w.map Prod.fst⟩ x).run max post).frames
  refine frames_subset max _ post _ ?_
  rw [feed, if_pos (.inr hfull)]
  simp

/-- A window without marks before its last item makes a frame as long as the maximum: one that is in
progress when the window begins, or one that begins there. -/
theorem Framer.exists_full {max : Nat} {f : Framer A} (hf : f.pending.length < max)
    {w : List (A × Bool)} {x : A × Bool} (hlen : w.length + 1 = max)
    (hmarks : ∀ y ∈ w, y.2 = false) (post : List (A × Bool)) :
    ∃ g ∈ (f.run max (w ++ x :: post)).frames, g.length = max := by
  have htake : f.pending.length + (w.take (max - 1 - f.pending.length)).length + 1 = max := by
    rw [List.length_take]
    omega
  have hmarks' : ∀ y ∈ w.take (max - 1 - f.pending.length), y.2 = false :=
    fun y hy => hmarks y (List.mem_of_mem_take hy)
  rw [← List.take_append_drop (max - 1 - f.pending.length) w, List.append_assoc]
  cases w.drop (max - 1 - f.pending.length) with
  | nil => exact frame_of_unmarked hmarks' htake x post
  | cons z r => exact frame_of_unmarked hmarks' htake z (r ++ x :: post)

/-- There is always room for another item. -/
theorem Framer.length_pending_lt {max : Nat} (hmax : 0 < max) (xs : List (A × Bool)) :
    (run max init xs).pending.length < max := by
  induction xs using List.reverseRecOn with
  | nil => exact hmax
  | append_singleton xs x ih =>
    rw [run_append]
    show ((run max init xs).feed max x).pending.length < max
    rw [feed]
    split
    · exact hmax
    · next hend =>
      simp only [List.length_append, List.length_singleton]
      omega

/-- All frames are shorter than the maximum exactly if marks come within it. -/
theorem Framer.frames_short_iff {max : Nat} (hmax : 0 < max) (xs : List (A × Bool)) :
    (∀ g ∈ (run max init xs).frames, g.length < max) ↔ MarkedWithin max xs := by
  constructor
  · intro hshort pre w x post hxs hlen
    by_contra hnone
    have hmarks : ∀ y ∈ w, y.2 = false := fun y hy => by
      simpa using fun h => hnone ⟨y, hy, h⟩
    obtain ⟨g, hg, hfull⟩ := exists_full (length_pending_lt hmax pre) hlen hmarks post
    rw [← run_append, ← hxs] at hg
    exact absurd (hshort g hg) (by omega)
  · intro hmarked
    induction xs using List.reverseRecOn with
    | nil => intro g hg; cases hg
    | append_singleton xs x ih =>
      have ih := ih fun pre w y post hxs => hmarked pre w y (post ++ [x]) (by simp [hxs])
      obtain ⟨pre, w, hxs, hw, hmarks⟩ := run_pending max xs
      rw [run_append]
      show ∀ g ∈ ((run max init xs).feed max x).frames, g.length < max
      rw [feed]
      split
      · next hend =>
        intro g hg
        rcases List.mem_append.1 hg with hg | hg
        · exact ih g hg
        · obtain rfl := List.mem_singleton.1 hg
          have hlt := length_pending_lt hmax xs
          rw [List.length_append, List.length_singleton]
          by_contra hfull
          have hlen : w.length = (run max init xs).pending.length := by
            rw [← hw, List.length_map]
          obtain ⟨y, hy, hmark⟩ := hmarked pre w x [] (by rw [hxs, List.append_assoc]) (by omega)
          rw [hmarks y hy] at hmark
          cases hmark
      · exact ih

end Lib
