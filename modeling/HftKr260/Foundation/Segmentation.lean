import Mathlib.Data.List.Basic

/-!
# Length-prefixed streams

The segmentation of a stream whose segments announce their own length in their first
element: starting at the first element not yet consumed, a segment is as long as that
element says. `segment len` cuts a list greedily and returns the complete segments and
the incomplete rest.

A receiver that marks the last element of each segment emits `marked`; `cutAfter` cuts a
marked stream again.

## Main results

* `segment_eq` — the cut is the only one into complete segments and an incomplete rest
* `segment_concat_of_complete`, `segment_concat_of_incomplete` — one more element
* `cutAfter_marked` — cutting at the marks recovers the segments
-/

set_option autoImplicit false

namespace Foundation

namespace Segmentation

variable {α : Type*} {len : α → ℕ}

/-- A segment of exactly the length its first element announces. -/
def Complete (len : α → ℕ) (s : List α) : Prop := ∃ a t, s = a :: t ∧ s.length = len a

/-- A segment still shorter than its first element announces, possibly empty. -/
def Incomplete (len : α → ℕ) (s : List α) : Prop := ∀ a t, s = a :: t → s.length < len a

theorem Complete.ne_nil {s : List α} (h : Complete len s) : s ≠ [] := by
  obtain ⟨a, t, rfl, -⟩ := h
  exact List.cons_ne_nil a t

theorem incomplete_nil : Incomplete len ([] : List α) := by
  intro a t h
  exact absurd h (by simp)

/-- The greedy cut: complete segments and the rest. -/
def segment (len : α → ℕ) : List α → List (List α) × List α
  | [] => ([], [])
  | a :: l =>
      if l.length + 1 < len a then ([], a :: l)
      else
        ((a :: l.take (len a - 1)) :: (segment len (l.drop (len a - 1))).1,
          (segment len (l.drop (len a - 1))).2)
termination_by l => l.length
decreasing_by all_goals simp only [List.length_cons, List.length_drop]; omega

theorem segment_of_incomplete {l : List α} (h : Incomplete len l) : segment len l = ([], l) := by
  cases l with
  | nil => simp [segment]
  | cons a l =>
    have hlt : l.length + 1 < len a := h a l rfl
    simp [segment, hlt]

/-- A complete segment in front is cut off first. -/
theorem segment_append_of_complete {s : List α} (h : Complete len s) (l : List α) :
    segment len (s ++ l) = (s :: (segment len l).1, (segment len l).2) := by
  obtain ⟨a, t, rfl, hlen⟩ := h
  have ht : t.length = len a - 1 := by
    rw [List.length_cons] at hlen
    omega
  have hnot : ¬ (t ++ l).length + 1 < len a := by
    rw [List.length_cons] at hlen
    rw [List.length_append]
    omega
  -- the greedy cut takes exactly the elements of `s`
  rw [List.cons_append, segment, if_neg hnot, ← ht, List.take_left, List.drop_left]

/-- Complete segments in front are cut off first. -/
theorem segment_flatten_append {segs : List (List α)} (hsegs : ∀ s ∈ segs, Complete len s)
    (l : List α) :
    segment len (segs.flatten ++ l) = (segs ++ (segment len l).1, (segment len l).2) := by
  induction segs with
  | nil => rfl
  | cons s segs ih =>
    rw [List.flatten_cons, List.append_assoc,
      segment_append_of_complete (hsegs s List.mem_cons_self),
      ih fun s' hs' => hsegs s' (List.mem_cons_of_mem s hs')]
    rfl

/-- The cut of complete segments followed by an incomplete rest is the obvious one. -/
theorem segment_eq {segs : List (List α)} {rest : List α} (hsegs : ∀ s ∈ segs, Complete len s)
    (hrest : Incomplete len rest) : segment len (segs.flatten ++ rest) = (segs, rest) := by
  rw [segment_flatten_append hsegs, segment_of_incomplete hrest]
  simp

section Spec

variable (hlen : ∀ a, 0 < len a)
include hlen

/-- Every list is cut into complete segments and an incomplete rest. -/
theorem segment_spec (l : List α) :
    l = (segment len l).1.flatten ++ (segment len l).2 ∧
      (∀ s ∈ (segment len l).1, Complete len s) ∧ Incomplete len (segment len l).2 := by
  induction l using segment.induct len with
  | case1 => simp [segment, incomplete_nil]
  | case2 a l hlt =>
    rw [segment, if_pos hlt]
    refine ⟨rfl, by simp, fun a' t h => ?_⟩
    obtain ⟨rfl, rfl⟩ := List.cons.inj h
    exact hlt
  | case3 a l hge ih =>
    obtain ⟨hflat, hsegs, hrest⟩ := ih
    have hpos := hlen a
    rw [segment, if_neg hge]
    refine ⟨?_, ?_, hrest⟩
    · rw [List.flatten_cons, List.append_assoc, ← hflat, List.cons_append, List.take_append_drop]
    · intro s hs
      rcases List.mem_cons.mp hs with rfl | hs
      · refine ⟨a, _, rfl, ?_⟩
        rw [List.length_cons, List.length_take]
        omega
      · exact hsegs s hs

theorem segment_flatten (l : List α) : (segment len l).1.flatten ++ (segment len l).2 = l :=
  (segment_spec hlen l).1.symm

theorem complete_of_mem_segment {l s : List α} (h : s ∈ (segment len l).1) : Complete len s :=
  (segment_spec hlen l).2.1 s h

theorem incomplete_rest (l : List α) : Incomplete len (segment len l).2 :=
  (segment_spec hlen l).2.2

/-- What a prefix of a stream of segments is cut into are segments of the stream. -/
theorem segment_of_front {segs : List (List α)} (hsegs : ∀ s ∈ segs, Complete len s) {l : List α}
    (hl : l <+: segs.flatten) : (segment len l).1 <+: segs := by
  obtain ⟨rest, hrest⟩ := hl
  have hcut : segment len segs.flatten = (segs, []) := by
    have h : segment len (segs.flatten ++ []) = (segs, []) := segment_eq hsegs incomplete_nil
    rwa [List.append_nil] at h
  rw [← hrest, ← segment_flatten hlen l, List.append_assoc,
    segment_flatten_append fun s => complete_of_mem_segment hlen] at hcut
  exact ⟨_, congrArg Prod.fst hcut⟩

/-- One more element, which completes the open segment. -/
theorem segment_concat_of_complete {l : List α} {a : α}
    (h : Complete len ((segment len l).2 ++ [a])) :
    segment len (l ++ [a]) = ((segment len l).1 ++ [(segment len l).2 ++ [a]], []) := by
  -- the whole stream is now complete segments
  have hl : l ++ [a] = ((segment len l).1 ++ [(segment len l).2 ++ [a]]).flatten ++ [] := by
    conv_lhs => rw [← segment_flatten hlen l]
    simp
  rw [hl]
  refine segment_eq (fun s hs => ?_) incomplete_nil
  rcases List.mem_append.mp hs with hs | hs
  · exact complete_of_mem_segment hlen hs
  · rw [List.mem_singleton.mp hs]
    exact h

/-- One more element of the open segment. -/
theorem segment_concat_of_incomplete {l : List α} {a : α}
    (h : Incomplete len ((segment len l).2 ++ [a])) :
    segment len (l ++ [a]) = ((segment len l).1, (segment len l).2 ++ [a]) := by
  have hl : l ++ [a] = (segment len l).1.flatten ++ ((segment len l).2 ++ [a]) := by
    rw [← List.append_assoc, segment_flatten hlen l]
  rw [hl]
  exact segment_eq (fun s hs => complete_of_mem_segment hlen hs) h

/-- The open segment completed by one more element, or still open. -/
theorem complete_or_incomplete (l : List α) (a : α) :
    Complete len ((segment len l).2 ++ [a]) ∨ Incomplete len ((segment len l).2 ++ [a]) := by
  have hrest := incomplete_rest hlen l
  -- the open segment has a first element that announces its length, or there is none yet
  generalize (segment len l).2 = rest at hrest
  cases rest with
  | nil =>
    by_cases h : 1 = len a
    · exact Or.inl ⟨a, [], rfl, h⟩
    · refine Or.inr fun a' t ht => ?_
      obtain ⟨rfl, rfl⟩ := List.cons.inj ht
      have hpos := hlen a
      show 1 < len a
      omega
  | cons b rest =>
    have hlt := hrest b rest rfl
    by_cases h : rest.length + 2 = len b
    · exact Or.inl ⟨b, rest ++ [a], rfl, by simpa using h⟩
    · refine Or.inr fun a' t ht => ?_
      obtain ⟨rfl, rfl⟩ := List.cons.inj ht
      simp only [List.length_cons, List.length_append, List.length_nil] at hlt ⊢
      omega

end Spec

/-! ### Marks -/

/-- A complete segment with a mark on its last element. -/
def mark : List α → List (α × Bool)
  | [] => []
  | [a] => [(a, true)]
  | a :: b :: l => (a, false) :: mark (b :: l)

/-- The stream of a cut, with a mark on the last element of every segment. -/
def marked (cut : List (List α) × List α) : List (α × Bool) :=
  cut.1.flatMap mark ++ cut.2.map fun a => (a, false)

/-- Cut a marked stream after every mark. -/
def cutAfter : List (α × Bool) → List (List α) × List α
  | [] => ([], [])
  | (a, true) :: l => ([a] :: (cutAfter l).1, (cutAfter l).2)
  | (a, false) :: l =>
      match cutAfter l with
      | ([], rest) => ([], a :: rest)
      | (s :: segs, rest) => ((a :: s) :: segs, rest)

theorem mark_concat (l : List α) (a : α) :
    mark (l ++ [a]) = (l.map fun a => (a, false)) ++ [(a, true)] := by
  induction l with
  | nil => rfl
  | cons b l ih =>
    cases l with
    | nil => rfl
    | cons c l =>
      have htail : mark (b :: c :: l ++ [a]) = (b, false) :: mark (c :: l ++ [a]) := rfl
      rw [htail, ih]
      rfl

/-- One more element of a stream is marked when nothing is left open behind it. -/
theorem marked_segment_concat (hlen : ∀ a, 0 < len a) (l : List α) (a : α) :
    marked (segment len (l ++ [a])) =
      marked (segment len l) ++ [(a, (segment len (l ++ [a])).2.isEmpty)] := by
  rcases complete_or_incomplete hlen l a with h | h
  · rw [segment_concat_of_complete hlen h]
    simp [marked, mark_concat]
  · rw [segment_concat_of_incomplete hlen h]
    simp [marked]

/-- Without a mark nothing is cut. -/
theorem cutAfter_unmarked (l : List α) : cutAfter (l.map fun a => (a, false)) = ([], l) := by
  induction l with
  | nil => rfl
  | cons a l ih => simp [cutAfter, ih]

theorem cutAfter_mark_append {s : List α} (hs : s ≠ []) (l : List (α × Bool)) :
    cutAfter (mark s ++ l) = (s :: (cutAfter l).1, (cutAfter l).2) := by
  induction s using mark.induct with
  | case1 => exact absurd rfl hs
  | case2 a => rfl
  | case3 a b s ih =>
    rw [mark, List.cons_append, cutAfter, ih (List.cons_ne_nil b s)]

/-- A marked element behind a stream closes its rest. -/
theorem cutAfter_concat_true (l : List (α × Bool)) (a : α) :
    cutAfter (l ++ [(a, true)]) = ((cutAfter l).1 ++ [(cutAfter l).2 ++ [a]], []) := by
  induction l using cutAfter.induct with
  | case1 => rfl
  | case2 b l ih => simp [cutAfter, ih]
  | case3 b l rest hl ih => simp [cutAfter, ih, hl]
  | case4 b l s segs rest hl ih => simp [cutAfter, ih, hl]

/-- An unmarked element behind a stream extends its rest. -/
theorem cutAfter_concat_false (l : List (α × Bool)) (a : α) :
    cutAfter (l ++ [(a, false)]) = ((cutAfter l).1, (cutAfter l).2 ++ [a]) := by
  induction l using cutAfter.induct with
  | case1 => rfl
  | case2 b l ih => simp [cutAfter, ih]
  | case3 b l rest hl ih => simp [cutAfter, ih, hl]
  | case4 b l s segs rest hl ih => simp [cutAfter, ih, hl]

/-- A cut loses no element. -/
theorem cutAfter_flatten (l : List (α × Bool)) :
    (cutAfter l).1.flatten ++ (cutAfter l).2 = l.map Prod.fst := by
  induction l using cutAfter.induct with
  | case1 => rfl
  | case2 b l ih => simpa [cutAfter] using ih
  | case3 b l rest hl ih => simpa [cutAfter, hl] using ih
  | case4 b l s segs rest hl ih => simpa [cutAfter, hl] using ih

/-- Cutting after the marks recovers the segments and the rest. -/
theorem cutAfter_marked {cut : List (List α) × List α} (h : ∀ s ∈ cut.1, s ≠ []) :
    cutAfter (marked cut) = cut := by
  obtain ⟨segs, rest⟩ := cut
  simp only [marked] at h ⊢
  induction segs with
  | nil => exact cutAfter_unmarked rest
  | cons s segs ih =>
    rw [List.flatMap_cons, List.append_assoc, cutAfter_mark_append (h s List.mem_cons_self),
      ih fun s' hs' => h s' (List.mem_cons_of_mem s hs')]

end Segmentation

end Foundation
