import ShaderGraph.Timeline.Exact
import ShaderGraph.Timeline.Lane
import Mathlib.Algebra.Order.Field.Rat
import Mathlib.Data.List.Pairwise
import Mathlib.Tactic.Linarith
import Mathlib.Tactic.Ring

/-!
# Sampling a curve

Over exact numbers, the segments of sorted keys follow each other. From the first key on, the first
segment that ends after a time also starts before it, so it is the segment that covers the time, and
no other one does. Segments without length are never found.

A sample of a curve is the value of its first key up to that key, the value of the segment that
covers the time, and the value of its last key where there is none (`Curve.sample_eq`).
-/

namespace ShaderGraph

variable {time : Rat} {interpolation : Interpolation}

/-! ## Values on a segment -/

/-- The cubic over exact numbers. -/
theorem hermite_eq (v0 v1 m0 m1 s : Rat) : hermite v0 v1 m0 m1 s =
    (2 * s ^ 3 - 3 * s ^ 2 + 1) * v0 + (s ^ 3 - 2 * s ^ 2 + s) * m0
      + (-2 * s ^ 3 + 3 * s ^ 2) * v1 + (s ^ 3 - s ^ 2) * m1 := by
  simp only [hermite, Scalar.ofNat_rat, Nat.cast_ofNat, Nat.cast_one]
  ring

namespace Segment

variable {g : Segment Rat}

/-- The value of a segment a share of the way through. -/
def point (g : Segment Rat) (interpolation : Interpolation) (s : Rat) : Rat :=
  match interpolation with
  | .stepped => g.start.value
  | .linear => g.start.value + (g.stop.value - g.start.value) * s
  | .bezier => hermite g.start.value g.stop.value (g.startSlope * g.span) (g.stopSlope * g.span) s

/-- The value of a segment at a time, however short the segment. -/
def drawnAt (g : Segment Rat) (interpolation : Interpolation) (time : Rat) : Rat :=
  g.point interpolation ((time - g.start.time) / g.span)

/-- A segment covers a time from its start on, and no more from its end on. -/
def Covers (g : Segment Rat) (time : Rat) : Prop := g.start.time ≤ time ∧ time < g.stop.time

/-- The time lies strictly inside a segment that counts as empty, but which a line or a cubic is
drawn on. -/
def Glossed (g : Segment Rat) (interpolation : Interpolation) (time : Rat) : Prop :=
  interpolation ≠ .stepped ∧ g.start.time < time ∧ time < g.stop.time ∧ g.span ≤ 1 / 1000000000

theorem point_zero (g : Segment Rat) (interpolation : Interpolation) :
    g.point interpolation 0 = g.start.value := by
  cases interpolation with
  | stepped => rfl
  | linear =>
    simp only [point]
    ring
  | bezier =>
    simp only [point, hermite_eq]
    ring

theorem valueAt_eq_point (g : Segment Rat) (interpolation : Interpolation) (time : Rat) :
    g.valueAt interpolation time = g.point interpolation (g.progress time) := by
  cases interpolation <;> rfl

theorem negligible_eq : (Scalar.negligible : Rat) = 1 / 1000000000 := by
  show mkRat 1 1000000000 = 1 / 1000000000
  rw [Rat.mkRat_eq_div]
  norm_num

/-- On a segment that counts as empty the first value is held. -/
theorem valueAt_of_short (h : g.span ≤ 1 / 1000000000) :
    g.valueAt interpolation time = g.start.value := by
  have hprogress : g.progress time = 0 := by
    rw [progress, if_neg (by simpa [negligible_eq] using h)]
    rfl
  rw [valueAt_eq_point, hprogress, point_zero]

/-- On any other segment the host draws what the function draws. -/
theorem valueAt_of_long (h : 1 / 1000000000 < g.span) :
    g.valueAt interpolation time = g.drawnAt interpolation time := by
  have hprogress : g.progress time = (time - g.start.time) / g.span :=
    if_pos (by simpa [negligible_eq] using h)
  rw [valueAt_eq_point, hprogress, drawnAt]

/-- **The host draws what the function draws**, except inside a segment that counts as empty. -/
theorem valueAt_eq_drawnAt (hcovers : g.Covers time) (h : ¬g.Glossed interpolation time) :
    g.valueAt interpolation time = g.drawnAt interpolation time := by
  rcases lt_or_ge (1 / 1000000000) g.span with hlong | hshort
  · exact valueAt_of_long hlong
  · rw [valueAt_of_short hshort]
    by_cases hstepped : interpolation = .stepped
    · subst hstepped
      rfl
    · -- what is left is the start of the segment, where nothing is drawn yet
      have hstart : time = g.start.time := by
        refine le_antisymm (not_lt.1 fun hlt => ?_) hcovers.1
        exact h ⟨hstepped, hlt, hcovers.2, hshort⟩
      rw [drawnAt, hstart, sub_self, zero_div, point_zero]

end Segment

/-! ## The segment of a time -/

theorem length_laterSlopes (before : Key Rat) (keys : List (Key Rat)) :
    (laterSlopes before keys).length = keys.length := by
  fun_induction laterSlopes before keys with
  | case1 => rfl
  | case2 => rfl
  | case3 before key next rest ih => simp [ih]

theorem length_slopes (keys : List (Key Rat)) : (slopes keys).length = keys.length := by
  unfold slopes
  split
  · rfl
  · rfl
  · simp [length_laterSlopes]

theorem map_fst_zip_slopes (keys : List (Key Rat)) : (keys.zip (slopes keys)).map Prod.fst = keys :=
  List.map_fst_zip (length_slopes keys).ge

/-- The first key keeps its place beside its slope. -/
theorem exists_zip_slopes (first : Key Rat) (rest : List (Key Rat)) :
    ∃ slope points, (first :: rest).zip (slopes (first :: rest)) = (first, slope) :: points := by
  cases hslopes : slopes (first :: rest) with
  | nil =>
    have hlength := length_slopes (first :: rest)
    rw [hslopes] at hlength
    simp at hlength
  | cons slope more => exact ⟨slope, rest.zip more, rfl⟩

/-- The ends of a segment are keys, its start not the last and its end not the first. -/
theorem mem_of_mem_segmentsOf {points : List (Key Rat × Rat)} {g : Segment Rat}
    (h : g ∈ segmentsOf points) :
    g.start ∈ points.map Prod.fst ∧ g.stop ∈ (points.map Prod.fst).tail := by
  induction points with
  | nil => simp [segmentsOf] at h
  | cons a rest ih =>
    cases rest with
    | nil => simp [segmentsOf] at h
    | cons b rest =>
      rw [segmentsOf, List.mem_cons] at h
      rcases h with rfl | h
      · simp
      · obtain ⟨hstart, hstop⟩ := ih h
        exact ⟨List.mem_cons_of_mem _ hstart, List.mem_of_mem_tail hstop⟩

/-- The segments of sorted keys follow each other. -/
theorem pairwise_segmentsOf {points : List (Key Rat × Rat)}
    (h : (points.map Prod.fst).Pairwise fun a b => a.time ≤ b.time) :
    (segmentsOf points).Pairwise fun f g => f.stop.time ≤ g.start.time := by
  induction points with
  | nil => exact List.Pairwise.nil
  | cons a rest ih =>
    cases rest with
    | nil => exact List.Pairwise.nil
    | cons b rest =>
      obtain ⟨-, hrest⟩ := List.pairwise_cons.1 h
      refine List.pairwise_cons.2 ⟨fun g hg => ?_, ih hrest⟩
      -- a later segment starts with the key that this one ends with, or with a later key
      have hstart := (mem_of_mem_segmentsOf hg).1
      rw [List.map_cons, List.mem_cons] at hstart
      rcases hstart with hb | hlater
      · rw [hb]
      · exact (List.pairwise_cons.1 hrest).1 _ hlater

/-- The first segment that ends after a time starts before it, if the first key does. -/
theorem start_le_of_find? {a : Key Rat × Rat} {points : List (Key Rat × Rat)} {g : Segment Rat}
    (ha : a.1.time ≤ time)
    (h : (segmentsOf (a :: points)).find? (fun g => decide (time < g.stop.time)) = some g) :
    g.start.time ≤ time := by
  induction points generalizing a with
  | nil => simp [segmentsOf] at h
  | cons b rest ih =>
    rw [segmentsOf, List.find?_cons] at h
    split at h
    · obtain rfl := Option.some.inj h
      exact ha
    · rename_i hb
      exact ih (not_lt.1 (of_decide_eq_false hb)) h

theorem find?_segmentsOf_skipping {a : Key Rat × Rat} {points : List (Key Rat × Rat)}
    (ha : a.1.time ≤ time) :
    (segmentsOf (a :: points)).find? (fun g => decide (0 < g.span ∧ time < g.stop.time))
      = (segmentsOf (a :: points)).find? fun g => decide (time < g.stop.time) := by
  induction points generalizing a with
  | nil => rfl
  | cons b rest ih =>
    rw [segmentsOf]
    rcases lt_or_ge time b.1.time with hlt | hge
    · have hspan : 0 < (⟨a.1, b.1, a.2, b.2⟩ : Segment Rat).span := sub_pos.2 (ha.trans_lt hlt)
      rw [List.find?_cons_of_pos (by simp [hspan, hlt]), List.find?_cons_of_pos (by simp [hlt])]
    · rw [List.find?_cons_of_neg (by simp [hge]), List.find?_cons_of_neg (by simp [hge]), ih hge]

namespace Curve

variable {c : Curve Rat} {first : Key Rat} {rest : List (Key Rat)} {g : Segment Rat}

/-- The first segment that ends after a time. -/
def segment? (c : Curve Rat) (time : Rat) : Option (Segment Rat) :=
  (segments c.sortedKeys).find? fun g => decide (time < g.stop.time)

theorem sortsBefore_trans (a b c : Key Rat) (hab : Scalar.sortsBefore a.time b.time = true)
    (hbc : Scalar.sortsBefore b.time c.time = true) : Scalar.sortsBefore a.time c.time = true :=
  decide_eq_true ((of_decide_eq_true hab).trans (of_decide_eq_true hbc))

theorem sortsBefore_total (a b : Key Rat) :
    (Scalar.sortsBefore a.time b.time || Scalar.sortsBefore b.time a.time) = true := by
  rcases le_total a.time b.time with h | h
  · exact Bool.or_eq_true_iff.2 (Or.inl (decide_eq_true h))
  · exact Bool.or_eq_true_iff.2 (Or.inr (decide_eq_true h))

theorem pairwise_sortedKeys (c : Curve Rat) :
    c.sortedKeys.Pairwise fun a b => a.time ≤ b.time :=
  (List.pairwise_mergeSort sortsBefore_trans sortsBefore_total c.keys).imp of_decide_eq_true

/-- A segment that covers a time is the one that is found. -/
theorem segment?_eq_some (hg : g ∈ segments c.sortedKeys) (hcovers : g.Covers time) :
    c.segment? time = some g := by
  have hsorted : (segments c.sortedKeys).Pairwise fun f g => f.stop.time ≤ g.start.time := by
    refine pairwise_segmentsOf ?_
    rw [map_fst_zip_slopes]
    exact c.pairwise_sortedKeys
  obtain ⟨before, after, hsplit⟩ := List.append_of_mem hg
  rw [hsplit] at hsorted
  refine List.find?_eq_some_iff_append.2 ⟨decide_eq_true hcovers.2, before, after, hsplit, ?_⟩
  intro f hf
  -- what stands before ends before
  have hend : f.stop.time ≤ g.start.time :=
    (List.pairwise_append.1 hsorted).2.2 f hf g List.mem_cons_self
  rw [decide_eq_false (not_lt.2 (hend.trans hcovers.1))]
  rfl

/-- From the first key on, the segment that is found covers the time. -/
theorem covers_of_segment? (hkeys : c.sortedKeys = first :: rest) (hfirst : first.time ≤ time)
    (h : c.segment? time = some g) : g ∈ segments c.sortedKeys ∧ g.Covers time := by
  have hends : decide (time < g.stop.time) = true :=
    List.find?_some (p := fun g : Segment Rat => decide (time < g.stop.time)) h
  refine ⟨List.mem_of_find?_eq_some h, ?_, of_decide_eq_true hends⟩
  obtain ⟨slope, points, hzip⟩ := exists_zip_slopes first rest
  rw [segment?, hkeys, segments, hzip] at h
  exact start_le_of_find? hfirst h

/-- Trying only the segments that have a length finds no other segment. -/
theorem find?_skipping (hkeys : c.sortedKeys = first :: rest) (hfirst : first.time ≤ time) :
    (segments (first :: rest)).find? (fun g => decide (0 < g.span ∧ time < g.stop.time))
      = c.segment? time := by
  obtain ⟨slope, points, hzip⟩ := exists_zip_slopes first rest
  rw [segment?, hkeys, segments, hzip]
  exact find?_segmentsOf_skipping hfirst

/-- Nothing ends after the last key. -/
theorem segment?_eq_none (hkeys : c.sortedKeys = first :: rest)
    (hlast : ((first :: rest).getLastD first).time ≤ time) : c.segment? time = none := by
  refine List.find?_eq_none.2 fun g hg hlt => ?_
  have hstop : g.stop ∈ c.sortedKeys := by
    have hmem := (mem_of_mem_segmentsOf hg).2
    rw [map_fst_zip_slopes] at hmem
    exact List.mem_of_mem_tail hmem
  have hsorted := c.pairwise_sortedKeys
  rw [hkeys] at hstop hsorted
  have hle : g.stop.time ≤ ((first :: rest).getLastD first).time := by
    rw [List.getLastD_eq_getLast?, List.getLast?_eq_some_getLast (List.cons_ne_nil first rest)]
    exact hsorted.rel_getLast_of_rel_getLast_getLast hstop le_rfl
  exact absurd (of_decide_eq_true hlt) (not_lt.2 (hle.trans hlast))

/-- The value of a curve at a time, given what the segments are worth there. -/
def valueBy (c : Curve Rat) (value : Segment Rat → Rat) (time : Rat) : Option Rat :=
  match c.sortedKeys with
  | [] => none
  | first :: rest =>
    some (if time ≤ first.time then first.value
      else ((c.segment? time).map value).getD ((first :: rest).getLastD first).value)

theorem valueBy_of_sortedKeys {value : Segment Rat → Rat} (hkeys : c.sortedKeys = first :: rest) :
    c.valueBy value time = some (if time ≤ first.time then first.value
      else ((c.segment? time).map value).getD ((first :: rest).getLastD first).value) := by
  simp only [valueBy, hkeys]

/-- Inside a segment a curve has the value of the segment. -/
theorem valueBy_of_mem {value : Segment Rat → Rat} (hg : g ∈ segments c.sortedKeys)
    (hstart : g.start.time < time) (hstop : time < g.stop.time) :
    c.valueBy value time = some (value g) := by
  have hkey : g.start ∈ c.sortedKeys := by
    have hmem := (mem_of_mem_segmentsOf hg).1
    rwa [map_fst_zip_slopes] at hmem
  have hsorted := c.pairwise_sortedKeys
  cases hkeys : c.sortedKeys with
  | nil => simp [hkeys] at hkey
  | cons first rest =>
    rw [hkeys] at hkey hsorted
    have hfirst : first.time ≤ g.start.time :=
      hsorted.rel_head_of_rel_head_head hkey le_rfl
    rw [valueBy_of_sortedKeys hkeys, if_neg (not_le.2 (hfirst.trans_lt hstart)),
      segment?_eq_some hg ⟨hstart.le, hstop⟩]
    rfl

/-- The host takes the value of the segment that is found. -/
theorem sample_eq (c : Curve Rat) (time : Rat) :
    c.sample time = c.valueBy (fun g => g.valueAt c.interpolation time) time := by
  have hends : ∀ g : Segment Rat, (!decide (g.stop.time ≤ time)) = decide (time < g.stop.time) := by
    intro g
    rw [← decide_not, decide_eq_decide, not_le]
  match hkeys : c.sortedKeys with
  | [] => simp [sample, valueBy, hkeys]
  | [only] => simp [sample, valueBy, segment?, hkeys, segments, slopes, segmentsOf]
  | first :: second :: rest =>
    have hlast : (second :: rest).getLastD second = (first :: second :: rest).getLastD first := rfl
    have hfound : (segments (first :: second :: rest)).find? (fun g => decide (time < g.stop.time))
        = c.segment? time := by rw [segment?, hkeys]
    rw [valueBy_of_sortedKeys hkeys]
    simp only [sample, hkeys, between, hlast, Scalar.le_rat, decide_eq_true_eq, hends, hfound]
    by_cases hfirst : time ≤ first.time
    · rw [if_pos hfirst, if_pos hfirst]
    · rw [if_neg hfirst, if_neg hfirst]
      split
      · rename_i hafter
        rw [segment?_eq_none hkeys hafter]
        rfl
      · cases c.segment? time <;> rfl

end Curve

end ShaderGraph
