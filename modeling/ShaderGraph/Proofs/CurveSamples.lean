import ShaderGraph.Proofs.Sampling
import Mathlib.Algebra.Order.Field.Basic

/-!
# Samples of a curve

Over exact numbers, a sample of a curve can be said without segments and without a search: it is
the first value up to the first key, the last value from the last key on, and between them what is
drawn between the two neighbours that the time lies between (`IsSample`). The neighbours are unique,
since the keys are sorted, so the search for a segment finds them and nothing else.

Sorting puts the keys in the order of their times and leaves those of one time in the order given
(`Sorts`), and these two facts leave one list only. So a curve whose keys are given in another order
has the same samples, as long as keys of one time keep theirs.
-/

namespace ShaderGraph

variable {time value : Rat} {interpolation : Interpolation}

/-! ## Sorted keys -/

/-- Whether a key stands at a time. -/
def Key.isAt (time : Rat) (k : Key Rat) : Bool := decide (k.time = time)

/-- Keys in ascending order of time, those of one time in the order given. -/
structure Sorts (keys sorted : List (Key Rat)) : Prop where
  ascending : sorted.Pairwise fun a b => a.time ≤ b.time
  stable : ∀ time, sorted.filter (Key.isAt time) = keys.filter (Key.isAt time)

theorem Key.isAt_iff {k : Key Rat} : k.isAt time = true ↔ k.time = time := decide_eq_true_iff

section Sorted

variable {xs ys keys sorted sorted' : List (Key Rat)} {k : Key Rat}

theorem mem_filter_isAt : k ∈ xs.filter (Key.isAt k.time) ↔ k ∈ xs := by
  simp [List.mem_filter, Key.isAt_iff]

/-- Lists that agree at every time have the same keys. -/
theorem mem_iff_of_filter_isAt_eq
    (h : ∀ time, xs.filter (Key.isAt time) = ys.filter (Key.isAt time)) : k ∈ xs ↔ k ∈ ys := by
  rw [← mem_filter_isAt, h, mem_filter_isAt]

/-- A sorted list is known by what it has at each time. -/
theorem eq_of_filter_isAt_eq (hxs : xs.Pairwise fun a b => a.time ≤ b.time)
    (hys : ys.Pairwise fun a b => a.time ≤ b.time)
    (h : ∀ time, xs.filter (Key.isAt time) = ys.filter (Key.isAt time)) : xs = ys := by
  induction xs generalizing ys with
  | nil =>
    refine (List.eq_nil_iff_forall_not_mem.2 fun k hk => ?_).symm
    cases (mem_iff_of_filter_isAt_eq h).2 hk
  | cons x xs ih =>
    cases ys with
    | nil => cases (mem_iff_of_filter_isAt_eq h).1 List.mem_cons_self
    | cons y ys =>
      -- the first keys of both stand at the least time, so they are the first there
      have hx : y.time ≤ x.time :=
        hys.rel_head_of_rel_head_head ((mem_iff_of_filter_isAt_eq h).1 List.mem_cons_self) le_rfl
      have hy : x.time ≤ y.time :=
        hxs.rel_head_of_rel_head_head ((mem_iff_of_filter_isAt_eq h).2 List.mem_cons_self) le_rfl
      have htime : y.time = x.time := le_antisymm hx hy
      have hfirst := h x.time
      rw [List.filter_cons_of_pos (Key.isAt_iff.2 rfl),
        List.filter_cons_of_pos (Key.isAt_iff.2 htime)] at hfirst
      obtain rfl := (List.cons.inj hfirst).1
      rw [ih (List.pairwise_cons.1 hxs).2 (List.pairwise_cons.1 hys).2 fun time => ?_]
      have htail := h time
      rw [List.filter_cons, List.filter_cons] at htail
      split at htail
      · exact (List.cons.inj htail).2
      · exact htail

namespace Sorts

theorem mem_iff (h : Sorts keys sorted) : k ∈ sorted ↔ k ∈ keys :=
  mem_iff_of_filter_isAt_eq h.stable

/-- **Keys are sorted in one way.** -/
theorem eq (h : Sorts keys sorted) (h' : Sorts keys sorted') : sorted = sorted' :=
  eq_of_filter_isAt_eq h.ascending h'.ascending fun time => by rw [h.stable, h'.stable]

end Sorts

end Sorted

namespace Curve

/-- Keys of one time keep their order. -/
theorem filter_isAt_sortedKeys (c : Curve Rat) (time : Rat) :
    c.sortedKeys.filter (Key.isAt time) = c.keys.filter (Key.isAt time) := by
  have htied : (c.keys.filter (Key.isAt time)).Pairwise
      fun a b => Scalar.sortsBefore a.time b.time = true := by
    refine List.pairwise_of_forall_mem_list fun a ha b hb => ?_
    have hle : a.time ≤ b.time := by
      rw [Key.isAt_iff.1 (List.mem_filter.1 ha).2, Key.isAt_iff.1 (List.mem_filter.1 hb).2]
    exact decide_eq_true hle
  have hsublist : (c.keys.filter (Key.isAt time)).Sublist c.sortedKeys :=
    List.sublist_mergeSort sortsBefore_trans sortsBefore_total htied List.filter_sublist
  have hlength : (c.keys.filter (Key.isAt time)).length
      = (c.sortedKeys.filter (Key.isAt time)).length :=
    ((List.mergeSort_perm c.keys _).filter _).length_eq.symm
  have hself := hsublist.filter (Key.isAt time)
  rw [List.filter_filter] at hself
  simp only [Bool.and_self] at hself
  exact (hself.eq_of_length hlength).symm

theorem sorts_sortedKeys (c : Curve Rat) : Sorts c.keys c.sortedKeys :=
  ⟨c.pairwise_sortedKeys, c.filter_isAt_sortedKeys⟩

end Curve

/-! ## What is drawn between two keys -/

/-- The slope between two keys, none if they are hardly apart. -/
def steepness (a b : Key Rat) : Rat :=
  if 1 / 1000000000 < b.time - a.time then (b.value - a.value) / (b.time - a.time) else 0

/-- What is drawn between two neighbours, given the keys before and after them. The slope at each is
that between its own neighbours, and an end is its own neighbour. -/
def drawnBetween (interpolation : Interpolation) (before : List (Key Rat)) (a b : Key Rat)
    (after : List (Key Rat)) (time : Rat) : Rat :=
  let length := b.time - a.time
  let s := if 1 / 1000000000 < length then (time - a.time) / length else 0
  match interpolation with
  | .stepped => a.value
  | .linear => a.value + (b.value - a.value) * s
  | .bezier =>
    (2 * s ^ 3 - 3 * s ^ 2 + 1) * a.value
      + (s ^ 3 - 2 * s ^ 2 + s) * (steepness (before.getLastD a) b * length)
      + (-2 * s ^ 3 + 3 * s ^ 2) * b.value
      + (s ^ 3 - s ^ 2) * (steepness a (after.headD b) * length)

/-- Two neighbours among keys, and a time between them. -/
structure Neighbours (keys before : List (Key Rat)) (a b : Key Rat) (after : List (Key Rat))
    (time : Rat) : Prop where
  split : keys = before ++ a :: b :: after
  start : a.time ≤ time
  stop : time < b.time

section Neighbours

variable {keys before after before' after' : List (Key Rat)} {a b a' b' : Key Rat}

theorem steepness_eq (a b : Key Rat) : a.slopeTo b = steepness a b := by
  simp [Key.slopeTo, steepness, Segment.negligible_eq]

theorem drawnBetween_eq (before : List (Key Rat)) (a b : Key Rat) (after : List (Key Rat)) :
    (⟨a, b, (before.getLastD a).slopeTo b, a.slopeTo (after.headD b)⟩ : Segment Rat).valueAt
      interpolation time = drawnBetween interpolation before a b after time := by
  cases interpolation <;> simp [Segment.valueAt, drawnBetween, Segment.progress, Segment.span,
    Segment.negligible_eq, hermite_eq, steepness_eq]

/-- Only one pair of neighbours has the time between them: behind the one, all keys are later. -/
theorem eq_nil_of_neighbours {front rest : List (Key Rat)}
    (hsorted : (a :: b :: after).Pairwise fun k l => k.time ≤ l.time)
    (hsplit : a :: b :: after = front ++ a' :: rest) (hstop : time < b.time)
    (hstart : a'.time ≤ time) : front = [] := by
  rcases front with _ | ⟨x, front⟩
  · rfl
  · exfalso
    have hmem : a' ∈ b :: after := by
      rw [(List.cons.inj hsplit).2]
      simp
    have hle : b.time ≤ a'.time :=
      (List.pairwise_cons.1 hsorted).2.rel_head_of_rel_head_head hmem le_rfl
    exact absurd (hle.trans hstart) (not_le.2 hstop)

theorem Neighbours.unique (hsorted : keys.Pairwise fun k l => k.time ≤ l.time)
    (h : Neighbours keys before a b after time) (h' : Neighbours keys before' a' b' after' time) :
    before' = before ∧ a' = a ∧ b' = b ∧ after' = after := by
  have hsame : before' = before := by
    obtain ⟨front, hfront, hrest⟩ | ⟨front, hfront, hrest⟩ :=
      List.append_eq_append_iff.1 (h'.split.symm.trans h.split)
    · have htail := hsorted
      rw [h'.split] at htail
      have hnil := eq_nil_of_neighbours (List.pairwise_append.1 htail).2.1 hrest h'.stop h.start
      rw [hfront, hnil, List.append_nil]
    · have htail := hsorted
      rw [h.split] at htail
      have hnil := eq_nil_of_neighbours (List.pairwise_append.1 htail).2.1 hrest h.stop h'.start
      rw [hfront, hnil, List.append_nil]
  have hrest := h'.split.symm.trans h.split
  rw [hsame] at hrest
  obtain ⟨rfl, htail⟩ := List.cons.inj (List.append_cancel_left hrest)
  obtain ⟨rfl, rfl⟩ := List.cons.inj htail
  exact ⟨hsame, rfl, rfl, rfl⟩

/-- The last key with a property stands where no later one has it. -/
theorem getLast?_filter_of_split {p : Key Rat → Bool} {rest : List (Key Rat)}
    (hsplit : keys = before ++ a :: rest) (ha : p a = true) (hrest : ∀ k ∈ rest, p k = false) :
    (keys.filter p).getLast? = some a := by
  have hnone : rest.filter p = [] := List.filter_eq_nil_iff.2 fun k hk => by simp [hrest k hk]
  rw [hsplit, List.filter_append, List.filter_cons_of_pos ha, hnone, List.getLast?_concat]

theorem Neighbours.later (hsorted : keys.Pairwise fun k l => k.time ≤ l.time)
    (h : Neighbours keys before a b after time) : ∀ k ∈ b :: after, time < k.time := by
  intro k hk
  rw [h.split] at hsorted
  have htail := (List.pairwise_cons.1 (List.pairwise_append.1 hsorted).2.1).2
  exact h.stop.trans_le (htail.rel_head_of_rel_head_head hk le_rfl)

/-- The first of two neighbours is the last key that is not later than the time. -/
theorem Neighbours.getLast?_filter (hsorted : keys.Pairwise fun k l => k.time ≤ l.time)
    (h : Neighbours keys before a b after time) :
    (keys.filter fun k => decide (k.time ≤ time)).getLast? = some a := by
  refine getLast?_filter_of_split h.split (decide_eq_true h.start) fun k hk => ?_
  exact decide_eq_false (not_le.2 (h.later hsorted k hk))

/-- Where there is a key at the time, it is the last one there. -/
theorem Neighbours.getLast?_filter_isAt (hsorted : keys.Pairwise fun k l => k.time ≤ l.time)
    (h : Neighbours keys before a b after time) {k : Key Rat} (hk : k ∈ keys)
    (htime : k.time = time) :
    a.time = time ∧ (keys.filter (Key.isAt time)).getLast? = some a := by
  have hlast : a.time = time := by
    refine le_antisymm h.start (htime ▸ ?_)
    rw [h.split] at hk hsorted
    rcases List.mem_append.1 hk with hk | hk
    · exact (List.pairwise_append.1 hsorted).2.2 k hk a List.mem_cons_self
    · rcases List.mem_cons.1 hk with rfl | hk
      · exact le_rfl
      · exact absurd htime (h.later (h.split ▸ hsorted) k hk).ne'
  refine ⟨hlast, getLast?_filter_of_split h.split (Key.isAt_iff.2 hlast) fun k hk => ?_⟩
  exact decide_eq_false (h.later hsorted k hk).ne'

/-- At the first of two neighbours, what is drawn has its value. -/
theorem drawnBetween_start (h : a.time = time) :
    drawnBetween interpolation before a b after time = a.value := by
  cases interpolation <;> simp [drawnBetween, h]

/-- A line stays between the values of its ends. -/
theorem Neighbours.drawnBetween_linear (h : Neighbours keys before a b after time) :
    min a.value b.value ≤ drawnBetween .linear before a b after time ∧
      drawnBetween .linear before a b after time ≤ max a.value b.value := by
  have hlength : 0 < b.time - a.time := sub_pos.2 (h.start.trans_lt h.stop)
  simp only [drawnBetween]
  set s := if 1 / 1000000000 < b.time - a.time then (time - a.time) / (b.time - a.time) else 0
    with hs
  have hbounds : 0 ≤ s ∧ s ≤ 1 := by
    rw [hs]
    split
    · refine ⟨div_nonneg (sub_nonneg.2 h.start) hlength.le, (div_le_one hlength).2 ?_⟩
      exact sub_le_sub_right h.stop.le _
    · exact ⟨le_rfl, zero_le_one⟩
  obtain ⟨hzero, hone⟩ := hbounds
  rcases le_total a.value b.value with hab | hab
  · rw [min_eq_left hab, max_eq_right hab]
    constructor <;> nlinarith
  · rw [min_eq_right hab, max_eq_left hab]
    constructor <;> nlinarith

end Neighbours

/-! ## Segments and neighbours -/

section Segments

variable {keys : List (Key Rat)} {g : Segment Rat}

/-- The slope at the first of two keys, given the one before it. -/
def startSlope (slope : Rat) (before : List (Key Rat)) (b : Key Rat) : Rat :=
  (before.getLast?.map (·.slopeTo b)).getD slope

/-- Each segment joins two neighbours, with slopes from the keys around them. -/
theorem exists_split_of_mem_segmentsOf {k : Key Rat} {slope : Rat} {rest : List (Key Rat)}
    (h : g ∈ segmentsOf ((k, slope) :: rest.zip (laterSlopes k rest))) :
    ∃ before a b after, k :: rest = before ++ a :: b :: after ∧
      g = ⟨a, b, startSlope slope before b, a.slopeTo (after.headD b)⟩ := by
  induction rest generalizing k slope with
  | nil => simp [segmentsOf] at h
  | cons key rest ih =>
    cases rest with
    | nil =>
      obtain rfl : g = ⟨k, key, slope, k.slopeTo key⟩ := by
        simpa [laterSlopes, segmentsOf] using h
      exact ⟨[], k, key, [], rfl, rfl⟩
    | cons next rest =>
      rw [laterSlopes, List.zip_cons_cons, segmentsOf, List.mem_cons] at h
      rcases h with rfl | h
      · exact ⟨[], k, key, next :: rest, rfl, rfl⟩
      · obtain ⟨before, a, b, after, hsplit, rfl⟩ := ih h
        refine ⟨k :: before, a, b, after, congrArg (k :: ·) hsplit, ?_⟩
        cases before with
        | nil =>
          obtain ⟨-, htail⟩ := List.cons.inj hsplit
          rw [(List.cons.inj htail).1]
          rfl
        | cons first before =>
          rw [startSlope, startSlope, List.getLast?_cons_cons,
            List.getLast?_eq_some_getLast (List.cons_ne_nil first before)]
          rfl

theorem exists_split_of_mem_segments (h : g ∈ segments keys) :
    ∃ before a b after, keys = before ++ a :: b :: after ∧
      g = ⟨a, b, (before.getLastD a).slopeTo b, a.slopeTo (after.headD b)⟩ := by
  match keys with
  | [] => cases h
  | [only] => cases h
  | first :: second :: rest =>
    obtain ⟨before, a, b, after, hsplit, rfl⟩ := exists_split_of_mem_segmentsOf h
    refine ⟨before, a, b, after, hsplit, ?_⟩
    rcases List.eq_nil_or_concat before with rfl | ⟨front, last, rfl⟩
    · obtain ⟨rfl, htail⟩ := List.cons.inj hsplit
      rw [(List.cons.inj htail).1]
      rfl
    · simp [startSlope, List.getLastD_eq_getLast?]

/-- The last segment ends with the last key. -/
theorem exists_last_segmentsOf (a b : Key Rat × Rat) (rest : List (Key Rat × Rat)) :
    ∃ g ∈ segmentsOf (a :: b :: rest), ((a :: b :: rest).map Prod.fst).getLast? = some g.stop := by
  induction rest generalizing a b with
  | nil => exact ⟨_, List.mem_singleton_self _, rfl⟩
  | cons c rest ih =>
    obtain ⟨g, hg, hlast⟩ := ih b c
    refine ⟨g, List.mem_cons_of_mem _ hg, ?_⟩
    rw [List.map_cons, List.map_cons, List.getLast?_cons_cons]
    exact hlast

theorem exists_last_segments (h : 1 < keys.length) :
    ∃ g ∈ segments keys, keys.getLast? = some g.stop := by
  have hpoints := map_fst_zip_slopes keys
  have hlength : 1 < (keys.zip (slopes keys)).length := by
    have hsame := congrArg List.length hpoints
    rwa [← hsame, List.length_map] at h
  rw [segments]
  rcases hzip : keys.zip (slopes keys) with _ | ⟨a, _ | ⟨b, rest⟩⟩
  · simp [hzip] at hlength
  · simp [hzip] at hlength
  · obtain ⟨g, hg, hlast⟩ := exists_last_segmentsOf a b rest
    exact ⟨g, hg, by rw [← hlast, ← hzip, hpoints]⟩

end Segments

/-! ## Samples -/

/-- What a curve is worth at a time, by its sorted keys. -/
structure IsSample (interpolation : Interpolation) (keys : List (Key Rat)) (first last : Key Rat)
    (time value : Rat) : Prop where
  /-- Up to the first key, and wherever there is no other, it is the first value. -/
  upToFirst : time ≤ first.time ∨ keys.length = 1 → value = first.value
  /-- From the last key on it is the last value. -/
  fromLast : first.time < time → last.time ≤ time → value = last.value
  /-- In between, there is one pair of neighbours with the time between them, apart from each other,
  and it is what is drawn between them. -/
  inside : first.time < time → time < last.time → ∃ before a b after,
    Neighbours keys before a b after time ∧ 0 < b.time - a.time ∧
    value = drawnBetween interpolation before a b after time ∧
    ∀ before' a' b' after', Neighbours keys before' a' b' after' time →
      before' = before ∧ a' = a ∧ b' = b ∧ after' = after

namespace Curve

variable {c : Curve Rat} {first last : Key Rat} {rest : List (Key Rat)}

theorem getLastD_eq (hlast : (first :: rest).getLast? = some last) :
    (first :: rest).getLastD first = last := by
  rw [List.getLastD_eq_getLast?, hlast, Option.getD_some]

theorem sample_of_le_first (hkeys : c.sortedKeys = first :: rest) (h : time ≤ first.time) :
    c.sample time = some first.value := by
  rw [sample_eq, valueBy_of_sortedKeys hkeys, if_pos h]

theorem sample_of_last_le (hkeys : c.sortedKeys = first :: rest)
    (hlast : (first :: rest).getLast? = some last) (hfirst : first.time < time)
    (h : last.time ≤ time) : c.sample time = some last.value := by
  rw [sample_eq, valueBy_of_sortedKeys hkeys, if_neg (not_le.2 hfirst),
    segment?_eq_none hkeys (by rwa [getLastD_eq hlast]), getLastD_eq hlast]
  rfl

/-- Before the last key the search for a segment ends. -/
theorem isSome_segment? (hkeys : c.sortedKeys = first :: rest)
    (hlast : (first :: rest).getLast? = some last) (hfirst : first.time < time)
    (h : time < last.time) : (c.segment? time).isSome = true := by
  have hmore : 1 < c.sortedKeys.length := by
    rw [hkeys]
    cases rest with
    | nil =>
      obtain rfl := Option.some.inj hlast
      exact absurd hfirst h.not_gt
    | cons second rest => simp
  obtain ⟨g, hg, hstop⟩ := exists_last_segments hmore
  rw [hkeys, hlast] at hstop
  obtain rfl := Option.some.inj hstop
  exact List.find?_isSome.2 ⟨g, hg, decide_eq_true h⟩

theorem sample_of_inside (hkeys : c.sortedKeys = first :: rest)
    (hlast : (first :: rest).getLast? = some last) (hfirst : first.time < time)
    (h : time < last.time) : ∃ before a b after, Neighbours c.sortedKeys before a b after time ∧
      c.sample time = some (drawnBetween c.interpolation before a b after time) := by
  obtain ⟨g, hg⟩ := Option.isSome_iff_exists.1 (isSome_segment? hkeys hlast hfirst h)
  obtain ⟨hmem, hcovers⟩ := covers_of_segment? hkeys hfirst.le hg
  obtain ⟨before, a, b, after, hsplit, rfl⟩ := exists_split_of_mem_segments hmem
  refine ⟨before, a, b, after, ⟨hsplit, hcovers.1, hcovers.2⟩, ?_⟩
  rw [sample_eq, valueBy_of_sortedKeys hkeys, if_neg (not_le.2 hfirst), hg, Option.map_some,
    Option.getD_some, drawnBetween_eq]

theorem eq_of_length_eq_one (hlast : (first :: rest).getLast? = some last)
    (h : (first :: rest).length = 1) : last = first := by
  obtain rfl : rest = [] := List.length_eq_zero_iff.1 (Nat.succ.inj h)
  exact (Option.some.inj hlast).symm

/-- **Sampling gives the sample.** -/
theorem exists_isSample (hkeys : c.sortedKeys = first :: rest)
    (hlast : (first :: rest).getLast? = some last) (time : Rat) :
    ∃ value, c.sample time = some value ∧
      IsSample c.interpolation c.sortedKeys first last time value := by
  have hone (h : c.sortedKeys.length = 1) : last = first :=
    eq_of_length_eq_one hlast (hkeys ▸ h)
  rcases le_or_gt time first.time with hle | hfirst
  · exact ⟨first.value, sample_of_le_first hkeys hle, fun _ => rfl,
      fun h => absurd h hle.not_gt, fun h => absurd h hle.not_gt⟩
  rcases le_or_gt last.time time with hle | hbefore
  · refine ⟨last.value, sample_of_last_le hkeys hlast hfirst hle, ?_, fun _ _ => rfl,
      fun _ h => absurd h hle.not_gt⟩
    rintro (h | h)
    · exact absurd h (not_le.2 hfirst)
    · rw [hone h]
  · obtain ⟨before, a, b, after, hneighbours, hsample⟩ :=
      sample_of_inside hkeys hlast hfirst hbefore
    refine ⟨_, hsample, ?_, fun _ h => absurd h (not_le.2 hbefore), fun _ _ => ?_⟩
    · rintro (h | h)
      · exact absurd h (not_le.2 hfirst)
      · rw [hone h] at hbefore
        exact absurd hbefore hfirst.not_gt
    · refine ⟨before, a, b, after, hneighbours, ?_, rfl, fun _ _ _ _ h =>
        hneighbours.unique c.pairwise_sortedKeys h⟩
      exact sub_pos.2 (hneighbours.start.trans_lt hneighbours.stop)

/-- Only the order of keys at one time matters. -/
theorem sample_congr {c' : Curve Rat} (hinterpolation : c'.interpolation = c.interpolation)
    (h : ∀ t, c'.keys.filter (Key.isAt t) = c.keys.filter (Key.isAt t)) (time : Rat) :
    c'.sample time = c.sample time := by
  have hsorts : Sorts c.keys c'.sortedKeys :=
    ⟨c'.pairwise_sortedKeys, fun t => (c'.filter_isAt_sortedKeys t).trans (h t)⟩
  rw [sample, sample, hsorts.eq c.sorts_sortedKeys, hinterpolation]

end Curve

namespace IsSample

variable {keys before after : List (Key Rat)} {first last a b k : Key Rat}

/-- Where a curve is stepped, the last key that has come holds. -/
theorem stepped (h : IsSample .stepped keys first last time value)
    (hsorted : keys.Pairwise fun k l => k.time ≤ l.time) (hlast : keys.getLast? = some last)
    (hfirst : first.time < time) :
    ∃ k, (keys.filter fun k => decide (k.time ≤ time)).getLast? = some k ∧ value = k.value := by
  rcases le_or_gt last.time time with hle | hbefore
  · obtain ⟨front, rfl⟩ := List.getLast?_eq_some_iff.1 hlast
    refine ⟨last, ?_, h.fromLast hfirst hle⟩
    exact getLast?_filter_of_split rfl (decide_eq_true hle) fun k hk => by cases hk
  · obtain ⟨before, a, b, after, hneighbours, -, hvalue, -⟩ := h.inside hfirst hbefore
    exact ⟨a, hneighbours.getLast?_filter hsorted, hvalue⟩

/-- Where it runs in lines, it stays between the values of the two neighbours. -/
theorem linear (h : IsSample .linear keys first last time value) (hfirst : first.time < time)
    (hbefore : time < last.time) (hneighbours : Neighbours keys before a b after time) :
    min a.value b.value ≤ value ∧ value ≤ max a.value b.value := by
  obtain ⟨before', a', b', after', -, -, hvalue, hunique⟩ := h.inside hfirst hbefore
  obtain ⟨rfl, rfl, rfl, rfl⟩ := hunique _ _ _ _ hneighbours
  rw [hvalue]
  exact hneighbours.drawnBetween_linear

/-- At a key between the first and the last, the last value given there holds. -/
theorem atKey (h : IsSample interpolation keys first last time value)
    (hsorted : keys.Pairwise fun k l => k.time ≤ l.time) (hfirst : first.time < time)
    (hbefore : time < last.time) (hk : k ∈ keys) (htime : k.time = time) :
    ∃ l, (keys.filter (Key.isAt time)).getLast? = some l ∧ value = l.value := by
  obtain ⟨before, a, b, after, hneighbours, -, rfl, -⟩ := h.inside hfirst hbefore
  obtain ⟨hstart, hlast⟩ := hneighbours.getLast?_filter_isAt hsorted hk htime
  exact ⟨a, hlast, drawnBetween_start hstart⟩

end IsSample

/-- **Curves are sampled by their sorted keys.** A curve with keys has a sample at every time, the
one that its sorted keys say, and between the first and the last key the search for a segment always
ends. So after the first key a stepped curve has the value of the last key that has come, and a
curve in lines stays between the values of two neighbours. At a key between the first and the last
any curve has the last value given there. The order in which the keys are given matters only among
those of one time. -/
theorem sample_sorted (c : Curve Rat) (hne : c.keys ≠ []) (keys : List (Key Rat))
    (hkeys : Sorts c.keys keys) (time : Rat) :
    ∃ first last value, keys.head? = some first ∧ keys.getLast? = some last ∧
      c.sample time = some value ∧ IsSample c.interpolation keys first last time value ∧
      (first.time < time → time < last.time →
        ((segments keys).find? fun g => !Scalar.le g.stop.time time).isSome = true) ∧
      (c.interpolation = .stepped → first.time < time →
        ∃ k, (keys.filter fun k => decide (k.time ≤ time)).getLast? = some k ∧ value = k.value) ∧
      (c.interpolation = .linear → first.time < time → time < last.time →
        ∀ before a b after, Neighbours keys before a b after time →
          min a.value b.value ≤ value ∧ value ≤ max a.value b.value) ∧
      (first.time < time → time < last.time → ∀ k ∈ c.keys, k.time = time →
        ∃ l, (c.keys.filter (Key.isAt time)).getLast? = some l ∧ value = l.value) ∧
      ∀ c' : Curve Rat, c'.interpolation = c.interpolation →
        (∀ t, c'.keys.filter (Key.isAt t) = c.keys.filter (Key.isAt t)) →
        c'.sample time = c.sample time := by
  obtain rfl := hkeys.eq c.sorts_sortedKeys
  obtain ⟨first, rest, hsorted⟩ : ∃ first rest, c.sortedKeys = first :: rest := by
    obtain ⟨k, hk⟩ := List.exists_mem_of_ne_nil _ hne
    exact List.exists_cons_of_ne_nil (List.ne_nil_of_mem (hkeys.mem_iff.2 hk))
  obtain ⟨last, hlast⟩ : ∃ last, (first :: rest).getLast? = some last :=
    ⟨_, List.getLast?_eq_some_getLast (List.cons_ne_nil first rest)⟩
  obtain ⟨value, hsample, hvalue⟩ := Curve.exists_isSample hsorted hlast time
  refine ⟨first, last, value, by rw [hsorted]; rfl, by rw [hsorted, hlast], hsample, hvalue,
    fun hfirst hbefore => ?_, fun hstepped hfirst => ?_, fun hlinear hfirst hbefore before a b after
      hneighbours => ?_, fun hfirst hbefore k hk htime => ?_, fun c' hinterpolation h =>
      Curve.sample_congr hinterpolation h time⟩
  · have hfound := Curve.isSome_segment? hsorted hlast hfirst hbefore
    simpa [Curve.segment?, ← decide_not] using hfound
  · rw [hstepped] at hvalue
    exact hvalue.stepped c.pairwise_sortedKeys (by rw [hsorted, hlast]) hfirst
  · rw [hlinear] at hvalue
    exact hvalue.linear hfirst hbefore hneighbours
  · rw [← hkeys.stable]
    exact hvalue.atKey c.pairwise_sortedKeys hfirst hbefore (hkeys.mem_iff.2 hk) htime

/-- Two keys in the middle of a curve stand at one time, and the curve is worth the second there. -/
theorem sample_sorted_tied :
    let c : Curve Rat := ⟨.bezier, [⟨2, 5⟩, ⟨0, 1⟩, ⟨1, 2⟩, ⟨1, 3⟩]⟩
    let keys : List (Key Rat) := [⟨0, 1⟩, ⟨1, 2⟩, ⟨1, 3⟩, ⟨2, 5⟩]
    c.keys ≠ [] ∧ Sorts c.keys keys ∧ c.sample 1 = some 3 := by
  intro c keys
  have hne : c.keys ≠ [] := List.cons_ne_nil _ _
  have hkeys : Sorts c.keys keys := by
    refine ⟨by decide +kernel, fun t => ?_⟩
    by_cases htwo : (2 : Rat) = t
    · subst htwo
      decide +kernel
    · simp [c, keys, Key.isAt, htwo, List.filter_cons]
  obtain ⟨first, last, value, hfirst, hlast, hsample, -, -, -, -, hat, -⟩ :=
    sample_sorted c hne keys hkeys 1
  obtain rfl := Option.some.inj hfirst
  obtain rfl := Option.some.inj hlast
  obtain ⟨l, hl, rfl⟩ := hat (by decide +kernel) (by decide +kernel) ⟨1, 2⟩ (by simp [c]) rfl
  have hsecond : (c.keys.filter (Key.isAt 1)).getLast? = some ⟨1, 3⟩ := by decide +kernel
  rw [hsecond] at hl
  obtain rfl := Option.some.inj hl
  exact ⟨hne, hkeys, hsample⟩

end ShaderGraph
