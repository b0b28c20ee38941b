import ShaderGraph.Proofs.CurveSamples
import Mathlib.Data.List.Chain

/-!
# Curves through straight lines

A cubic between two keys is drawn from four numbers: the values at both and the slopes there, which
come from the keys around and are scaled to the segment. If the keys lie on a straight line and no
two neighbours are so close that they count as one, all slopes are that of the line, whichever keys
they are taken from, and the cubic with these slopes is the line itself. So such a curve is the line
between its first and its last key, cubic or not (`samples_on_line`).
-/

namespace ShaderGraph

variable {base slope time : Rat} {interpolation : Interpolation}

/-! ## Keys on a line -/

namespace Key

variable {k l m : Key Rat}

/-- A key lies on the line with a value at zero and a slope. -/
def OnLine (base slope : Rat) (k : Key Rat) : Prop := k.value = base + slope * k.time

instance (base slope : Rat) (k : Key Rat) : Decidable (k.OnLine base slope) :=
  inferInstanceAs (Decidable (_ = _))

/-- A key is so much later than another that the two do not count as one. -/
def Apart (k l : Key Rat) : Prop := 1 / 1000000000 < l.time - k.time

instance (k l : Key Rat) : Decidable (k.Apart l) := inferInstanceAs (Decidable (_ < _))

theorem Apart.trans (hkl : k.Apart l) (hlm : l.Apart m) : k.Apart m := by
  simp only [Apart] at *
  linarith

/-- The slope between two keys on a line is that of the line. -/
theorem slopeTo_of_onLine (hk : k.OnLine base slope) (hl : l.OnLine base slope)
    (hapart : k.Apart l) : k.slopeTo l = slope := by
  have hlong : 1 / 1000000000 < l.time - k.time := hapart
  have hpos : 0 < l.time - k.time := lt_trans (by norm_num) hlong
  have hrise : l.value - k.value = slope * (l.time - k.time) := by
    rw [hk, hl]
    ring
  rw [steepness_eq, steepness, if_pos hlong, hrise, mul_div_cancel_right₀ _ hpos.ne']

end Key

section Slopes

variable {keys : List (Key Rat)}

theorem laterSlopes_of_onLine {before : Key Rat} (hapart : (before :: keys).IsChain Key.Apart)
    (hline : ∀ k ∈ before :: keys, k.OnLine base slope) :
    laterSlopes before keys = List.replicate keys.length slope := by
  induction keys generalizing before with
  | nil => rfl
  | cons key rest ih =>
    obtain ⟨hbefore, hkeys⟩ := List.forall_mem_cons.1 hline
    obtain ⟨hkey, hrest⟩ := List.forall_mem_cons.1 hkeys
    obtain ⟨hfirst, hchain⟩ := List.isChain_cons_cons.1 hapart
    cases rest with
    | nil =>
      rw [laterSlopes, Key.slopeTo_of_onLine hbefore hkey hfirst]
      rfl
    | cons next rest =>
      -- a key inside takes its slope from its two neighbours, which are apart as it is from both
      have hnext : next.OnLine base slope := hrest next List.mem_cons_self
      have hacross : before.Apart next := hfirst.trans (List.isChain_cons_cons.1 hchain).1
      rw [laterSlopes, Key.slopeTo_of_onLine hbefore hnext hacross, ih hchain hkeys]
      rfl

/-- **Keys on a line have its slope**, those at the ends and those inside. -/
theorem slopes_of_onLine (hmany : 2 ≤ keys.length) (hapart : keys.IsChain Key.Apart)
    (hline : ∀ k ∈ keys, k.OnLine base slope) :
    slopes keys = List.replicate keys.length slope := by
  rcases keys with _ | ⟨first, _ | ⟨second, rest⟩⟩
  · simp at hmany
  · simp at hmany
  · have hends : first.slopeTo second = slope :=
      Key.slopeTo_of_onLine (hline first List.mem_cons_self)
        (hline second (List.mem_cons_of_mem _ List.mem_cons_self))
        (List.isChain_cons_cons.1 hapart).1
    rw [slopes, hends, laterSlopes_of_onLine hapart hline]
    rfl

end Slopes

/-! ## Segments on a line -/

namespace Segment

variable {g : Segment Rat}

/-- A segment lies on a line: both its keys do, it has their slope at both, and it has a length. -/
structure OnLine (base slope : Rat) (g : Segment Rat) : Prop where
  start : g.start.OnLine base slope
  stop : g.stop.OnLine base slope
  apart : g.start.Apart g.stop
  startSlope : g.startSlope = slope
  stopSlope : g.stopSlope = slope

/-- **A cubic on a line is the line**, and so is a straight segment. -/
theorem OnLine.valueAt_eq (h : g.OnLine base slope) (hinterpolation : interpolation ≠ .stepped) :
    g.valueAt interpolation time = base + slope * time := by
  have hspan : g.span ≠ 0 := (lt_trans (by norm_num) h.apart).ne'
  have hstop : g.stop.time = g.start.time + g.span := (add_sub_cancel _ _).symm
  have htime : time = g.start.time + (time - g.start.time) / g.span * g.span := by
    rw [div_mul_cancel₀ _ hspan, add_sub_cancel]
  rw [valueAt_of_long h.apart, drawnAt]
  -- everything said by the start, the length and the share of it
  generalize (time - g.start.time) / g.span = s at htime
  have hstart : g.start.value = base + slope * g.start.time := h.start
  have hend : g.stop.value = base + slope * (g.start.time + g.span) := hstop ▸ h.stop
  cases interpolation with
  | stepped => exact absurd rfl hinterpolation
  | linear =>
    rw [point, hstart, hend, htime]
    ring
  | bezier =>
    rw [point, hermite_eq, h.startSlope, h.stopSlope, hstart, hend, htime]
    ring

/-- The segments between points on a line lie on it. -/
theorem onLine_of_mem_segmentsOf {points : List (Key Rat × Rat)}
    (hapart : (points.map Prod.fst).IsChain Key.Apart)
    (hpoints : ∀ p ∈ points, p.1.OnLine base slope ∧ p.2 = slope) (hg : g ∈ segmentsOf points) :
    g.OnLine base slope := by
  induction points with
  | nil => simp [segmentsOf] at hg
  | cons a rest ih =>
    cases rest with
    | nil => simp [segmentsOf] at hg
    | cons b rest =>
      obtain ⟨ha, hrest⟩ := List.forall_mem_cons.1 hpoints
      obtain ⟨hfirst, hchain⟩ := List.isChain_cons_cons.1 hapart
      rw [segmentsOf, List.mem_cons] at hg
      rcases hg with rfl | hg
      · have hb := hrest b List.mem_cons_self
        exact ⟨ha.1, hb.1, hfirst, ha.2, hb.2⟩
      · exact ih hchain hrest hg

theorem onLine_of_mem_segments {keys : List (Key Rat)} (hmany : 2 ≤ keys.length)
    (hapart : keys.IsChain Key.Apart) (hline : ∀ k ∈ keys, k.OnLine base slope)
    (hg : g ∈ segments keys) : g.OnLine base slope := by
  refine onLine_of_mem_segmentsOf (by rwa [map_fst_zip_slopes]) (fun p hp => ?_) hg
  have hslope : p.2 ∈ slopes keys := (List.of_mem_zip hp).2
  rw [slopes_of_onLine hmany hapart hline] at hslope
  exact ⟨hline p.1 (List.of_mem_zip hp).1, List.eq_of_mem_replicate hslope⟩

end Segment

/-! ## Curves on a line -/

namespace Curve

variable {c : Curve Rat} {first last : Key Rat} {rest : List (Key Rat)}

/-- Between its first and its last key a curve on a line is the line. -/
theorem sample_of_onLine (hinterpolation : c.interpolation ≠ .stepped)
    (hkeys : c.sortedKeys = first :: rest) (hlast : (first :: rest).getLast? = some last)
    (hmany : 2 ≤ (first :: rest).length) (hapart : (first :: rest).IsChain Key.Apart)
    (hline : ∀ k ∈ first :: rest, k.OnLine base slope) (hstart : first.time ≤ time)
    (hend : time ≤ last.time) : c.sample time = some (base + slope * time) := by
  rcases hstart.eq_or_lt with heq | hfirst
  · rw [sample_of_le_first hkeys heq.ge, hline first List.mem_cons_self, heq]
  rcases hend.eq_or_lt with heq | hbefore
  · rw [sample_of_last_le hkeys hlast hfirst heq.ge, hline last (List.mem_of_getLast? hlast), heq]
  · obtain ⟨g, hg⟩ := Option.isSome_iff_exists.1 (isSome_segment? hkeys hlast hfirst hbefore)
    have hmem : g ∈ segments (first :: rest) := hkeys ▸ (covers_of_segment? hkeys hstart hg).1
    rw [sample_eq, valueBy_of_sortedKeys hkeys, if_neg (not_le.2 hfirst), hg, Option.map_some,
      Option.getD_some,
      (Segment.onLine_of_mem_segments hmany hapart hline hmem).valueAt_eq hinterpolation]

end Curve

/-- **Cubics reproduce straight lines.** If the keys of a curve, at least two and in any order, lie
on a line, and each is apart from the next one in time, then the slope at every key is that of the
line, and between the first key and the last the curve is the line, whether it is drawn in cubics or
in lines. -/
theorem samples_on_line (base slope : Rat) (keys sorted : List (Key Rat))
    (hsorts : Sorts keys sorted) (hmany : 2 ≤ keys.length) (hapart : sorted.IsChain Key.Apart)
    (hline : ∀ k ∈ keys, k.OnLine base slope) :
    slopes sorted = List.replicate sorted.length slope ∧
    ∃ first last, sorted.head? = some first ∧ sorted.getLast? = some last ∧
      ∀ time, first.time ≤ time → time ≤ last.time →
        (Curve.mk .bezier keys).sample time = some (base + slope * time) ∧
        (Curve.mk .linear keys).sample time = some (base + slope * time) := by
  have hkeys (interpolation : Interpolation) :
      (Curve.mk interpolation keys).sortedKeys = sorted :=
    (Curve.sorts_sortedKeys ⟨interpolation, keys⟩).eq hsorts
  have hlength : sorted.length = keys.length := by
    rw [← hkeys .linear]
    exact (List.mergeSort_perm keys _).length_eq
  have hsorted : ∀ k ∈ sorted, k.OnLine base slope := fun k hk => hline k (hsorts.mem_iff.1 hk)
  rw [← hlength] at hmany
  refine ⟨slopes_of_onLine hmany hapart hsorted, ?_⟩
  rcases sorted with _ | ⟨first, rest⟩
  · simp at hmany
  have hlast : (first :: rest).getLast? = some ((first :: rest).getLast (List.cons_ne_nil _ _)) :=
    List.getLast?_eq_some_getLast _
  refine ⟨first, _, rfl, hlast, fun time hstart hend => ⟨?_, ?_⟩⟩
  · exact Curve.sample_of_onLine (by simp) (hkeys .bezier) hlast hmany hapart hsorted hstart hend
  · exact Curve.sample_of_onLine (by simp) (hkeys .linear) hlast hmany hapart hsorted hstart hend

/-- Three keys on a line, out of order and unevenly spaced. -/
theorem samples_on_line_uneven :
    let keys : List (Key Rat) := [⟨1, 7⟩, ⟨0, 1⟩, ⟨1 / 4, 5 / 2⟩]
    let sorted : List (Key Rat) := [⟨0, 1⟩, ⟨1 / 4, 5 / 2⟩, ⟨1, 7⟩]
    Sorts keys sorted ∧ 2 ≤ keys.length ∧ sorted.IsChain Key.Apart ∧ (∀ k ∈ keys, k.OnLine 1 6) ∧
    (Curve.mk .bezier keys).sample (1 / 2) = some 4 ∧
    (Curve.mk .linear keys).sample (1 / 2) = some 4 := by
  intro keys sorted
  have hsorts : Sorts keys sorted := by
    refine ⟨by decide +kernel, fun t => ?_⟩
    by_cases hone : (1 : Rat) = t
    · subst hone
      decide +kernel
    · simp [keys, sorted, Key.isAt, hone, List.filter_cons]
  have hmany : 2 ≤ keys.length := by decide
  have hapart : sorted.IsChain Key.Apart := by decide +kernel
  have hline : ∀ k ∈ keys, k.OnLine 1 6 := by decide +kernel
  obtain ⟨-, first, last, hfirst, hlast, hsample⟩ :=
    samples_on_line 1 6 keys sorted hsorts hmany hapart hline
  obtain rfl := Option.some.inj hfirst
  obtain rfl := Option.some.inj hlast
  obtain ⟨hbezier, hlinear⟩ := hsample (1 / 2) (by decide +kernel) (by decide +kernel)
  exact ⟨hsorts, hmany, hapart, hline, hbezier.trans (by norm_num), hlinear.trans (by norm_num)⟩

end ShaderGraph
