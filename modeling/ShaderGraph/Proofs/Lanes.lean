import ShaderGraph.Proofs.Evaluators
import Mathlib.Algebra.Order.Field.Basic

/-!
# Values of lanes

A region plays its curve in rounds, each as long as its duration. A time is in one round at most,
and there some share of the round has passed (`Region.InRound`); a region that does not loop plays
its first round only. The time in a region is this share (`Region.localTime_eq_some_iff`), and a
looping region gives the same share a round later.

The first region of a lane that covers a time decides its value there. Values are kept within the
bounds of the parameter, except outside every region: there a lane without a lower bound rests at
zero, wherever the upper bound is.
-/

namespace ShaderGraph

variable {time s : Rat}

/-! ## Rounds -/

namespace Region

variable {r : Region Rat} {round round' : Nat} {s' : Rat}

/-- A share of a round has passed at a time. Only a region that loops has rounds behind the first,
which is round zero. -/
structure InRound (r : Region Rat) (time : Rat) (round : Nat) (s : Rat) : Prop where
  lasting : 0 < r.duration
  once : r.loops = false → round = 0
  nonneg : 0 ≤ s
  lt_one : s < 1
  time_eq : time = r.start + (round + s) * r.duration

/-- A time is in one round only. -/
theorem InRound.unique (h : r.InRound time round s) (h' : r.InRound time round' s') :
    round' = round ∧ s' = s := by
  have hsame : (round' + s') * r.duration = (round + s) * r.duration :=
    add_left_cancel (h'.time_eq.symm.trans h.time_eq)
  have hpassed : (round' + s' : Rat) = round + s := mul_right_cancel₀ h.lasting.ne' hsame
  have hle : (round' : Rat) < round + 1 := by linarith [h'.nonneg, h.lt_one]
  have hge : (round : Rat) < round' + 1 := by linarith [h.nonneg, h'.lt_one]
  have hround : round' = round := by
    have hle : round' < round + 1 := by exact_mod_cast hle
    have hge : round < round' + 1 := by exact_mod_cast hge
    omega
  rw [hround] at hpassed
  exact ⟨hround, add_left_cancel hpassed⟩

theorem InRound.start_le (h : r.InRound time round s) : r.start ≤ time := by
  have hpassed : 0 ≤ (round + s) * r.duration :=
    mul_nonneg (add_nonneg (Nat.cast_nonneg round) h.nonneg) h.lasting.le
  linarith [h.time_eq]

theorem InRound.covers (h : r.InRound time round s) : r.Covers time := by
  refine ⟨h.lasting, h.start_le, ?_⟩
  cases hloops : r.loops with
  | true => exact Or.inl rfl
  | false =>
    refine Or.inr ?_
    have hshare : s * r.duration < 1 * r.duration := mul_lt_mul_of_pos_right h.lt_one h.lasting
    have htime := h.time_eq
    rw [h.once hloops, Nat.cast_zero, zero_add] at htime
    linarith

/-- A time that a region covers is in one of its rounds. -/
theorem exists_inRound (h : r.Covers time) : ∃ round, r.InRound time round (r.share time) := by
  obtain ⟨hduration, hstart, hend⟩ := h
  have hne : r.duration ≠ 0 := hduration.ne'
  have hpassed : 0 ≤ (time - r.start) / r.duration :=
    div_nonneg (sub_nonneg.2 hstart) hduration.le
  cases hloops : r.loops with
  | false =>
    have hbefore : time < r.start + r.duration := hend.resolve_left (by simp [hloops])
    have hshare : r.share time = (time - r.start) / r.duration := by simp [share, hloops]
    refine ⟨0, hduration, fun _ => rfl, hshare ▸ hpassed, ?_, ?_⟩
    · rw [hshare, div_lt_one hduration]
      linarith
    · rw [hshare, Nat.cast_zero, zero_add, div_mul_cancel₀ _ hne]
      ring
  | true =>
    -- the rounds behind are the whole durations in the time that has passed
    obtain ⟨round, hround⟩ : ∃ round : Nat, ((time - r.start) / r.duration).floor = round :=
      Int.eq_ofNat_of_zero_le (Rat.le_floor_iff.2 (by simpa using hpassed))
    have hshare : r.share time = (time - r.start) / r.duration - round := by
      have hremainder : Scalar.remainder (time - r.start) r.duration
          = time - r.start - r.duration * ((time - r.start) / r.duration).floor := rfl
      rw [share, if_pos hloops, hremainder, hround, sub_div, mul_div_cancel_left₀ _ hne]
      rfl
    have hfloor := Rat.floor_le ((time - r.start) / r.duration)
    have hnext := Rat.lt_floor_add_one ((time - r.start) / r.duration)
    rw [hround] at hfloor hnext
    push_cast at hfloor hnext
    refine ⟨round, hduration, by simp [hloops], ?_, ?_, ?_⟩
    · rw [hshare]
      linarith
    · rw [hshare]
      linarith
    · rw [hshare, add_sub_cancel, div_mul_cancel₀ _ hne, add_sub_cancel]

/-- **The time in a region is the share of a round that has passed.** -/
theorem localTime_eq_some_iff : r.localTime time = some s ↔ ∃ round, r.InRound time round s := by
  constructor
  · intro h
    have hcovers : r.Covers time := by
      by_contra hcovers
      rw [localTime_of_not_covers hcovers] at h
      cases h
    rw [localTime_of_covers hcovers] at h
    obtain rfl := Option.some.inj h
    exact exists_inRound hcovers
  · rintro ⟨round, hround⟩
    obtain ⟨round', hshare⟩ := exists_inRound hround.covers
    rw [localTime_of_covers hround.covers, (hround.unique hshare).2]

theorem localTime_eq_none_iff : r.localTime time = none ↔ ¬r.Covers time := by
  refine ⟨fun h hcovers => ?_, localTime_of_not_covers⟩
  rw [localTime_of_covers hcovers] at h
  cases h

/-- A looping region with a duration covers the times from its start on. -/
theorem exists_localTime_iff (hloops : r.loops = true) :
    (∃ s, r.localTime time = some s) ↔ 0 < r.duration ∧ r.start ≤ time := by
  constructor
  · rintro ⟨s, hs⟩
    obtain ⟨round, hround⟩ := localTime_eq_some_iff.1 hs
    exact ⟨hround.lasting, hround.start_le⟩
  · rintro ⟨hduration, hstart⟩
    exact ⟨_, localTime_of_covers ⟨hduration, hstart, Or.inl hloops⟩⟩

/-- Rounds of a looping region later, the same share has passed. -/
theorem InRound.later (h : r.InRound time round s) (hloops : r.loops = true) (k : Nat) :
    r.InRound (time + k * r.duration) (round + k) s where
  lasting := h.lasting
  once := by simp [hloops]
  nonneg := h.nonneg
  lt_one := h.lt_one
  time_eq := by
    rw [h.time_eq]
    push_cast
    ring

/-- **A looping region repeats itself from its start on.** -/
theorem localTime_later (hloops : r.loops = true) (hstart : r.start ≤ time) (k : Nat) :
    r.localTime (time + k * r.duration) = r.localTime time := by
  by_cases hduration : 0 < r.duration
  · obtain ⟨round, hround⟩ := exists_inRound ⟨hduration, hstart, Or.inl hloops⟩
    rw [localTime_eq_some_iff.2 ⟨round, hround⟩,
      localTime_eq_some_iff.2 ⟨_, hround.later hloops k⟩]
  · rw [localTime_of_not_covers fun h => hduration h.1,
      localTime_of_not_covers fun h => hduration h.1]

/-! ## The region that decides -/

variable {regions before after : List (Region Rat)}

/-- The region that covers a time first is behind those that do not. -/
theorem covering?_eq_some_iff : covering? time regions = some (r, s) ↔
    ∃ before after, regions = before ++ r :: after ∧ (∀ q ∈ before, q.localTime time = none) ∧
      r.localTime time = some s := by
  rw [covering?, List.findSome?_eq_some_iff]
  constructor
  · rintro ⟨before, q, after, hsplit, hq, hbefore⟩
    obtain ⟨s', hs', heq⟩ := Option.map_eq_some_iff.1 hq
    obtain ⟨rfl, rfl⟩ := Prod.mk.inj heq
    exact ⟨before, after, hsplit, fun p hp => Option.map_eq_none_iff.1 (hbefore p hp), hs'⟩
  · rintro ⟨before, after, hsplit, hbefore, hs⟩
    refine ⟨before, r, after, hsplit, by rw [hs, Option.map_some], fun p hp => ?_⟩
    rw [hbefore p hp, Option.map_none]

theorem covering?_eq_none_iff :
    covering? time regions = none ↔ ∀ r ∈ regions, r.localTime time = none := by
  simp only [covering?, List.findSome?_eq_none_iff, Option.map_eq_none_iff]

/-- Where no other region covers the time, a region decides alone. -/
theorem covering?_of_alone (hsplit : regions = before ++ r :: after)
    (hothers : ∀ q ∈ before ++ after, q.localTime time = none) :
    covering? time regions = (r.localTime time).map fun s => (r, s) := by
  obtain ⟨hbefore, hafter⟩ := List.forall_mem_append.1 hothers
  cases hr : r.localTime time with
  | some s => exact covering?_eq_some_iff.2 ⟨before, after, hsplit, hbefore, hr⟩
  | none =>
    refine covering?_eq_none_iff.2 ?_
    rw [hsplit]
    exact List.forall_mem_append.2 ⟨hbefore, List.forall_mem_cons.2 ⟨hr, hafter⟩⟩

end Region

/-- A function of the time repeats itself from a time on. -/
def RepeatsFrom (start period : Rat) (f : Rat → Rat) : Prop :=
  ∀ time, start ≤ time → ∀ k : Nat, start ≤ time + k * period → f (time + k * period) = f time

namespace Lane

variable {lane : Lane Rat} {min max : Option Rat}

/-- The value in a region, given the time there. -/
def valueIn (min max : Option Rat) (r : Region Rat) (s : Rat) : Rat :=
  clampWithin min max ((r.curve.sample s).getD (rest min))

theorem evaluate_of_covering? {r : Region Rat}
    (h : Region.covering? time lane.regions = some (r, s)) :
    lane.evaluate time min max = valueIn min max r s := by
  rw [evaluate_eq, h]
  rfl

theorem evaluate_of_uncovered (h : Region.covering? time lane.regions = none) :
    lane.evaluate time min max = rest min := by
  rw [evaluate_eq, h]
  rfl

/-- **The first region that covers a time decides**, and where there is none the lane rests. -/
theorem evaluate_cases (lane : Lane Rat) (time : Rat) (min max : Option Rat) :
    (∃ before r after s, lane.regions = before ++ r :: after ∧
      (∀ q ∈ before, q.localTime time = none) ∧ r.localTime time = some s ∧
      lane.evaluate time min max = valueIn min max r s) ∨
    ((∀ r ∈ lane.regions, r.localTime time = none) ∧ lane.evaluate time min max = rest min) := by
  cases h : Region.covering? time lane.regions with
  | some c =>
    obtain ⟨before, after, hsplit, hbefore, hs⟩ := Region.covering?_eq_some_iff.1 h
    exact Or.inl ⟨before, c.1, after, c.2, hsplit, hbefore, hs, evaluate_of_covering? h⟩
  | none => exact Or.inr ⟨Region.covering?_eq_none_iff.1 h, evaluate_of_uncovered h⟩

/-- Outside every region the lane rests. -/
theorem evaluate_of_not_covers (h : ∀ r ∈ lane.regions, ¬r.Covers time) :
    lane.evaluate time min max = rest min :=
  evaluate_of_uncovered (Region.covering?_eq_none_iff.2 fun r hr =>
    Region.localTime_eq_none_iff.2 (h r hr))

theorem exists_valueIn (lane : Lane Rat) (min max : Option Rat)
    (h : ¬∀ r ∈ lane.regions, ¬r.Covers time) :
    ∃ r s, lane.evaluate time min max = valueIn min max r s := by
  rcases lane.evaluate_cases time min max with ⟨-, r, -, s, -, -, -, hvalue⟩ | ⟨hnone, -⟩
  · exact ⟨r, s, hvalue⟩
  · exact absurd (fun r hr => Region.localTime_eq_none_iff.1 (hnone r hr)) h

/-- A lane that one looping region has to itself from its start on repeats itself from there. -/
theorem repeatsFrom_of_alone {before after : List (Region Rat)} {r : Region Rat}
    (hsplit : lane.regions = before ++ r :: after) (hloops : r.loops = true)
    (hothers : ∀ q ∈ before ++ after, ∀ t, r.start ≤ t → q.localTime t = none) :
    RepeatsFrom r.start r.duration fun t => lane.evaluate t min max := by
  intro t hstart k hlater
  have hnow := Region.covering?_of_alone hsplit fun q hq => hothers q hq t hstart
  have hthen := Region.covering?_of_alone hsplit fun q hq => hothers q hq _ hlater
  rw [Region.localTime_later hloops hstart] at hthen
  show lane.evaluate (t + k * r.duration) min max = lane.evaluate t min max
  rw [evaluate_eq, evaluate_eq, hnow, hthen]

end Lane

/-- **Lanes play their regions in rounds.** The time in a region is the share of a round that has
passed, so there is one only if the region has a duration and has begun, and it is at least zero and
less than one. A looping region with a duration has it from its start on, and rounds later it is the
same. So a lane has the value that the first region covering the time gives, or rests. A lane whose
other regions cover no time from the start of a looping region on repeats itself from there. -/
theorem lane_in_rounds (lane : Lane Rat) (min max : Option Rat) :
    (∀ (r : Region Rat) (t : Rat),
      (∀ s, r.localTime t = some s ↔ ∃ round, r.InRound t round s) ∧
      (∀ s, r.localTime t = some s → 0 < r.duration ∧ r.start ≤ t ∧ 0 ≤ s ∧ s < 1) ∧
      (r.loops = true → ((∃ s, r.localTime t = some s) ↔ 0 < r.duration ∧ r.start ≤ t)) ∧
      (r.loops = true → r.start ≤ t →
        ∀ k : Nat, r.localTime (t + k * r.duration) = r.localTime t)) ∧
    (∀ t, (∃ before r after s, lane.regions = before ++ r :: after ∧
        (∀ q ∈ before, q.localTime t = none) ∧ r.localTime t = some s ∧
        lane.evaluate t min max = Lane.valueIn min max r s) ∨
      ((∀ r ∈ lane.regions, r.localTime t = none) ∧
        lane.evaluate t min max = Lane.rest min)) ∧
    ∀ before r after, lane.regions = before ++ r :: after → r.loops = true →
      (∀ q ∈ before ++ after, ∀ t, r.start ≤ t → q.localTime t = none) →
      RepeatsFrom r.start r.duration fun t => lane.evaluate t min max := by
  refine ⟨fun r t => ⟨fun s => Region.localTime_eq_some_iff, fun s hs => ?_,
    Region.exists_localTime_iff, Region.localTime_later⟩,
    fun t => lane.evaluate_cases t min max, fun before r after => Lane.repeatsFrom_of_alone⟩
  obtain ⟨round, hround⟩ := Region.localTime_eq_some_iff.1 hs
  exact ⟨hround.lasting, hround.start_le, hround.nonneg, hround.lt_one⟩

/-- A lane that plays one curve once and from its end on another one over and over. -/
def Lane.rondo : Lane Rat :=
  ⟨"rondo", "n", "gain", [⟨0, 2, false, ⟨.stepped, [⟨0, 5⟩]⟩⟩,
    ⟨2, 3, true, ⟨.linear, [⟨0, 0⟩, ⟨1, 6⟩]⟩⟩]⟩

/-- A thousand rounds later the lane is where it was, and at the end of a round the next begins. -/
theorem lane_in_rounds_rondo :
    Lane.rondo.evaluate (7 / 2 + (1000 : Nat) * 3) none none
      = Lane.rondo.evaluate (7 / 2) none none ∧
    (⟨2, 3, true, ⟨.linear, [⟨0, 0⟩, ⟨1, 6⟩]⟩⟩ : Region Rat).localTime 5 = some 0 := by
  obtain ⟨hregions, -, hrepeats⟩ := lane_in_rounds .rondo none none
  have hfirst : ∀ q ∈ [(⟨0, 2, false, ⟨.stepped, [⟨0, 5⟩]⟩⟩ : Region Rat)] ++ [],
      ∀ t, 2 ≤ t → q.localTime t = none := by
    intro q hq t ht
    obtain rfl := List.mem_singleton.1 hq
    refine Region.localTime_eq_none_iff.2 fun hcovers => ?_
    have hbefore : t < 0 + 2 := hcovers.2.2.resolve_left Bool.false_ne_true
    linarith
  refine ⟨hrepeats [_] _ [] rfl rfl hfirst (7 / 2) (by norm_num) 1000 (by norm_num), ?_⟩
  exact ((hregions _ _).1 _).2 ⟨1, by norm_num, by simp, by norm_num, by norm_num, by norm_num⟩

/-! ## Bounds -/

section Bounds

variable {min max : Option Rat} {lo hi : Rat}

theorem Scalar.upper_rat (x y : Rat) : upper x y = x ⊔ y := (max_def x y).symm

theorem Scalar.lower_rat (x y : Rat) : lower x y = x ⊓ y := by
  rw [min_comm]
  exact (min_def y x).symm

/-- What is kept within bounds is not above the upper one. -/
theorem clampWithin_le (hmax : hi ∈ max) (value : Rat) : clampWithin min max value ≤ hi := by
  obtain rfl := hmax
  simp only [clampWithin, Scalar.lower_rat]
  exact min_le_right _ _

/-- It is not below the lower one either, unless that is above the upper one. -/
theorem le_clampWithin (hbounds : ∀ hi ∈ max, lo ≤ hi) (hmin : lo ∈ min) (value : Rat) :
    lo ≤ clampWithin min max value := by
  obtain rfl := hmin
  have hraised : lo ≤ Scalar.upper value lo := by
    rw [Scalar.upper_rat]
    exact le_max_right _ _
  cases max with
  | none => exact hraised
  | some hi =>
    simp only [clampWithin, Scalar.lower_rat]
    exact le_min hraised (hbounds hi rfl)

end Bounds

/-- **Lanes stay within the bounds of their parameters, or rest at zero.** A lane is never below the
lower bound. It is above the upper one only if that is negative, there is no lower bound and no
region covers the time. Outside every region it is at the lower bound, or at zero without one. -/
theorem lane_within_bounds (lane : Lane Rat) (t : Rat) (min max : Option Rat)
    (hbounds : ∀ lo ∈ min, ∀ hi ∈ max, lo ≤ hi) :
    (∀ lo ∈ min, lo ≤ lane.evaluate t min max) ∧
    (∀ hi ∈ max, lane.evaluate t min max ≤ hi ↔
      ¬(min = none ∧ hi < 0 ∧ ∀ r ∈ lane.regions, ¬r.Covers t)) ∧
    ((∀ r ∈ lane.regions, ¬r.Covers t) → lane.evaluate t min max = min.getD 0) := by
  by_cases hoff : ∀ r ∈ lane.regions, ¬r.Covers t
  · rw [Lane.evaluate_of_not_covers hoff]
    cases min with
    | none =>
      refine ⟨fun lo hlo => absurd hlo (by simp), fun hi _ => ⟨fun hle hrests => ?_, fun h => ?_⟩,
        fun _ => rfl⟩
      · exact absurd hrests.2.1 (not_lt.2 hle)
      · exact not_lt.1 fun hneg => h ⟨rfl, hneg, hoff⟩
    | some lo =>
      refine ⟨fun lo' hlo => ?_, fun hi hhi => ⟨fun _ hrests => ?_, fun _ => ?_⟩, fun _ => rfl⟩
      · exact (Option.some.inj hlo).ge
      · cases hrests.1
      · exact hbounds lo rfl hi hhi
  · -- in a region the value has gone through the bounds
    obtain ⟨r, s, hvalue⟩ := lane.exists_valueIn min max hoff
    rw [hvalue]
    refine ⟨fun lo hlo => le_clampWithin (hbounds lo hlo) hlo _, fun hi hhi => ?_,
      fun h => absurd h hoff⟩
    exact ⟨fun _ h => hoff h.2.2, fun _ => clampWithin_le hhi _⟩

/-- The bounds hold in the middle of a round, where the curve is above them. -/
theorem lane_within_bounds_rondo :
    (∀ lo ∈ some (1 : Rat), ∀ hi ∈ some 4, lo ≤ hi) ∧
    1 ≤ Lane.rondo.evaluate (19 / 4) (some 1) (some 4) ∧
    Lane.rondo.evaluate (19 / 4) (some 1) (some 4) ≤ 4 ∧
    Lane.rondo.evaluate (-1) (some 1) (some 4) = 1 := by
  have hbounds : ∀ lo ∈ some (1 : Rat), ∀ hi ∈ some 4, lo ≤ hi := by
    rintro lo ⟨⟩ hi ⟨⟩
    norm_num
  obtain ⟨hlower, hupper, -⟩ := lane_within_bounds .rondo (19 / 4) _ _ hbounds
  obtain ⟨-, -, hrest⟩ := lane_within_bounds .rondo (-1) _ _ hbounds
  refine ⟨hbounds, hlower 1 rfl, (hupper 4 rfl).2 fun h => ?_, hrest ?_⟩
  · cases h.1
  · decide +kernel

/-- Before its first region the lane is at zero, above an upper bound that is negative. -/
theorem lane_above_bound : Lane.rondo.evaluate (-1) none (some (-2)) = 0 ∧
    ¬Lane.rondo.evaluate (-1) none (some (-2)) ≤ -2 := by
  decide +kernel

end ShaderGraph
