import ShaderGraph.Emit.Evaluator
import ShaderGraph.Proofs.Sampling

/-!
# Evaluators and lanes

A lane is evaluated on the host and by the function that is written for it. The two look for the
segment of a time in different ways: the host takes the first segment that ends after the time, and
the function tries the segments that have any length, in order. Both find the segment that covers
the time, so they can differ on it alone.

There they differ in one point. The host takes a segment for empty that is no longer than
`Scalar.negligible`, and holds its first value; the function draws the line or the cubic on every
segment that has a length. So over exact numbers they agree at every time that does not lie strictly
inside such a segment (`Evaluator.run_eq_evaluate`).
-/

namespace ShaderGraph

open Glsl (Expr Stmt Env runAll)

variable {time : Rat} {interpolation : Interpolation} {env : Env Rat}

/-! ## The time in a region -/

namespace Region

variable {r : Region Rat}

/-- A region with a duration covers the times from its start on, up to its end or without one. -/
def Covers (r : Region Rat) (time : Rat) : Prop :=
  0 < r.duration ∧ r.start ≤ time ∧ (r.loops = true ∨ time < r.start + r.duration)

instance (r : Region Rat) (time : Rat) : Decidable (r.Covers time) :=
  inferInstanceAs (Decidable (_ ∧ _ ∧ _))

/-- How far through its region a time is. -/
def share (r : Region Rat) (time : Rat) : Rat :=
  if r.loops then Scalar.remainder (time - r.start) r.duration / r.duration
  else (time - r.start) / r.duration

theorem localTime_of_covers (h : r.Covers time) : r.localTime time = some (r.share time) := by
  obtain ⟨hduration, hstart, hend⟩ := h
  have hbegun : ¬time - r.start < 0 := not_lt.2 (sub_nonneg.2 hstart)
  rw [localTime, share, if_neg (by simpa [hasDuration, hduration] using hbegun)]
  cases hloops : r.loops with
  | true => rfl
  | false =>
    have hover : ¬r.duration ≤ time - r.start := by
      have := hend.resolve_left (by simp [hloops])
      linarith
    simp [hover]

theorem localTime_of_not_covers (h : ¬r.Covers time) : r.localTime time = none := by
  by_cases hbegun : 0 < r.duration ∧ r.start ≤ time
  · have hend : r.loops = false ∧ r.start + r.duration ≤ time := by
      simpa [Covers, hbegun.1, hbegun.2] using h
    have hover : r.duration ≤ time - r.start := by linarith [hend.2]
    simp [localTime, hend.1, hover]
  · have hbefore : 0 < r.duration → time < r.start := by simpa using hbegun
    rw [localTime, if_pos]
    by_cases hduration : 0 < r.duration
    · simp [hbefore hduration]
    · simp [hasDuration, hduration]

/-- The first region of a list that covers a time, with the time in it. -/
def covering? (time : Rat) (regions : List (Region Rat)) : Option (Region Rat × Rat) :=
  regions.findSome? fun r => (r.localTime time).map fun s => (r, s)

end Region

/-! ## Statements one after another -/

namespace Glsl

variable {after : Env Rat} {value : Rat} {first rest : List (Stmt Rat)}

theorem runAll_append_of_next (h : runAll env first = .next after) :
    runAll env (first ++ rest) = runAll after rest := by
  induction first generalizing env with
  | nil =>
    rw [runAll, Outcome.next.injEq] at h
    rw [h, List.nil_append]
  | cons s more ih =>
    rw [List.cons_append, runAll]
    rw [runAll] at h
    split at h
    · exact ih h
    · cases h

theorem runAll_append_of_returned (h : runAll env first = .returned value) :
    runAll env (first ++ rest) = .returned value := by
  induction first generalizing env with
  | nil =>
    rw [runAll] at h
    cases h
  | cons s more ih =>
    rw [List.cons_append, runAll]
    rw [runAll] at h
    split at h
    · exact ih h
    · exact h

theorem runAll_singleton (env : Env Rat) (s : Stmt Rat) : runAll env [s] = s.run env := by
  rw [runAll]
  cases s.run env with
  | next after => simp only [runAll]
  | returned value => rfl

end Glsl

namespace Evaluator

/-! ## The value of a curve -/

/-- Statements end with a value in the variable for the curve. -/
def Leaves (env : Env Rat) (body : List (Stmt Rat)) (value : Rat) : Prop :=
  ∃ after, runAll env body = .next after ∧ after "v" = value

theorem leaves_choose {test : Glsl.Test Rat} {body otherwise : List (Stmt Rat)} {value : Rat}
    (h : Leaves env (if test.holds env then body else otherwise) value) :
    Leaves env [.choose test body otherwise] value := by
  obtain ⟨after, hrun, hvalue⟩ := h
  refine ⟨after, ?_, hvalue⟩
  rw [Glsl.runAll_singleton, Stmt.run, ← hrun]
  split <;> rfl

theorem eval_clamped (env : Env Rat) (min max : Option Rat) (e : Expr Rat) :
    (clamped min max e).eval env = clampWithin min max (e.eval env) := by
  cases min <;> cases max <;> rfl

theorem eval_share (g : Segment Rat) (h : env "localT" = time) :
    (share g).eval env = (time - g.start.time) / g.span := by
  rw [← h]
  rfl

/-- The cubic is written as it is computed on the host. -/
theorem eval_cubic {g : Segment Rat} (hs : env "s" = (time - g.start.time) / g.span)
    (hsquare : env "s2" = env "s" * env "s") (hcube : env "s3" = env "s2" * env "s") :
    (cubic g).eval env = g.drawnAt .bezier time := by
  rw [Segment.drawnAt, ← hs]
  simp only [Segment.point, hermite, ← hsquare, ← hcube]
  rfl

/-- On a segment the function draws its value. -/
theorem leaves_segmentBody (interpolation : Interpolation) (g : Segment Rat)
    (h : env "localT" = time) :
    Leaves env (segmentBody interpolation g) (g.drawnAt interpolation time) := by
  cases interpolation with
  | stepped => exact ⟨_, rfl, rfl⟩
  | linear =>
    have hmix : ∀ a b w : Rat, a * (1 - w) + b * w = a + (b - a) * w := fun a b w => by ring
    refine ⟨_, rfl, ?_⟩
    rw [Env.set, if_pos rfl, Expr.eval, eval_share g h]
    exact hmix _ _ _
  | bezier => exact ⟨_, rfl, eval_cubic (eval_share g h) rfl rfl⟩

/-- The chain finds the first segment with a length that ends after the time. -/
theorem leaves_segmentChain (interpolation : Interpolation) (gs : List (Segment Rat))
    (h : env "localT" = time) :
    Leaves env (segmentChain interpolation gs)
      (((gs.find? fun g => decide (0 < g.span ∧ time < g.stop.time)).map
        fun g => g.drawnAt interpolation time).getD (env "v")) := by
  induction gs with
  | nil => exact ⟨env, rfl, rfl⟩
  | cons g rest ih =>
    rw [segmentChain]
    by_cases hspan : g.span ≤ 0
    · rw [if_pos (by simpa using hspan), List.find?_cons_of_neg (by simp [hspan])]
      exact ih
    · have htest : (Glsl.Test.less progress (.literal g.stop.time)).holds env
          = decide (time < g.stop.time) := by
        rw [← h]
        rfl
      rw [if_neg (by simpa using hspan)]
      refine leaves_choose ?_
      rw [htest]
      by_cases hends : time < g.stop.time
      · rw [if_pos (decide_eq_true hends),
          List.find?_cons_of_pos (by simp [not_le.1 hspan, hends])]
        exact leaves_segmentBody interpolation g h
      · rw [if_neg (by simpa using hends), List.find?_cons_of_neg (by simp [hends])]
        exact ih

/-- Behind the first key the chain leaves the value of the segment that covers the time. -/
theorem leaves_segmentChain_segments {c : Curve Rat} {first : Key Rat} {rest : List (Key Rat)}
    (hkeys : c.sortedKeys = first :: rest) (hfirst : first.time ≤ time)
    (h : env "localT" = time) :
    Leaves env (segmentChain c.interpolation (segments (first :: rest)))
      (((c.segment? time).map fun g => g.drawnAt c.interpolation time).getD (env "v")) := by
  have hfound : (segments (first :: rest)).find?
      (fun g => decide (0 < g.span ∧ time < g.stop.time)) = c.segment? time :=
    Curve.find?_skipping hkeys hfirst
  rw [← hfound]
  exact leaves_segmentChain c.interpolation _ h

/-- Up to the first key the conditions leave its value, behind it what the segment that covers the
time draws, and where there is none they leave the variable alone. -/
theorem leaves_conditions {c : Curve Rat} {first : Key Rat} {rest : List (Key Rat)}
    (hkeys : c.sortedKeys = first :: rest) (h : env "localT" = time) :
    Leaves env [.choose (.atMost progress (.literal first.time))
        [.assign "v" (.literal first.value)]
        (segmentChain c.interpolation (segments (first :: rest)))]
      (if time ≤ first.time then first.value
        else ((c.segment? time).map fun g => g.drawnAt c.interpolation time).getD (env "v")) := by
  have htest : (Glsl.Test.atMost progress (.literal first.time)).holds env
      = decide (time ≤ first.time) := by
    rw [← h]
    rfl
  refine leaves_choose ?_
  rw [htest]
  by_cases hfirst : time ≤ first.time
  · rw [if_pos hfirst, if_pos (decide_eq_true hfirst)]
    exact ⟨_, rfl, rfl⟩
  · rw [if_neg hfirst, if_neg (by simpa using hfirst)]
    exact leaves_segmentChain_segments hkeys (not_le.1 hfirst).le h

/-- The statements for a curve return the value of the curve, within the bounds. -/
theorem run_curveBody (min max : Option Rat) (c : Curve Rat) (h : env "localT" = time) :
    runAll env (curveBody min max c) = .returned (clampWithin min max
      ((c.valueBy (fun g => g.drawnAt c.interpolation time) time).getD (Lane.rest min))) := by
  cases hkeys : c.sortedKeys with
  | nil =>
    simp only [curveBody, Curve.valueBy, hkeys, Glsl.runAll_singleton, Stmt.run, eval_clamped]
    rfl
  | cons first rest =>
    let last := ((first :: rest).getLastD first).value
    have hbody : curveBody min max c = [.declare "v" (.literal last)]
        ++ ([.choose (.atMost progress (.literal first.time)) [.assign "v" (.literal first.value)]
          (segmentChain c.interpolation (segments (first :: rest)))]
        ++ [.give (clamped min max current)]) := by
      simp only [curveBody, hkeys]
      rfl
    have hdeclare : runAll env [.declare "v" (.literal last)] = .next (env.set "v" last) := rfl
    obtain ⟨after, hrun, hvalue⟩ := @leaves_conditions time (env.set "v" last) c first rest hkeys h
    have hcurrent : current.eval after = after "v" := rfl
    rw [hbody, Glsl.runAll_append_of_next hdeclare, Glsl.runAll_append_of_next hrun,
      Glsl.runAll_singleton, Stmt.run, eval_clamped, hcurrent, hvalue,
      Curve.valueBy_of_sortedKeys hkeys]
    rfl

/-! ## Regions and lanes -/

/-- The test for a region holds at the times that the region covers. -/
theorem holds_regionTest {r : Region Rat} (hr : 0 < r.duration) (h : env "t" = time) :
    (regionTest r).holds env = true ↔ r.Covers time := by
  rw [← h, regionTest, Region.Covers]
  cases r.loops with
  | true => simp [hr, Glsl.Test.holds, Expr.eval, Evaluator.time]
  | false => simp [hr, Glsl.Test.holds, Expr.eval, Evaluator.time]

/-- The function computes how far through its region the time is. -/
theorem eval_regionTime (r : Region Rat) (h : env "t" = time) :
    (regionTime r).eval env = r.share time := by
  rw [← h, regionTime, Region.share]
  cases r.loops <;> rfl

/-- The value of a lane in a region, given the time there: what the function draws. -/
def drawn (min max : Option Rat) (r : Region Rat) (s : Rat) : Rat :=
  clampWithin min max
    ((r.curve.valueBy (fun g => g.drawnAt r.curve.interpolation s) s).getD (Lane.rest min))

/-- The statement for a region that does not cover the time does nothing. -/
theorem run_regionBlock_of_not_covers (min max : Option Rat) {r : Region Rat}
    (hr : 0 < r.duration) (hcovers : ¬r.Covers time) (h : env "t" = time) :
    runAll env [regionBlock min max r] = .next env := by
  have htest : ¬(regionTest r).holds env = true := mt (holds_regionTest hr h).1 hcovers
  rw [Glsl.runAll_singleton, regionBlock, Stmt.run, if_neg htest, runAll]

/-- The statement for a region that covers the time returns what it draws. -/
theorem run_regionBlock_of_covers (min max : Option Rat) {r : Region Rat}
    (hcovers : r.Covers time) (h : env "t" = time) :
    runAll env [regionBlock min max r] = .returned (drawn min max r (r.share time)) := by
  have htest : (regionTest r).holds env = true := (holds_regionTest hcovers.1 h).2 hcovers
  have hdeclare : runAll env [.declare "localT" (regionTime r)]
      = .next (env.set "localT" (r.share time)) := by
    rw [← eval_regionTime r h]
    rfl
  rw [Glsl.runAll_singleton, regionBlock, Stmt.run, if_pos htest, ← List.singleton_append,
    Glsl.runAll_append_of_next hdeclare]
  exact run_curveBody min max r.curve rfl

/-- The statements for regions return what the first covering region draws. -/
theorem run_regionBlocks (min max : Option Rat) (regions : List (Region Rat)) (h : env "t" = time) :
    runAll env ((regions.filter (·.hasDuration)).map (regionBlock min max)
        ++ [.give (.literal (Lane.rest min))])
      = .returned (((Region.covering? time regions).map fun c => drawn min max c.1 c.2).getD
        (Lane.rest min)) := by
  induction regions with
  | nil => rfl
  | cons r more ih =>
    by_cases hcovers : r.Covers time
    · have hfound : Region.covering? time (r :: more) = some (r, r.share time) := by
        rw [Region.covering?, List.findSome?_cons, Region.localTime_of_covers hcovers]
        rfl
      have hduration : r.hasDuration = true := by simp [Region.hasDuration, hcovers.1]
      rw [hfound, List.filter_cons_of_pos hduration, List.map_cons, List.cons_append,
        ← List.singleton_append, Glsl.runAll_append_of_returned
          (run_regionBlock_of_covers min max hcovers h)]
      rfl
    · have hskip : Region.covering? time (r :: more) = Region.covering? time more := by
        rw [Region.covering?, List.findSome?_cons, Region.localTime_of_not_covers hcovers]
        rfl
      rw [hskip, List.filter_cons]
      split
      · rename_i hduration
        have hr : 0 < r.duration := by simpa [Region.hasDuration] using hduration
        rw [List.map_cons, List.cons_append, ← List.singleton_append,
          Glsl.runAll_append_of_next (run_regionBlock_of_not_covers min max hr hcovers h)]
        exact ih
      · exact ih

/-- What the function of a lane gives. -/
theorem run_ofLane (lane : Lane Rat) (min max : Option Rat) (t : Rat) :
    (ofLane lane min max).run t = some (((Region.covering? t lane.regions).map
      fun c => drawn min max c.1 c.2).getD (Lane.rest min)) := by
  have hrun := @run_regionBlocks t (fun name => if name = "t" then t else Scalar.ofNat 0) min max
    lane.regions rfl
  rw [run, ofLane, hrun]

end Evaluator

/-- What the host gives. -/
theorem Lane.evaluate_eq (lane : Lane Rat) (t : Rat) (min max : Option Rat) :
    lane.evaluate t min max = ((Region.covering? t lane.regions).map
      fun c => clampWithin min max ((c.1.curve.sample c.2).getD (rest min))).getD (rest min) := by
  rw [evaluate]
  induction lane.regions with
  | nil => rfl
  | cons r more ih =>
    rw [evaluateRegions, Region.covering?, List.findSome?_cons]
    cases r.localTime t with
    | some s => rfl
    | none => exact ih

/-- On its segment the host gives what the function draws, or the time lies in a segment that counts
as empty. -/
theorem Curve.sample_eq_drawn {c : Curve Rat}
    (h : ∀ g ∈ segments c.sortedKeys, ¬g.Glossed c.interpolation time) :
    c.sample time = c.valueBy (fun g => g.drawnAt c.interpolation time) time := by
  rw [sample_eq]
  cases hkeys : c.sortedKeys with
  | nil => simp only [valueBy, hkeys]
  | cons first rest =>
    rw [valueBy_of_sortedKeys hkeys, valueBy_of_sortedKeys hkeys]
    by_cases hfirst : time ≤ first.time
    · rw [if_pos hfirst, if_pos hfirst]
    · rw [if_neg hfirst, if_neg hfirst]
      cases hg : c.segment? time with
      | none => rfl
      | some g =>
        obtain ⟨hmem, hcovers⟩ := covers_of_segment? hkeys (not_le.1 hfirst).le hg
        rw [Option.map_some, Option.map_some, Segment.valueAt_eq_drawnAt hcovers (h g hmem)]

namespace Evaluator

variable {lane : Lane Rat} {min max : Option Rat} {t : Rat}

/-- **The function of a lane gives what the lane gives**, over exact numbers and for all regions,
keys and bounds, where the time lies in no segment that counts as empty. -/
theorem run_eq_evaluate (h : ∀ r s, Region.covering? t lane.regions = some (r, s) →
      ∀ g ∈ segments r.curve.sortedKeys, ¬g.Glossed r.curve.interpolation s) :
    (ofLane lane min max).run t = some (lane.evaluate t min max) := by
  rw [run_ofLane, lane.evaluate_eq]
  cases hcovering : Region.covering? t lane.regions with
  | none => rfl
  | some c =>
    rw [Option.map_some, Option.map_some, Curve.sample_eq_drawn (h c.1 c.2 hcovering)]
    rfl

/-- Strictly inside such a segment the lane holds its first value, and the function gives a point on
the line or the cubic through its ends. -/
theorem run_of_glossed {r : Region Rat} {s : Rat} {g : Segment Rat}
    (hcovering : Region.covering? t lane.regions = some (r, s))
    (hg : g ∈ segments r.curve.sortedKeys) (hglossed : g.Glossed r.curve.interpolation s) :
    lane.evaluate t min max = clampWithin min max g.start.value ∧
      (ofLane lane min max).run t
        = some (clampWithin min max (g.drawnAt r.curve.interpolation s)) := by
  obtain ⟨-, hstart, hstop, hshort⟩ := hglossed
  rw [run_ofLane, lane.evaluate_eq]
  simp only [hcovering, Option.map_some, Option.getD_some, drawn, Curve.sample_eq,
    Curve.valueBy_of_mem hg hstart hstop, Segment.valueAt_of_short hshort, and_self]

end Evaluator

end ShaderGraph
