import ShaderGraph.Timeline.Scalar

/-!
# Curves

A curve is a list of keys in any order. Between two neighbouring keys its value is held, runs in a
straight line, or follows a cubic whose slope at a key is the slope between that key's neighbours.
Before the first key and after the last the curve is constant.

The keys in ascending order of time, keys at one time in the order given, are cut into segments.
Sampling looks for the first segment that ends after the time asked for.
-/

namespace ShaderGraph

/-- How a curve runs between two keys. -/
inductive Interpolation where
  | linear
  | stepped
  | bezier
deriving DecidableEq, Repr

/-- The name of the interpolation in documents. -/
def Interpolation.name : Interpolation → String
  | .linear => "linear"
  | .stepped => "stepped"
  | .bezier => "bezier"

/-- All interpolations. -/
def Interpolation.all : List Interpolation := [.linear, .stepped, .bezier]

variable {α : Type}

/-- A value at a time. -/
structure Key (α : Type) where
  time : α
  value : α
deriving DecidableEq

/-- The part of a curve between two neighbouring keys, with the slopes at both. -/
structure Segment (α : Type) where
  start : Key α
  stop : Key α
  startSlope : α
  stopSlope : α

/-- A value that changes over time. -/
structure Curve (α : Type) where
  interpolation : Interpolation
  keys : List (Key α)
deriving DecidableEq

variable [Scalar α]

open Scalar (ofNat negligible lt le sortsBefore)

/-- The slope from one key to another, zero where they are hardly apart. -/
def Key.slopeTo (a b : Key α) : α :=
  let span := b.time - a.time
  if lt negligible span then (b.value - a.value) / span else ofNat 0

/-- The slopes at the keys after a first one: between the neighbours of each, and from the one
before to the last. -/
def laterSlopes (before : Key α) : List (Key α) → List α
  | [] => []
  | [last] => [before.slopeTo last]
  | key :: next :: rest => before.slopeTo next :: laterSlopes key (next :: rest)

/-- The slope at each key, by its neighbours. -/
def slopes : List (Key α) → List α
  | [] => []
  | [_] => [ofNat 0]
  | first :: second :: rest => first.slopeTo second :: laterSlopes first (second :: rest)

/-- The segments of keys that carry their slopes. -/
def segmentsOf : List (Key α × α) → List (Segment α)
  | a :: b :: rest => ⟨a.1, b.1, a.2, b.2⟩ :: segmentsOf (b :: rest)
  | _ => []

/-- The segments between keys in order. -/
def segments (keys : List (Key α)) : List (Segment α) :=
  segmentsOf (keys.zip (slopes keys))

/-- The cubic with values `v0` and `v1` and slopes `m0` and `m1` at zero and one. -/
def hermite (v0 v1 m0 m1 s : α) : α :=
  let s2 := s * s
  let s3 := s2 * s
  (ofNat 2 * s3 - ofNat 3 * s2 + ofNat 1) * v0
    + (s3 - ofNat 2 * s2 + s) * m0
    + (-ofNat 2 * s3 + ofNat 3 * s2) * v1
    + (s3 - s2) * m1

namespace Segment

/-- The time that a segment takes. -/
def span (g : Segment α) : α := g.stop.time - g.start.time

/-- How far through the segment a time is, zero where the segment has hardly any length. -/
def progress (g : Segment α) (time : α) : α :=
  if lt negligible g.span then (time - g.start.time) / g.span else ofNat 0

/-- The value of a segment at a time in it. -/
def valueAt (g : Segment α) (interpolation : Interpolation) (time : α) : α :=
  let s := g.progress time
  match interpolation with
  | .stepped => g.start.value
  | .linear => g.start.value + (g.stop.value - g.start.value) * s
  | .bezier => hermite g.start.value g.stop.value (g.startSlope * g.span) (g.stopSlope * g.span) s

end Segment

namespace Curve

/-- The keys in ascending order of time; keys at one time keep their order. -/
def sortedKeys (c : Curve α) : List (Key α) :=
  c.keys.mergeSort fun a b => sortsBefore a.time b.time

/-- The value between the first and the last of the sorted keys. -/
def between (interpolation : Interpolation) (keys : List (Key α)) (last : Key α) (time : α) : α :=
  match (segments keys).find? fun g => !le g.stop.time time with
  | some g => g.valueAt interpolation time
  | none => last.value

/-- The value at a time, none for a curve without keys. -/
def sample (c : Curve α) (time : α) : Option α :=
  match c.sortedKeys with
  | [] => none
  | [only] => some only.value
  | first :: second :: rest =>
    let last := (second :: rest).getLastD second
    if le time first.time then some first.value
    else if le last.time time then some last.value
    else some (between c.interpolation (first :: second :: rest) last time)

end Curve

end ShaderGraph
