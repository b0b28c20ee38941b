import ShaderGraph.Proofs.Edges
import Mathlib.Data.List.Nodup

/-!
# Taking out free nodes, step by step

`drain` takes nodes out of a queue and lowers the degrees of their targets. Here its run is cut into
its smallest steps: either the degree of one target is lowered, or the next node is taken out.
`Sound` is what every state of a run satisfies: the degree of a node is the number of its sources
still waiting, plus one while it is itself still to be lowered. From this it follows that no degree
is lowered below zero, that no node joins the queue twice, and that in the end a node is placed
exactly if all its sources are (`Sound.mem_placed_iff`), and after them.
-/

namespace ShaderGraph

open Relation

variable {edges : Edges} {id other : String}

/-! ## Degrees -/

namespace Degrees

/-- Lowering a degree changes that of the one node only. -/
theorem lookup_lower (degrees : Degrees) :
    (lower id degrees).1.lookup other =
      if other = id then (degrees.lookup id).map (· - 1) else degrees.lookup other := by
  induction degrees with
  | nil => simp [lower]
  | cons entry rest ih =>
    obtain ⟨key, degree⟩ := entry
    rw [lower]
    by_cases hkey : key = id
    · subst hkey
      by_cases h : other = key <;> simp [lookup_cons, h]
    · rw [if_neg hkey, lookup_cons, lookup_cons, lookup_cons, ih, if_neg (Ne.symm hkey)]
      by_cases h : other = key
      · subst h
        simp [hkey]
      · simp [h]

/-- A node is freed if one source was left. -/
theorem lower_frees (degrees : Degrees) :
    (lower id degrees).2 = true ↔ degrees.lookup id = some 1 := by
  induction degrees with
  | nil => simp [lower]
  | cons entry rest ih =>
    obtain ⟨key, degree⟩ := entry
    rw [lower]
    by_cases hkey : key = id
    · subst hkey
      simp
    · rw [if_neg hkey, lookup_cons, if_neg (Ne.symm hkey), ih]

end Degrees

/-! ## Sources that are still waiting -/

/-- The number of sources of a node that are not yet placed. -/
def waiting (edges : Edges) (placed : List String) (id : String) : Nat :=
  (edges.sourcesOf id).countP fun u => !placed.contains u

theorem waiting_nil (edges : Edges) (id : String) :
    waiting edges [] id = (edges.sourcesOf id).length := by
  simp [waiting]

theorem waiting_eq_zero {placed : List String} :
    waiting edges placed id = 0 ↔ ∀ u ∈ edges.sourcesOf id, u ∈ placed := by
  simp [waiting]

/-- In a list without repetitions, one element more that counts as placed is one fewer that is
waiting. -/
theorem countP_append_singleton {placed items : List String} {u : String} (hu : u ∉ placed)
    (h : items.Nodup) :
    items.countP (fun x => !(placed ++ [u]).contains x) + (if u ∈ items then 1 else 0)
      = items.countP fun x => !placed.contains x := by
  induction items with
  | nil => rfl
  | cons x rest ih =>
    obtain ⟨hx, hrest⟩ := List.nodup_cons.1 h
    have ih := ih hrest
    rw [List.countP_cons, List.countP_cons]
    by_cases hxu : x = u
    · -- the new element stands here, and nowhere in the rest
      subst hxu
      rw [if_neg hx] at ih
      simp [hu] at ih ⊢
      omega
    · have hmem : (u ∈ x :: rest) = (u ∈ rest) := by simp [Ne.symm hxu]
      have hplaced : (placed ++ [u]).contains x = placed.contains x := by simp [hxu]
      rw [hplaced]
      simp only [hmem]
      omega

/-- **Placing a node takes one source from each of its targets.** -/
theorem waiting_append {placed : List String} {u : String} (hu : u ∉ placed) (id : String) :
    waiting edges (placed ++ [u]) id + (edges.targetsOf u).count id = waiting edges placed id := by
  rw [(edges.nodup_targetsOf u).count, waiting, waiting,
    ← countP_append_singleton hu (edges.nodup_sourcesOf id)]
  simp only [Edges.mem_targetsOf_iff_mem_sourcesOf]

/-! ## Sources before targets -/

/-- The sources of every listed node stand before it. -/
def Edges.Ordered (edges : Edges) (placed : List String) : Prop :=
  ∀ before id after, placed = before ++ id :: after → ∀ u ∈ edges.sourcesOf id, u ∈ before

theorem Edges.Ordered.nil (edges : Edges) : edges.Ordered [] := by
  intro before id after h
  simp at h

/-- Nodes may follow whose sources are all listed. -/
theorem Edges.Ordered.append {placed rest : List String} (h : edges.Ordered placed)
    (hrest : ∀ id ∈ rest, ∀ u ∈ edges.sourcesOf id, u ∈ placed) :
    edges.Ordered (placed ++ rest) := by
  intro before id after heq u hu
  -- the node stands among the new ones, or it did before
  rcases List.append_eq_append_iff.1 heq with ⟨mid, rfl, rfl⟩ | ⟨mid, rfl, hmid⟩
  · exact List.mem_append_left mid (hrest id (by simp) u hu)
  · cases mid with
    | nil =>
      rw [List.nil_append] at hmid
      simpa using hrest id (hmid ▸ List.mem_cons_self) u hu
    | cons x mid =>
      obtain ⟨rfl, -⟩ := List.cons.inj hmid
      exact h before id mid rfl u hu

/-! ## States and steps -/

/-- A state of the loop. -/
structure DrainState where
  degrees : Degrees
  placed : List String
  /-- The targets of the node placed last whose degrees are still to be lowered. -/
  pending : List String
  queue : List String

namespace DrainState

/-- All that ever joined the queue, in the order in which it did: a node leaves the queue at the
front and is placed at once. -/
def queued (s : DrainState) : List String := s.placed ++ s.queue

theorem queued_eq_placed {s : DrainState} (h : s.queue = []) : s.queued = s.placed := by
  rw [queued, h, List.append_nil]

/-- One step of the loop. -/
inductive Step (edges : Edges) : DrainState → DrainState → Prop where
  /-- Lowers the degree of a target, which joins the queue if that frees it. -/
  | lower (degrees : Degrees) (placed : List String) (id : String) (rest queue : List String) :
      Step edges ⟨degrees, placed, id :: rest, queue⟩
        ⟨(degrees.lower id).1, placed, rest, if (degrees.lower id).2 then queue ++ [id] else queue⟩
  /-- Takes the next node out of the queue. -/
  | take (degrees : Degrees) (placed : List String) (id : String) (queue : List String) :
      Step edges ⟨degrees, placed, [], id :: queue⟩
        ⟨degrees, placed ++ [id], edges.targetsOf id, queue⟩

/-- The states of a run from a state. -/
abbrev Reaches (edges : Edges) : DrainState → DrainState → Prop := ReflTransGen (Step edges)

/-- Releasing nodes lowers their degrees one after the other. -/
theorem reaches_release (degrees : Degrees) (placed ids queue : List String) :
    Reaches edges ⟨degrees, placed, ids, queue⟩
      ⟨(degrees.release ids queue).1, placed, [], (degrees.release ids queue).2⟩ := by
  induction ids generalizing degrees queue with
  | nil => exact .refl
  | cons id rest ih => exact .head (.lower degrees placed id rest queue) (ih _ _)

/-- **The loop is the run of its steps**: it ends with nothing pending and an empty queue, and what
it gives is what is placed there. -/
theorem reaches_drain (edges : Edges) (degrees : Degrees) (placed queue : List String) :
    ∃ rest, Reaches edges ⟨degrees, placed, [], queue⟩
      ⟨rest, drain edges degrees placed queue, [], []⟩ := by
  fun_induction drain edges degrees placed queue with
  | case1 degrees placed => exact ⟨degrees, .refl⟩
  | case2 degrees placed id queue released ih =>
    -- one node is taken out, then its targets are lowered, and the loop goes on from there
    obtain ⟨rest, hrest⟩ := ih
    refine ⟨rest, .head (.take degrees placed id queue) ?_⟩
    exact (reaches_release degrees (placed ++ [id]) (edges.targetsOf id) queue).trans hrest

/-! ## What every state satisfies -/

/-- What holds of every state of a run. `members` are the nodes that may join the queue. -/
structure Sound (edges : Edges) (members : List String) (s : DrainState) : Prop where
  queued_nodup : s.queued.Nodup
  queued_subset : ∀ id ∈ s.queued, id ∈ members
  pending_nodup : s.pending.Nodup
  pending_subset : ∀ id ∈ s.pending, id ∈ members
  /-- A degree counts the sources that are waiting, and the lowering that is still to come. -/
  degree : ∀ id ∈ members,
    s.degrees.lookup id = some (waiting edges s.placed id + s.pending.count id)
  /-- A node joins the queue when its degree comes down to zero. -/
  queued_iff : ∀ id ∈ members, id ∈ s.queued ↔ s.degrees.lookup id = some 0
  /-- The sources of a placed node stand before it. -/
  ordered : edges.Ordered s.placed

namespace Sound

variable {members : List String} {s t : DrainState}

/-- **No degree is lowered below zero.** A target that is still to be lowered counts in its own
degree. -/
theorem degree_pos (hs : Sound edges members s) (hid : id ∈ s.pending) :
    ∃ degree, s.degrees.lookup id = some (degree + 1) := by
  have hpos : 0 < s.pending.count id := List.count_pos_iff.2 hid
  refine ⟨waiting edges s.placed id + s.pending.count id - 1, ?_⟩
  rw [hs.degree id (hs.pending_subset id hid)]
  congr 1
  omega

/-- A target that is still to be lowered has not joined the queue. -/
theorem not_mem_queued (hs : Sound edges members s) (hid : id ∈ s.pending) : id ∉ s.queued := by
  obtain ⟨degree, hdegree⟩ := hs.degree_pos hid
  rw [hs.queued_iff id (hs.pending_subset id hid), hdegree]
  simp

section Lower

variable {degrees : Degrees} {placed rest queue : List String}
  (hs : Sound edges members ⟨degrees, placed, id :: rest, queue⟩)

include hs

/-- The target that was to be lowered no longer counts in its degree. -/
theorem degree_lower (hother : other ∈ members) : (degrees.lower id).1.lookup other
    = some (waiting edges placed other + rest.count other) := by
  have hold := hs.degree other hother
  rw [Degrees.lookup_lower]
  by_cases h : other = id
  · subst h
    rw [if_pos rfl, hold]
    simp
  · rw [if_neg h, hold, List.count_cons_of_ne (Ne.symm h)]

/-- A target is freed exactly if no source of it is left waiting. -/
theorem lower_frees_iff : (degrees.lower id).2 = true ↔ waiting edges placed id = 0 := by
  have hid : id ∈ members := hs.pending_subset id List.mem_cons_self
  have hrest : id ∉ rest := (List.nodup_cons.1 hs.pending_nodup).1
  rw [Degrees.lower_frees, hs.degree id hid]
  simp [List.count_eq_zero_of_not_mem hrest]

/-- The queue is joined by the target if that is freed, and by no other. -/
theorem mem_queued_lower :
    other ∈ placed ++ (if (degrees.lower id).2 then queue ++ [id] else queue)
      ↔ other ∈ placed ++ queue ∨ other = id ∧ waiting edges placed id = 0 := by
  rw [← hs.lower_frees_iff]
  split
  · rename_i h
    simp [h, or_assoc]
  · rename_i h
    simp [h]

theorem lower : Sound edges members ⟨(degrees.lower id).1, placed, rest,
    if (degrees.lower id).2 then queue ++ [id] else queue⟩ := by
  have hid : id ∈ members := hs.pending_subset id List.mem_cons_self
  have hnew : id ∉ placed ++ queue := hs.not_mem_queued List.mem_cons_self
  obtain ⟨hrest, hrestNodup⟩ := List.nodup_cons.1 hs.pending_nodup
  refine ⟨?_, ?_, hrestNodup, fun other h => hs.pending_subset other (List.mem_cons_of_mem _ h),
    fun other hother => hs.degree_lower hother, ?_, hs.ordered⟩
  · show (placed ++ _).Nodup
    split
    · rw [← List.append_assoc]
      exact List.Nodup.append hs.queued_nodup (List.nodup_singleton id) (by simpa using hnew)
    · exact hs.queued_nodup
  · intro other hother
    rcases hs.mem_queued_lower.1 hother with h | ⟨rfl, -⟩
    · exact hs.queued_subset other h
    · exact hid
  · intro other hother
    refine hs.mem_queued_lower.trans ?_
    rw [hs.degree_lower hother]
    by_cases h : other = id
    · -- the target itself was not in the queue, so it is there now exactly if it is freed
      subst h
      simp [hnew, List.count_eq_zero_of_not_mem hrest] at hnew ⊢
    · have hold := hs.queued_iff other hother
      rw [hs.degree other hother, List.count_cons_of_ne (Ne.symm h)] at hold
      simpa [h, queued] using hold

end Lower

theorem take (htargets : ∀ u v, (u, v) ∈ edges → v ∈ members) {degrees : Degrees}
    {placed queue : List String} (hs : Sound edges members ⟨degrees, placed, [], id :: queue⟩) :
    Sound edges members ⟨degrees, placed ++ [id], edges.targetsOf id, queue⟩ := by
  have hqueued : queued ⟨degrees, placed ++ [id], edges.targetsOf id, queue⟩
      = queued ⟨degrees, placed, [], id :: queue⟩ := by
    simp [queued]
  have hmem : id ∈ queued ⟨degrees, placed, [], id :: queue⟩ := by simp [queued]
  have hid : id ∈ members := hs.queued_subset id hmem
  have hnew : id ∉ placed := by
    intro h
    exact (List.disjoint_of_nodup_append hs.queued_nodup) h List.mem_cons_self
  refine ⟨hqueued ▸ hs.queued_nodup, hqueued ▸ hs.queued_subset, edges.nodup_targetsOf id, ?_, ?_,
    ?_, ?_⟩
  · intro other hother
    exact htargets id other (Edges.mem_targetsOf.1 hother)
  · intro other hother
    refine (hs.degree other hother).trans ?_
    rw [List.count_nil, Nat.add_zero, waiting_append hnew]
  · rw [hqueued]
    exact hs.queued_iff
  · -- the node taken out has degree zero, so none of its sources is waiting
    have hzero : waiting edges placed id = 0 := by
      have h := (hs.queued_iff id hid).1 hmem
      rw [hs.degree id hid] at h
      simpa using h
    refine hs.ordered.append fun other hother => ?_
    rw [List.mem_singleton.1 hother]
    exact waiting_eq_zero.1 hzero

/-- A step keeps a state sound. -/
theorem step (htargets : ∀ u v, (u, v) ∈ edges → v ∈ members) (hs : Sound edges members s)
    (h : Step edges s t) : Sound edges members t := by
  cases h with
  | lower degrees placed id rest queue => exact hs.lower
  | take degrees placed id queue => exact hs.take htargets

/-- **Every state of a run is sound.** -/
theorem reaches (htargets : ∀ u v, (u, v) ∈ edges → v ∈ members) (hs : Sound edges members s)
    (h : Reaches edges s t) : Sound edges members t := by
  induction h with
  | refl => exact hs
  | tail _ hstep ih => exact ih.step htargets hstep

/-- **In the end a node is placed if and only if all its sources are.** -/
theorem mem_placed_iff (hs : Sound edges members s) (hpending : s.pending = [])
    (hqueue : s.queue = []) (hid : id ∈ members) :
    id ∈ s.placed ↔ ∀ u ∈ edges.sourcesOf id, u ∈ s.placed := by
  have hqueued : s.queued = s.placed := queued_eq_placed hqueue
  rw [← hqueued, hs.queued_iff id hid, hs.degree id hid, hqueued, hpending, ← waiting_eq_zero]
  simp

end Sound

end DrainState

end ShaderGraph
