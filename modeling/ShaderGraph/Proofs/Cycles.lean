import ShaderGraph.Compile
import ShaderGraph.Proofs.ExecutionOrder
import Mathlib.Data.Fintype.Card
import Mathlib.Data.Set.Finite.List
import Mathlib.Order.WellFounded

/-!
# Cycles

The nodes that cannot be placed are those on a cycle and those behind one. One direction reads the
places: along a path of edges they go up, so no node of a cycle has one, and what is fed by a node
without a place has none either. The other direction is a matter of finiteness: a node without a
place is fed by another, so going back from it there is no first one, and some node comes up twice.

Together with the check of the settings this says which of its three outcomes a compilation has.
-/

namespace ShaderGraph

open Relation

variable {u v id : String}

/-- **Among finitely many elements with a predecessor each, every one is behind a cycle.** Without a
cycle behind it, what leads to the element would be well-founded and have a first one. -/
theorem exists_cycle_behind {α : Type} {r : α → α → Prop} {items : List α} {a : α}
    (h : ∀ x ∈ items, ∃ y ∈ items, r y x) (ha : a ∈ items) :
    ∃ u, TransGen r u u ∧ ReflTransGen r u a := by
  by_contra hnone
  push Not at hnone
  -- what leads to the element, with paths for its order: finite, transitive and without a cycle
  let Behind := {x // x ∈ items ∧ ReflTransGen r x a}
  let earlier : Behind → Behind → Prop := fun x y => TransGen r x.1 y.1
  have hfinite : Finite Behind :=
    (items.finite_toSet.subset fun x (hx : x ∈ items ∧ ReflTransGen r x a) => hx.1).to_subtype
  have htrans : IsTrans Behind earlier := ⟨fun _ _ _ => TransGen.trans⟩
  have hirrefl : Std.Irrefl earlier := ⟨fun x hx => hnone x.1 hx x.2.2⟩
  have hwf : WellFounded earlier := Finite.wellFounded_of_trans_of_irrefl earlier
  obtain ⟨first, -, hfirst⟩ := hwf.has_min Set.univ ⟨⟨a, ha, .refl⟩, trivial⟩
  obtain ⟨y, hy, hr⟩ := h first.1 first.2.1
  exact hfirst ⟨y, hy, .head hr first.2.2⟩ trivial (.single hr)

namespace Graph

variable {settings : Settings} {g : Graph}

/-! ## Nodes without a place -/

/-- Along a path of edges places go up. -/
theorem idxOf_lt_of_transGen (h : TransGen (g.Feeds settings) u v)
    (hv : v ∈ g.placeable settings) : u ∈ g.placeable settings
      ∧ (g.placeable settings).idxOf u < (g.placeable settings).idxOf v := by
  have hstep : ∀ {u v}, g.Feeds settings u v → v ∈ g.placeable settings →
      u ∈ g.placeable settings
        ∧ (g.placeable settings).idxOf u < (g.placeable settings).idxOf v := by
    intro u v hfeeds hv
    exact ⟨(mem_placeable_iff hfeeds.target_mem).1 hv u hfeeds,
      (ordered_placeable settings g).idxOf_lt (mem_sourcesOf_edges.2 hfeeds) hv⟩
  induction h with
  | single hfeeds => exact hstep hfeeds hv
  | tail _ hfeeds ih =>
    obtain ⟨hmid, hlt⟩ := hstep hfeeds hv
    obtain ⟨hu, hlt'⟩ := ih hmid
    exact ⟨hu, hlt'.trans hlt⟩

/-- No node of a cycle can be placed. -/
theorem not_mem_placeable_of_cycle (h : TransGen (g.Feeds settings) u u) :
    u ∉ g.placeable settings := by
  intro hu
  exact absurd (idxOf_lt_of_transGen h hu).2 (Nat.lt_irrefl _)

/-- A node that cannot be placed is fed by another. -/
theorem exists_feeds_of_not_mem_placeable (hv : v ∈ g.nodeIds) (h : v ∉ g.placeable settings) :
    ∃ u, u ∉ g.placeable settings ∧ g.Feeds settings u v := by
  rw [mem_placeable_iff hv] at h
  push Not at h
  obtain ⟨u, hfeeds, hu⟩ := h
  exact ⟨u, hu, hfeeds⟩

/-- **A node cannot be placed if and only if it lies on a cycle or behind one.** -/
theorem not_mem_placeable_iff_blocked (hid : id ∈ g.nodeIds) :
    id ∉ g.placeable settings ↔ g.Blocked settings id := by
  constructor
  · intro h
    let left := g.nodeIds.filter fun id => !(g.placeable settings).contains id
    have hleft : ∀ x, x ∈ left ↔ x ∈ g.nodeIds ∧ x ∉ g.placeable settings := by
      intro x
      simp [left]
    refine exists_cycle_behind (fun x hx => ?_) ((hleft id).2 ⟨hid, h⟩)
    obtain ⟨hx, hplace⟩ := (hleft x).1 hx
    obtain ⟨u, hu, hfeeds⟩ := exists_feeds_of_not_mem_placeable hx hplace
    exact ⟨u, (hleft u).2 ⟨hfeeds.source_mem, hu⟩, hfeeds⟩
  · -- a place would pass on, against the path, to the node on the cycle
    rintro ⟨u, hcycle, hpath⟩ hplace
    rcases reflTransGen_iff_eq_or_transGen.1 hpath with rfl | hpath
    · exact not_mem_placeable_of_cycle hcycle hplace
    · exact not_mem_placeable_of_cycle hcycle (idxOf_lt_of_transGen hpath hplace).1

theorem mem_nodeIds_of_cycle (h : TransGen (g.Feeds settings) u u) : u ∈ g.nodeIds := by
  obtain ⟨v, hfeeds, -⟩ := TransGen.head'_iff.1 h
  exact hfeeds.source_mem

/-- **There is no order of execution if and only if there is a cycle.** -/
theorem executionOrder_error_iff_cycle : (∃ remaining, g.executionOrder settings = .error remaining)
    ↔ ∃ u, TransGen (g.Feeds settings) u u := by
  constructor
  · rintro ⟨remaining, h⟩
    obtain ⟨⟨id, hid, hplace⟩, -⟩ := executionOrder_eq_error_iff.1 h
    obtain ⟨u, hcycle, -⟩ := (not_mem_placeable_iff_blocked hid).1 hplace
    exact ⟨u, hcycle⟩
  · rintro ⟨u, hcycle⟩
    exact ⟨_, executionOrder_eq_error_iff.2
      ⟨⟨u, mem_nodeIds_of_cycle hcycle, not_mem_placeable_of_cycle hcycle⟩, rfl⟩⟩

open scoped Classical in
/-- What remains are the blocked nodes, in the order of the graph. -/
theorem eq_filter_blocked_of_executionOrder_error {remaining : List String}
    (h : g.executionOrder settings = .error remaining) :
    remaining = g.nodeIds.filter fun id => decide (g.Blocked settings id) := by
  obtain ⟨-, rfl⟩ := executionOrder_eq_error_iff.1 h
  refine List.filter_congr fun id hid => ?_
  have hblocked : id ∉ g.placeable settings ↔ g.Blocked settings id :=
    not_mem_placeable_iff_blocked hid
  by_cases hplace : id ∈ g.placeable settings
  · simp [hplace, ← hblocked]
  · simp [hplace, hblocked.1 hplace]

end Graph

/-! ## The outcome of a compilation -/

/-- Settings that pass the check come out of it unchanged. -/
theorem Settings.check_error_or_ok (s : Settings) :
    (∃ e, s.check = .error e) ∨ s.check = .ok s := by
  rw [check]
  split
  · exact Or.inl ⟨_, rfl⟩
  · exact Or.inr rfl

section Outcome

variable {catalog : Catalog} {settings : Settings} {g : Graph}

theorem compile_eq_settings_iff {e : SettingsError} :
    compile catalog settings g = .error (.settings e) ↔ settings.check = .error e := by
  rw [compile]
  rcases settings.check_error_or_ok with ⟨e', h⟩ | h
  · simp [h]
  · cases horder : g.executionOrder settings <;> simp [h, horder]

theorem compile_eq_cycle_iff {remaining : List String} :
    compile catalog settings g = .error (.cycle remaining) ↔
      settings.check = .ok settings ∧ g.executionOrder settings = .error remaining := by
  rw [compile]
  rcases settings.check_error_or_ok with ⟨e, h⟩ | h
  · simp [h]
  · cases horder : g.executionOrder settings <;> simp [h, horder]

theorem compile_eq_ok_iff {result : Compilation} :
    compile catalog settings g = .ok result ↔ settings.check = .ok settings ∧
      ∃ order, g.executionOrder settings = .ok order ∧
        compileOrdered catalog settings g order = result := by
  rw [compile]
  rcases settings.check_error_or_ok with ⟨e, h⟩ | h
  · simp [h]
  · cases horder : g.executionOrder settings <;> simp [h, horder]

theorem exists_compile_eq_ok_iff : (∃ result, compile catalog settings g = .ok result) ↔
    settings.check = .ok settings ∧ ∃ order, g.executionOrder settings = .ok order := by
  simp only [compile_eq_ok_iff]
  constructor
  · rintro ⟨-, hcheck, order, horder, -⟩
    exact ⟨hcheck, order, horder⟩
  · rintro ⟨hcheck, order, horder⟩
    exact ⟨_, hcheck, order, horder, rfl⟩

end Outcome

open scoped Classical in
/-- **A compilation fails on bad settings, else on a cycle, and else never.** Settings fail it
exactly if their check does, and with the same error. Otherwise it names what remains exactly if
some node feeds itself, directly or through others, and what remains are the nodes on a cycle or
behind one, once each and in the order of the graph. Otherwise it gives a program, whatever the
problems of the graph. -/
theorem compile_outcome (catalog : Catalog) (settings : Settings) (g : Graph) :
    (∀ e, compile catalog settings g = .error (.settings e) ↔ settings.check = .error e) ∧
    ((¬ ∃ e, settings.check = .error e) →
      ((∃ remaining, compile catalog settings g = .error (.cycle remaining)) ↔
        ∃ u, TransGen (g.Feeds settings) u u) ∧
      ((¬ ∃ u, TransGen (g.Feeds settings) u u) →
        ∃ result, compile catalog settings g = .ok result)) ∧
    ∀ remaining, compile catalog settings g = .error (.cycle remaining) →
      remaining.Nodup ∧ remaining = g.nodeIds.filter fun id => decide (g.Blocked settings id) := by
  refine ⟨fun e => compile_eq_settings_iff, fun hvalid => ?_, fun remaining h => ?_⟩
  · have hcheck : settings.check = .ok settings := settings.check_error_or_ok.resolve_left hvalid
    refine ⟨?_, fun hacyclic => ?_⟩
    · rw [← Graph.executionOrder_error_iff_cycle]
      simp only [compile_eq_cycle_iff, hcheck, true_and]
    · rw [exists_compile_eq_ok_iff]
      refine ⟨hcheck, ?_⟩
      cases horder : g.executionOrder settings with
      | error remaining =>
        exact absurd (Graph.executionOrder_error_iff_cycle.1 ⟨remaining, horder⟩) hacyclic
      | ok order => exact ⟨order, rfl⟩
  · have hremaining :=
      Graph.eq_filter_blocked_of_executionOrder_error (compile_eq_cycle_iff.1 h).2
    exact ⟨hremaining ▸ g.nodup_nodeIds.filter _, hremaining⟩

/-- Two nodes that feed each other, one behind them and one before them. -/
def Graph.knot : Graph where
  id := "knot"
  name := "knot"
  version := formatVersion
  nodes := ["d", "c", "b", "a", "c"].map (Node.bare · "any")
  connections := [("a", "b"), ("b", "a"), ("b", "c"), ("d", "a")].map fun (source, target) =>
      .between "" (source, "out") target (.port "in")
  lanes := []

/-- The node behind the two remains with them, and the one before them does not. -/
theorem compile_knot : compile .empty {} .knot = .error (.cycle ["c", "b", "a"]) ∧
    Graph.knot.Blocked {} "c" ∧ ¬ Graph.knot.Blocked {} "d" := by
  have h : compile .empty {} .knot = .error (.cycle ["c", "b", "a"]) :=
    compile_eq_cycle_iff.2 ⟨by decide, by decide +kernel⟩
  have hremaining := ((compile_outcome .empty {} .knot).2.2 _ h).2
  have hblocked : ∀ id ∈ Graph.knot.nodeIds, id ∈ ["c", "b", "a"] ↔ Graph.knot.Blocked {} id := by
    intro id hid
    simp [hremaining, hid]
  exact ⟨h, (hblocked "c" (by decide)).1 (by decide),
    mt (hblocked "d" (by decide)).2 (by decide)⟩

end ShaderGraph
