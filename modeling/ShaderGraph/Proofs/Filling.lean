import ShaderGraph.Emit.Library

/-!
# Reports while code is filled in

Placeholders, parameters and inputs that have no value are reported where code is filled in, and
nothing else is: no conflict of functions, no depth. Whoever looks for other reports can pass over
these computations.
-/

namespace ShaderGraph

/-- Whether a report is about a placeholder, a parameter or an input without a value. -/
def Warning.isFilling : Warning → Bool
  | .noCoordinate _ _ => true
  | .unresolved _ _ => true
  | .noVirtualUniform _ => true
  | .undeclaredForParameter _ _ _ => true
  | .undeclaredForInput _ _ _ _ => true
  | .unknownFallback _ _ _ => true
  | _ => false

namespace Warned

variable {α β : Type} {x : Warned α} {f : α → Warned β}

/-- All reports are about missing values. -/
def Filling (x : Warned α) : Prop := ∀ w ∈ x.warnings, w.isFilling = true

theorem filling_pure (a : α) : (pure a : Warned α).Filling := by
  intro w hw
  cases hw

theorem filling_warn {w : Warning} (h : w.isFilling = true) : (warn w).Filling := by
  intro w' hw'
  exact List.mem_singleton.1 hw' ▸ h

theorem Filling.bind (hx : x.Filling) (hf : (f x.value).Filling) : (x >>= f).Filling := by
  intro w hw
  rcases List.mem_append.1 hw with hw | hw
  · exact hx w hw
  · exact hf w hw

theorem filling_each (h : ∀ a, (f a).Filling) (items : List α) : (each f items).Filling := by
  intro w hw
  rw [warnings_each] at hw
  obtain ⟨a, -, hw⟩ := List.mem_flatMap.1 hw
  exact h a w hw

end Warned

open Warned (filling_pure filling_warn filling_each)

/-! ## Templates and fallbacks -/

theorem Bindings.filling_fill (b : Bindings) (t : Template) : (b.fill t).Filling := by
  intro w hw
  obtain ⟨placeholder, -, hw⟩ := List.mem_filterMap.1 hw
  rw [warning?] at hw
  split at hw
  · cases hw
  · obtain rfl := Option.some.inj hw
    cases placeholder <;> rfl

theorem filling_componentOf (nodeId : String) (port : Port) (params : Dict Resolved)
    (name : String) : (componentOf nodeId port params name).Filling := by
  rw [componentOf]
  split
  · exact filling_pure _
  · exact (filling_warn rfl).bind (filling_pure _)

theorem filling_fallback (n : Node) (port : Port) (params : Dict Resolved)
    (coordinates : Option Coordinates) : (fallback n port params coordinates).Filling := by
  rw [fallback]
  split
  · exact Bindings.filling_fill _ _
  · split
    · exact filling_pure _
    · exact (filling_each (filling_componentOf _ _ _) _).bind (filling_pure _)

/-! ## Parameters and inputs -/

namespace Plan

variable (plan : Plan)

theorem filling_connectedParam (n : Node) (c : Connection) : (plan.connectedParam n c).Filling := by
  rw [connectedParam]
  split
  · split
    · exact filling_pure _
    · exact (filling_warn rfl).bind (filling_pure _)
  · dsimp only
    split
    · exact filling_pure _
    · exact (filling_warn rfl).bind (filling_pure _)

theorem filling_resolve (n : Node) (name : String) (param : Param) :
    (plan.resolve n name param).Filling := by
  rw [resolve]
  cases param.kind with
  | float =>
    dsimp only
    rw [resolveFloat]
    split
    · exact filling_pure _
    · split
      · exact (plan.filling_connectedParam _ _).bind (filling_pure _)
      · exact filling_pure _
  | int => exact filling_pure _
  | string => exact filling_pure _
  | array => exact filling_pure _

theorem filling_resolveAll (n : TypedNode) : (plan.resolveAll n).Filling := by
  intro w hw
  obtain ⟨r, hr, hw⟩ := List.mem_flatMap.1 hw
  obtain ⟨entry, hentry, rfl⟩ := List.mem_map.1 hr
  obtain ⟨param, -, rfl⟩ := List.mem_map.1 hentry
  exact plan.filling_resolve _ _ _ w hw

theorem filling_connected (n : Node) (port : Port) : (plan.connected n port).Filling := by
  rw [connected]
  split
  · rw [connectedInput]
    split
    · exact filling_pure _
    · dsimp only
      split
      · exact filling_pure _
      · exact (filling_warn rfl).bind (filling_pure _)
  · exact filling_pure _

theorem filling_inputs (n : TypedNode) (params : Dict Resolved) (coordinates : Option Coordinates) :
    (plan.inputs n params coordinates).Filling := by
  refine (filling_each (fun port => ?_) _).bind (filling_pure _)
  refine (plan.filling_connected n.node port).bind ?_
  split
  · exact filling_pure _
  · exact filling_fallback _ _ _ _

/-- Filling functions in reports missing values only. -/
theorem filling_specialise (n : TypedNode) (code : String) : (plan.specialise n code).Filling :=
  (plan.filling_resolveAll n).bind
    ((plan.filling_inputs n _ _).bind ((Bindings.filling_fill _ _).bind (filling_pure _)))

end Plan

end ShaderGraph
