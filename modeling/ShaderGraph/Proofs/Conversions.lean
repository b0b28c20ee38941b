import ShaderGraph.Glsl.Conversion
import ShaderGraph.Proofs.Seams

/-!
# Names in converted expressions

A conversion writes an expression into a text of brackets, points and commas, with names of types
and components beside it. Such a text begins and ends in the code if the expression does, and its
identifiers are those of the expression and these names (`Holds.convert`), however often the
expression is converted.
-/

namespace ShaderGraph.Glsl

/-- The names that conversions write: types and components. -/
def conversionNames : List String :=
  ["float", "int", "vec2", "vec3", "vec4", "x", "xy", "xyz"]

/-- Whether a text ends in the code and has names of types and components only. -/
def isFrame (text : String) : Bool :=
  stateAfter (.inside .code) text.toList = .inside .code
    && (identifiers text).all fun x => conversionNames.contains x

/-- The names of types and components are frames, and so they are behind a point. -/
theorem isFrame_of_mem {word : String} (h : word ∈ conversionNames) :
    isFrame word = true ∧ isFrame ("." ++ word) = true ∧ isFrame (")." ++ word) = true := by
  have hall : (conversionNames.all fun word =>
      isFrame word && (isFrame ("." ++ word) && isFrame (")." ++ word))) = true := by
    decide +kernel
  simpa only [Bool.and_eq_true] using List.all_eq_true.1 hall word h

theorem name_mem_conversionNames (type : ValueType) : type.name ∈ conversionNames := by
  cases type <;> decide

/-- A text that an expression stands in: it ends in the code, and it has no identifiers but those of
the expression and names of types and components. -/
structure Holds (expr text : String) : Prop where
  ends : stateAfter (.inside .code) text.toList = .inside .code
  names : ∀ x ∈ identifiers text, x ∈ identifiers expr ∨ x ∈ conversionNames

namespace Holds

variable {expr text word : String}

/-- An identifier holds itself. -/
theorem self (h : Text.isIdentifier expr.toList = true) : Holds expr expr :=
  ⟨(names_of_isIdentifier h).2, fun _ hx => Or.inl hx⟩

theorem frame (expr : String) {text : String} (h : isFrame text = true) : Holds expr text := by
  obtain ⟨hends, hnames⟩ := Bool.and_eq_true_iff.1 h
  refine ⟨of_decide_eq_true hends, fun x hx => Or.inr ?_⟩
  simpa using List.all_eq_true.1 hnames x hx

/-- A bracket opens before the text, with a word in front of it. -/
theorem opened (h : Holds expr text) (hword : isFrame word = true) :
    Holds expr (word ++ "(" ++ text) := by
  have hbefore : Holds expr word := frame expr hword
  have hclosed : ClosedBy '(' word.toList := closedBy_of_code (by decide) hbefore.ends
  have htext : (word ++ "(" ++ text).toList = word.toList ++ '(' :: text.toList := by simp
  constructor
  · rw [htext, stateAfter_append_cons (by decide) hclosed, h.ends]
  · intro x hx
    rw [identifiers_eq, htext, names_append_cons (by decide) hclosed, List.map_append,
      List.mem_append] at hx
    exact hx.elim (hbefore.names x) (h.names x)

/-- A text that starts with a break goes on behind it. -/
theorem followed (h : Holds expr text) {after : String} {c : Char} (hafter : isFrame after = true)
    (hopen : after.toList.head? = some c) (hc : isBreak c = true) : Holds expr (text ++ after) := by
  have hbehind : Holds expr after := frame expr hafter
  obtain ⟨hnames, hstate⟩ := append_of_opening hc (closedBy_of_code hc h.ends) hopen
  refine ⟨hstate.trans hbehind.ends, fun x hx => ?_⟩
  rw [hnames, List.mem_append] at hx
  exact hx.elim (h.names x) (hbehind.names x)

theorem applied (h : Holds expr text) (hword : word ∈ conversionNames) :
    Holds expr (applied word text) :=
  (h.opened (isFrame_of_mem hword).1).followed (by decide +kernel) rfl (by decide)

theorem components (h : Holds expr text) (hword : word ∈ conversionNames) :
    Holds expr (components text word) := by
  obtain ⟨-, hpoint, hclosing⟩ := isFrame_of_mem hword
  rw [Glsl.components]
  split
  · have hopen : ("." ++ word).toList.head? = some '.' := by simp
    rw [String.append_assoc]
    exact h.followed hpoint hopen (by decide)
  · have hopen : (")." ++ word).toList.head? = some ')' := by simp
    have hopened : Holds expr ("" ++ "(" ++ text) := h.opened (by decide +kernel)
    rw [String.append_assoc]
    exact hopened.followed hclosing hopen (by decide)

/-- **A converted expression has the identifiers of the expression**, and names of types and
components. -/
theorem convert (h : Holds expr text) (source target : ValueType) :
    Holds expr (convert text source target) := by
  have hx : "x" ∈ conversionNames := by decide
  unfold Glsl.convert
  split
  · exact h
  · exact h
  · exact h
  · exact h
  · exact h
  · exact h.applied (name_mem_conversionNames .float)
  · exact h.applied (name_mem_conversionNames .int)
  · exact (h.applied (name_mem_conversionNames .float)).applied (name_mem_conversionNames _)
  · exact h.applied (name_mem_conversionNames _)
  · exact h.components hx
  · exact (h.components hx).applied (name_mem_conversionNames .int)
  · exact (h.followed (by decide +kernel) rfl (by decide)).applied (name_mem_conversionNames .vec3)
  · exact (h.followed (by decide +kernel) rfl (by decide)).applied (name_mem_conversionNames .vec4)
  · exact (h.followed (by decide +kernel) rfl (by decide)).applied (name_mem_conversionNames .vec4)
  · exact h.components (by decide)
  · exact h.components (by decide)
  · exact h.components (by decide)

end Holds

end ShaderGraph.Glsl
