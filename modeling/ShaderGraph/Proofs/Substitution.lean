import ShaderGraph.Proofs.Templates

/-!
# Filled templates

A filled template is code for good: read as a template again it has no hole. The texts put in bring
no dollar sign along, and a dollar sign of the code keeps the character behind it. That could fail
only where a placeholder stands directly behind a dollar sign, as in `$$time`, since a text put in
may start with a letter.

Each placeholder that nothing is bound to is reported once, in the order in which they stand.
-/

namespace ShaderGraph

/-! ## Holes in a text put together -/

namespace Template

variable {text : List Char} {resolve : Nat → Placeholder → List Char} {n : Nat}

theorem starts_eq_nil_iff : starts text = [] ↔ HoleFree text := by
  induction text with
  | nil => exact ⟨fun _ => holeFree_nil, fun _ => rfl⟩
  | cons c rest ih =>
    rw [holeFree_cons_iff, ← ih]
    cases hstarts : startsHole (c :: rest) with
    | true => simp [starts_of_startsHole hstarts]
    | false => simp [starts_of_not_startsHole hstarts]

/-- A text is read without holes exactly if no placeholder starts in it. -/
theorem placeholders_eq_nil_iff : (parseChars text).placeholders = [] ↔ HoleFree text := by
  rw [← starts_eq_nil_iff, eq_comm, ← forall₂_iff_eq_placeholders, List.forall₂_nil_left_iff]

theorem holeFree_append {front : List Char} (hfront : '$' ∉ front) (h : HoleFree text) :
    HoleFree (front ++ text) := by
  rw [← starts_eq_nil_iff, starts_append hfront, starts_eq_nil_iff]
  exact h

/-- A dollar sign of the code keeps the character behind it, unless that is a dollar sign. -/
theorem startsHole_renderFrom {c : Char} {rest : List Char}
    (hstarts : startsHole (c :: rest) = false) (hdouble : ¬['$', '$'] <+: c :: rest) :
    startsHole (c :: (parseChars rest).renderFrom resolve n) = false := by
  cases rest with
  | nil =>
    rw [parseChars_nil]
    exact hstarts
  | cons d tail =>
    by_cases hd : d = '$'
    · refine startsHole_of_ne fun hc => hdouble ?_
      rw [hc, hd]
      exact List.prefix_append ['$', '$'] tail
    · rw [parseChars_char hd, renderFrom_consChar]
      exact hstarts

/-- **No hole is left**, and none comes about. -/
theorem holeFree_renderFrom (hresolve : ∀ n p, '$' ∉ resolve n p)
    (h : ¬['$', '$'] <:+: text) : HoleFree ((parseChars text).renderFrom resolve n) := by
  refine parseChars_induction (motive := fun text t => ¬['$', '$'] <:+: text →
    ∀ n, HoleFree (t.renderFrom resolve n)) ?_ ?_ ?_ text h n
  · intro _ n
    exact holeFree_nil
  · intro p rest _ ih h n
    refine holeFree_append (hresolve n p) (ih (fun hrest => h ?_) (n + 1))
    exact hrest.trans (List.suffix_append _ _).isInfix
  · intro c rest hstarts ih h n
    rw [List.infix_cons_iff, not_or] at h
    rw [renderFrom_consChar]
    exact holeFree_cons_iff.2 ⟨startsHole_renderFrom hstarts h.1, ih h.2 n⟩

end Template

/-! ## Bindings -/

namespace Bindings

variable {b : Bindings}

/-- No text that something is bound to holds a dollar sign. -/
structure DollarFree (b : Bindings) : Prop where
  inputs : ∀ port, ∀ text ∈ b.inputs.find? port, '$' ∉ text.toList
  outputs : ∀ port, ∀ text ∈ b.outputs.find? port, '$' ∉ text.toList
  params : ∀ name, ∀ text ∈ b.params.find? name, '$' ∉ text.toList
  coordinates : ∀ c ∈ b.coordinates, '$' ∉ c.position.toList ∧ '$' ∉ c.uv.toList
  distance : ∀ text ∈ b.distance, '$' ∉ text.toList
  displacement : ∀ text ∈ b.displacement, '$' ∉ text.toList

/-- Whether nothing is bound to a placeholder. -/
def lacks (b : Bindings) : Placeholder → Bool
  | .input port => (b.inputs.find? port).isNone
  | .output port => (b.outputs.find? port).isNone
  | .param name => (b.params.find? name).isNone
  | .time => false
  | .resolution => false
  | .position => b.coordinates.isNone
  | .uv => b.coordinates.isNone
  | .distance => b.distance.isNone
  | .displacement => b.displacement.isNone
  | .unknown _ => true

theorem dollar_not_mem_find? (h : b.DollarFree) (p : Placeholder) :
    ∀ text ∈ b.find? p, '$' ∉ text.toList := by
  intro text htext
  cases p with
  | input port => exact h.inputs port text htext
  | output port => exact h.outputs port text htext
  | param name => exact h.params name text htext
  | time =>
    obtain rfl := Option.some.inj htext
    decide
  | resolution =>
    obtain rfl := Option.some.inj htext
    decide
  | position =>
    obtain ⟨c, hc, rfl⟩ := Option.map_eq_some_iff.1 htext
    exact (h.coordinates c hc).1
  | uv =>
    obtain ⟨c, hc, rfl⟩ := Option.map_eq_some_iff.1 htext
    exact (h.coordinates c hc).2
  | distance => exact h.distance text htext
  | displacement => exact h.displacement text htext
  | unknown word => cases htext

theorem dollar_not_mem_neutral (p : Placeholder) : '$' ∉ p.neutral.toList := by
  unfold Placeholder.neutral
  split <;> decide

theorem dollar_not_mem_textFor (h : b.DollarFree) (p : Placeholder) :
    '$' ∉ (b.textFor p).toList := by
  rw [textFor]
  cases hfound : b.find? p with
  | some text => exact dollar_not_mem_find? h p text hfound
  | none => exact dollar_not_mem_neutral p

theorem isNone_find? (b : Bindings) (p : Placeholder) : (b.find? p).isNone = b.lacks p := by
  cases p <;> simp [find?, lacks]

theorem warning?_eq (b : Bindings) (p : Placeholder) :
    b.warning? p = if b.lacks p = true then some (b.complaint p) else none := by
  rw [warning?, ← isNone_find?]
  cases b.find? p <;> rfl

/-- One report for each placeholder that nothing is bound to, and none for the others. -/
theorem warnings_fill (b : Bindings) (t : Template) :
    (b.fill t).warnings = (t.placeholders.filter b.lacks).map b.complaint := by
  rw [← List.filterMap_eq_map, List.filterMap_filter]
  exact List.filterMap_congr fun p _ => b.warning?_eq p

end Bindings

/-- **A filled template is code for good.** If no two dollar signs of the source stand side by side
and no text put in holds one, the result is read without holes. There is one report, in order, for
each placeholder of the source that nothing is bound to, and there are no others. -/
theorem fill_code (b : Bindings) (hb : b.DollarFree) (source : String)
    (hsource : ¬['$', '$'] <:+: source.toList) :
    (Template.parse (b.fill (Template.parse source)).value).placeholders = [] ∧
    ∃ found, List.Forall₂ Placeholder.IsLongest found (Template.starts source.toList) ∧
      (b.fill (Template.parse source)).warnings = (found.filter b.lacks).map b.complaint := by
  refine ⟨?_, (Template.parse source).placeholders, Template.forall₂_placeholders _,
    b.warnings_fill _⟩
  rw [Template.parse, Template.placeholders_eq_nil_iff, Template.toList_value_fill b _ 0]
  exact Template.holeFree_renderFrom (fun _ p => Bindings.dollar_not_mem_textFor hb p) hsource

/-- Of the placeholders here two are bound, one is unknown, and one asks for a coordinate where
there is none. The dollar signs at both ends stay, and the two that are not bound are reported. -/
theorem fill_code_probe :
    let b : Bindings := { nodeId := "n", inputs := Dict.ofList [("a", "x")] }
    let filled := b.fill (Template.parse "$ $input.a$bogus.$uv$time$")
    b.DollarFree ∧ filled.value = "$ x0.0.vec2(0.0)uTime$" ∧
    (Template.parse filled.value).placeholders = [] ∧
    filled.warnings = [.unresolved (.unknown "bogus") "n", .noCoordinate .uv "n"] := by
  intro b filled
  have hinputs : ∀ port, ∀ text ∈ b.inputs.find? port, '$' ∉ text.toList := by
    intro port text htext
    rw [Dict.find?_ofList, List.reverse_singleton, lookup_cons] at htext
    split at htext
    · obtain rfl := Option.some.inj htext
      decide
    · cases htext
  have hb : b.DollarFree := by
    refine ⟨hinputs, ?_, ?_, ?_, ?_, ?_⟩ <;> intros <;> contradiction
  have hcode := (fill_code b hb "$ $input.a$bogus.$uv$time$" (by decide +kernel)).1
  exact ⟨hb, by decide +kernel, hcode, by decide +kernel⟩

/-- Side by side, dollar signs can make a placeholder of a text put in. -/
example : (Template.parse ((⟨"n", ∅, ∅, ∅, none, none, none⟩ : Bindings).fill
    (Template.parse "$$time")).value).placeholders = [.unknown "uTime"] := by
  decide +kernel

end ShaderGraph
