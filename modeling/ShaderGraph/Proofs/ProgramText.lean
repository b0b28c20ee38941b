import ShaderGraph.Proofs.Assembly

/-!
# The program as one substitution

The marks of the template are replaced one kind after another, and each time all that was put in so
far is searched. `replaceMarks` does the same in one pass: it goes through the template once, puts a
part in place of each mark, and does not look at what it has put in. For parts without two opening
braces in a row the two agree, and no mark is left in the program.
-/

namespace ShaderGraph.Program

/-- The text of the frame with its marks. -/
def template : String := textOf Mark.spelling frame

/-- The mark that a text starts with. -/
def Mark.starting? (text : List Char) : Option Mark :=
  all.find? fun mark => mark.spelling.toList.isPrefixOf text

/-- Walks a text whose next `skip` characters belong to a mark already replaced, and replaces the
marks of all kinds. -/
def replaceMarks (marks : Mark → String) : Nat → List Char → List Char
  | _, [] => []
  | skip + 1, _ :: rest => replaceMarks marks skip rest
  | 0, c :: rest =>
    match Mark.starting? (c :: rest) with
    | some mark => (marks mark).toList ++ replaceMarks marks (mark.spelling.toList.length - 1) rest
    | none => c :: replaceMarks marks 0 rest

/-- The text with all marks replaced at once. -/
def substitute (marks : Mark → String) (text : String) : String :=
  String.ofList (replaceMarks marks 0 text.toList)

variable {marks : Mark → String} {pieces : List (String ⊕ Mark)}

/-! ## One pass -/

namespace Mark

theorem starting?_spelling (mark : Mark) (y : List Char) :
    starting? (mark.spelling.toList ++ y) = some mark := by
  cases hfound : starting? (mark.spelling.toList ++ y) with
  | none =>
    have hnot := List.find?_eq_none.1 hfound mark mark.mem_all
    exact absurd (List.isPrefixOf_iff_prefix.2 (List.prefix_append _ _)) hnot
  | some other =>
    -- of two marks that a text starts with, one starts with the other
    have hother : other.spelling.toList.isPrefixOf (mark.spelling.toList ++ y) = true := by
      rw [starting?] at hfound
      simpa using List.find?_some hfound
    rcases List.prefix_or_prefix_of_prefix (List.isPrefixOf_iff_prefix.1 hother)
      (List.prefix_append _ _) with h | h
    · rw [eq_of_spelling_starts h]
    · rw [eq_of_spelling_starts h]

theorem starting?_eq_none {text : List Char} (h : ¬['\x7b', '\x7b'] <+: text) :
    starting? text = none :=
  List.find?_eq_none.2 fun mark _ hfound =>
    h (mark.braces_prefix_spelling.trans (List.isPrefixOf_iff_prefix.1 hfound))

end Mark

theorem replaceMarks_unmarked (marks : Mark → String) {x y : List Char} (hx : Text.Unmarked x)
    (hseam : x.getLast? ≠ some '\x7b' ∨ y.head? ≠ some '\x7b') :
    replaceMarks marks 0 (x ++ y) = x ++ replaceMarks marks 0 y := by
  induction x with
  | nil => rfl
  | cons c rest ih =>
    have hnone : Mark.starting? (c :: (rest ++ y)) = none :=
      Mark.starting?_eq_none (hx.not_starts hseam)
    rw [List.cons_append, replaceMarks, hnone]
    exact congrArg _ (ih (hx.mono (List.suffix_cons c rest).isInfix) (Text.seam_tail hseam))

theorem replaceMarks_length (marks : Mark → String) (z y : List Char) :
    replaceMarks marks z.length (z ++ y) = replaceMarks marks 0 y := by
  induction z with
  | nil => rfl
  | cons c z ih => exact ih

theorem replaceMarks_spelling (marks : Mark → String) (mark : Mark) (y : List Char) :
    replaceMarks marks 0 (mark.spelling.toList ++ y)
      = (marks mark).toList ++ replaceMarks marks 0 y := by
  have hstarting := mark.starting?_spelling y
  obtain ⟨c, rest, hspelling⟩ : ∃ c rest, mark.spelling.toList = c :: rest :=
    ⟨_, _, mark.toList_spelling⟩
  rw [hspelling, List.cons_append] at hstarting ⊢
  rw [replaceMarks, hstarting]
  simp only [hspelling, List.length_cons, Nat.add_sub_cancel, replaceMarks_length]

/-- **In one pass a frame gets all its parts**, and its own texts stay as they are. -/
theorem substitute_textOf (hpieces : isSpaced pieces = true) (marks : Mark → String) :
    substitute marks (textOf Mark.spelling pieces) = textOf marks pieces := by
  rw [substitute, ← String.toList_inj, String.toList_ofList]
  induction pieces with
  | nil => rfl
  | cons piece rest ih =>
    cases piece with
    | inl text =>
      simp only [isSpaced, Bool.and_eq_true, decide_eq_true_eq, bne_iff_ne] at hpieces
      obtain ⟨⟨htext, hlast⟩, hrest⟩ := hpieces
      rw [textOf_inl, textOf_inl, String.toList_append, String.toList_append,
        replaceMarks_unmarked marks htext (Or.inl hlast), ih hrest]
    | inr mark =>
      rw [isSpaced, Bool.and_eq_true] at hpieces
      rw [textOf_inr, textOf_inr, String.toList_append, String.toList_append,
        replaceMarks_spelling, ih hpieces.2]

/-! ## No mark is left -/

/-- No mark can start in a frame with unmarked parts, nor where a part meets the frame. -/
theorem unmarked_textOf (hpieces : isSpaced pieces = true)
    (hmarks : ∀ m, Text.Unmarked (marks m).toList) :
    Text.Unmarked (textOf marks pieces).toList := by
  induction pieces with
  | nil => exact .of_not_mem (by simp)
  | cons piece rest ih =>
    cases piece with
    | inl text =>
      simp only [isSpaced, Bool.and_eq_true, decide_eq_true_eq, bne_iff_ne] at hpieces
      obtain ⟨⟨htext, hlast⟩, hrest⟩ := hpieces
      rw [textOf_inl, String.toList_append]
      exact htext.append (ih hrest) (Or.inl hlast)
    | inr mark =>
      simp only [isSpaced, Bool.and_eq_true, Option.any_eq_true, bne_iff_ne] at hpieces
      obtain ⟨⟨c, hopening, hc⟩, hrest⟩ := hpieces
      have hhead : (textOf marks rest).toList.head? ≠ some '\x7b' := by
        rw [head?_textOf hopening]
        simpa using hc
      rw [textOf_inr, String.toList_append]
      exact (hmarks mark).append (ih hrest) (Or.inr hhead)

/-- **A program is its template with every mark replaced at once** by its text, wherever the mark
stands and however often, and with no other change. The lines of the uniforms and of the variables
are joined by line feeds, the bodies and the functions, trimmed and without blank ones, by blank
lines. No mark is left. This holds for all programs in which no text has two opening braces in a
row, however the texts start and end. -/
theorem text_substituted (p : Program)
    (h : ∀ text ∈ p.version :: p.color :: (p.uniforms ++ p.globals ++ p.functions ++ p.bodies),
      ¬['\x7b', '\x7b'] <:+: text.toList) :
    p.text = substitute (fun mark => match mark with
      | .version => p.version
      | .time => "uTime"
      | .resolution => "uResolution"
      | .uniforms => "\n".intercalate p.uniforms
      | .globals => "\n".intercalate p.globals
      | .functions => "\n\n".intercalate ((p.functions.map Text.trimmed).filter (· != ""))
      | .body => "\n\n".intercalate p.bodies
      | .color => p.color) template ∧
    ∀ mark : Mark, ¬mark.spelling.toList <:+: p.text.toList := by
  obtain ⟨hversion, hrest⟩ := List.forall_mem_cons.1 h
  obtain ⟨hcolor, htexts⟩ := List.forall_mem_cons.1 hrest
  have hparts : ∀ m ≠ .color, Text.Unmarked (p.part m).toList :=
    fun m hm => unmarked_part (List.forall_mem_cons.2 ⟨hversion, htexts⟩) hm
  have hall : ∀ m, Text.Unmarked (p.part m).toList := by
    intro m
    by_cases hm : m = .color
    · rw [hm]
      exact hcolor
    · exact hparts m hm
  rw [text_eq hparts]
  refine ⟨(substitute_textOf isSpaced_frame p.part).symm, fun mark hmark => ?_⟩
  exact unmarked_textOf isSpaced_frame hall (mark.braces_prefix_spelling.isInfix.trans hmark)

/-- Texts that start or end with a brace, or with the end of a mark, next to the frame and next to
each other. The program has no line of a uniform, and one of its functions is blank. -/
theorem text_substituted_braces :
    let p : Program := ⟨"300 es\x7b", [], ["\x7bTIME\x7d\x7d", "float a\x7b"],
      [" \x7b f() \x7b \x7d \x7b\n", " \t"], ["\x7bBODY\x7d\x7d", "\x7b"], "\x7bCOLOR\x7d\x7d"⟩
    p.text = "\n".intercalate [
      "#version 300 es\x7b",
      "precision highp float;",
      "",
      "uniform float uTime;",
      "uniform vec2 uResolution;",
      "",
      "out vec4 fragColor;",
      "",
      "\x7bTIME\x7d\x7d",
      "float a\x7b",
      "",
      "\x7b f() \x7b \x7d \x7b",
      "",
      "void main() \x7b",
      "    vec2 uv = (gl_FragCoord.xy - 0.5 * uResolution.xy) / uResolution.y;",
      "    vec3 p = vec3(uv, 0.0);",
      "",
      "\x7bBODY\x7d\x7d",
      "",
      "\x7b",
      "",
      "    fragColor = vec4(\x7bCOLOR\x7d\x7d, 1.0);",
      "\x7d",
      ""] ∧
    ∀ mark : Mark, ¬mark.spelling.toList <:+: p.text.toList := by
  intro p
  obtain ⟨htext, hmarks⟩ := text_substituted p (by decide +kernel)
  refine ⟨?_, hmarks⟩
  rw [htext, template, substitute_textOf isSpaced_frame]
  decide +kernel

end ShaderGraph.Program
