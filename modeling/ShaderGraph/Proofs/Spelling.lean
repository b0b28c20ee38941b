import ShaderGraph.Glsl.Statement
import ShaderGraph.Proofs.Definitions
import ShaderGraph.Proofs.Literals

/-!
# The lexemes of printed statements

What a printed statement is cut into can be told from the statement: `spelledAt` gives the lexemes
of an expression, `spelled` those of conditions and statements with their margins, and the texts
spell these lexemes (`spells_textAt`, `leads_linesOf`). Literals are written by any function that
gives float literals.
-/

namespace ShaderGraph.Glsl

/-! ## Texts and their lexemes -/

/-- A word of the code. -/
def wordOf (text : String) : Lexeme := .word text.toList

/-- The lexemes of characters that belong to no word. -/
def marks (text : String) : List Lexeme := text.toList.map mark

/-- Some characters, each of which ends words. -/
def isSeparator (text : String) : Bool := !text.toList.isEmpty && text.toList.all isBreak

/-- The text is cut into the lexemes, and it ends in the code. -/
structure Spells (text : List Char) (parts : List Lexeme) : Prop where
  lexemes_eq : lexemes text = parts
  ends : stateAfter (.inside .code) text = .inside .code

namespace Spells

variable {x y : List Char} {xs ys : List Lexeme} {c : Char}

theorem nil : Spells [] [] := ⟨rfl, rfl⟩

theorem word (hne : x ≠ []) (h : ∀ c ∈ x, Text.isWordChar c = true) : Spells x [.word x] :=
  ⟨(lexemes_of_isWordChar hne h).1, (lexemes_of_isWordChar hne h).2⟩

/-- Texts that a break parts. -/
theorem append_cons (hx : Spells x xs) (hc : isBreak c = true) (hy : Spells y ys) :
    Spells (x ++ c :: y) (xs ++ mark c :: ys) := by
  have hclosed : ClosedBy c x := closedBy_of_code hc hx.ends
  refine ⟨?_, (stateAfter_append_cons hc hclosed y).trans hy.ends⟩
  rw [lexemes_append_cons hc hclosed, hx.lexemes_eq, hy.lexemes_eq]
  rfl

/-- Breaks in front of a text. -/
theorem breaks_append (hx : ∀ c ∈ x, isBreak c = true) (hy : Spells y ys) :
    Spells (x ++ y) (x.map mark ++ ys) := by
  induction x with
  | nil => exact hy
  | cons c rest ih =>
    obtain ⟨hc, hrest⟩ := List.forall_mem_cons.1 hx
    exact nil.append_cons hc (ih hrest)

/-- Texts with breaks between them. -/
theorem join (hx : Spells x xs) (sep : String) (hsep : isSeparator sep = true)
    (hy : Spells y ys) : Spells (x ++ (sep.toList ++ y)) (xs ++ (marks sep ++ ys)) := by
  rw [isSeparator] at hsep
  rw [marks]
  rcases hchars : sep.toList with _ | ⟨c, rest⟩
  · simp [hchars] at hsep
  · rw [hchars] at hsep
    obtain ⟨hc, hrest⟩ :=
      List.forall_mem_cons.1 (List.all_eq_true.1 (Bool.and_eq_true_iff.1 hsep).2)
    exact hx.append_cons hc (breaks_append hrest hy)

/-- A text with breaks behind it. -/
theorem close (hx : Spells x xs) (sep : String) (hsep : isSeparator sep = true) :
    Spells (x ++ sep.toList) (xs ++ marks sep) := by
  simpa using hx.join sep hsep nil

end Spells

/-- The text is cut into the lexemes also in front of any other text. -/
def Leads (text : List Char) (parts : List Lexeme) : Prop :=
  ∀ y ys, Spells y ys → Spells (text ++ y) (parts ++ ys)

namespace Leads

variable {x y : List Char} {xs ys : List Lexeme}

theorem nil : Leads [] [] := fun _ _ h => h

theorem append (hx : Leads x xs) (hy : Leads y ys) : Leads (x ++ y) (xs ++ ys) := by
  intro z zs hz
  rw [List.append_assoc, List.append_assoc]
  exact hx _ _ (hy z zs hz)

theorem breaks {text : String} (h : text.toList.all isBreak = true) :
    Leads text.toList (marks text) :=
  fun _ _ hy => .breaks_append (List.all_eq_true.1 h) hy

end Leads

/-- What ends with a separator can be followed by anything. -/
theorem Spells.leads {x : List Char} {xs : List Lexeme} (hx : Spells x xs) (sep : String)
    (hsep : isSeparator sep = true) : Leads (x ++ sep.toList) (xs ++ marks sep) := by
  intro y ys hy
  rw [List.append_assoc, List.append_assoc]
  exact hx.join sep hsep hy

/-! ## Numerals and names -/

/-- The lexemes of a float literal. -/
def spelledNumeral (n : Numeral) : List Lexeme :=
  (if n.negative then [mark '-'] else [])
    ++ [.word n.whole, mark '.', .word (n.fraction ++ n.ending)]

theorem isWordChar_of_isDigit {c : Char} (h : c.isDigit = true) : Text.isWordChar c = true := by
  simp [Text.isWordChar, Char.isAlphanum, h]

theorem spells_numeral {n : Numeral} (h : n.IsFloat) : Spells n.text (spelledNumeral n) := by
  have hwhole : Spells n.whole [.word n.whole] :=
    .word h.whole.1 fun c hc => isWordChar_of_isDigit (h.whole.2 c hc)
  have hending : ∀ c ∈ n.ending, Text.isWordChar c = true := by
    intro c hc
    rw [Numeral.ending] at hc
    split at hc
    · cases hc
    · rcases List.mem_cons.1 hc with rfl | hc
      · decide
      · exact isWordChar_of_isDigit (h.exponent c hc)
  have htail : Spells (n.fraction ++ n.ending) [.word (n.fraction ++ n.ending)] := by
    refine .word (by simp [h.fraction.1]) fun c hc => ?_
    rcases List.mem_append.1 hc with hc | hc
    · exact isWordChar_of_isDigit (h.fraction.2 c hc)
    · exact hending c hc
  have hmagnitude : Spells (n.whole ++ '.' :: (n.fraction ++ n.ending))
      [.word n.whole, mark '.', .word (n.fraction ++ n.ending)] :=
    hwhole.append_cons (by decide) htail
  rw [h.text_eq, spelledNumeral]
  cases n.negative with
  | false => exact hmagnitude
  | true => exact Spells.nil.append_cons (by decide) hmagnitude

/-- The words that statements start with. -/
def keywords : List String := ["float", "return", "if", "else"]

/-- An identifier that can be the name of a variable. -/
def IsName (name : String) : Prop := Text.isIdentifier name.toList = true ∧ name ∉ keywords

instance (name : String) : Decidable (IsName name) := inferInstanceAs (Decidable (_ ∧ _))

theorem spells_of_isIdentifier {text : List Char} (h : Text.isIdentifier text = true) :
    Spells text [.word text] :=
  ⟨(lexemes_of_isIdentifier h).1, (lexemes_of_isIdentifier h).2⟩

theorem IsName.spells {name : String} (h : IsName name) :
    Spells name.toList [wordOf name] := spells_of_isIdentifier h.1

/-! ## Expressions -/

/-- The lexeme of an operation. -/
def Operation.lexeme : Operation → Lexeme
  | .add => mark '+'
  | .sub => mark '-'
  | .mul => mark '*'
  | .div => mark '/'

theorem Operation.spells_sign (op : Operation) : Spells op.sign.toList [op.lexeme] := by
  cases op <;> exact ⟨by decide, by decide⟩

/-- The lexemes of arguments with commas between them. -/
def spelledArguments (arguments : List (List Lexeme)) : List Lexeme :=
  (marks ", ").intercalate arguments

/-- The lexemes of a call. -/
def spelledCall (function : String) (arguments : List (List Lexeme)) : List Lexeme :=
  wordOf function :: (marks "(" ++ (spelledArguments arguments ++ marks ")"))

theorem spells_intercalate {texts : List String} {parts : List (List Lexeme)}
    (h : texts.Forall₂ (fun text part => Spells text.toList part) parts) :
    Spells (", ".intercalate texts).toList (spelledArguments parts) := by
  induction h with
  | nil => exact .nil
  | cons hfirst hrest ih =>
    cases hrest with
    | nil => simpa [spelledArguments] using hfirst
    | cons hsecond hrest =>
      rw [String.intercalate_cons_cons, spelledArguments, List.intercalate_cons_cons]
      simp only [String.toList_append, List.append_assoc]
      exact hfirst.join ", " (by decide) ih

theorem spells_callText {function : String} (hfunction : IsName function) {texts : List String}
    {parts : List (List Lexeme)}
    (h : texts.Forall₂ (fun text part => Spells text.toList part) parts) :
    Spells (callText function texts).toList (spelledCall function parts) := by
  simp only [callText, String.toList_append, List.append_assoc]
  exact hfunction.spells.join "(" (by decide) ((spells_intercalate h).close ")" (by decide))

/-- The lexemes of an operation, given those of its operands. -/
def spelledOperation (op : Operation) (left right : List Lexeme) : List Lexeme :=
  left ++ (marks " " ++ ([op.lexeme] ++ (marks " " ++ right)))

section Spelled

variable {α : Type} (write : α → Numeral)

/-- Literals as they are written. -/
def literalText (x : α) : String := String.ofList (write x).text

namespace Expr

/-- The lexemes of an expression as an operand. -/
def spelledAt (least : Nat) : Expr α → List Lexeme
  | .literal value => spelledNumeral (write value)
  | .variable name => [wordOf name]
  | .operation op left right =>
    let inner := spelledOperation op (left.spelledAt op.strength)
      (right.spelledAt (op.strength + 1))
    if op.strength < least then marks "(" ++ (inner ++ marks ")") else inner
  | .mod a b => spelledCall "mod" [a.spelledAt 0, b.spelledAt 0]
  | .max a b => spelledCall "max" [a.spelledAt 0, b.spelledAt 0]
  | .min a b => spelledCall "min" [a.spelledAt 0, b.spelledAt 0]
  | .clamp v lo hi => spelledCall "clamp" [v.spelledAt 0, lo.spelledAt 0, hi.spelledAt 0]
  | .mix a b w => spelledCall "mix" [a.spelledAt 0, b.spelledAt 0, w.spelledAt 0]

/-- All variables have names. -/
def WellNamed : Expr α → Prop
  | .literal _ => True
  | .variable name => IsName name
  | .operation _ a b => a.WellNamed ∧ b.WellNamed
  | .mod a b => a.WellNamed ∧ b.WellNamed
  | .max a b => a.WellNamed ∧ b.WellNamed
  | .min a b => a.WellNamed ∧ b.WellNamed
  | .clamp v lo hi => v.WellNamed ∧ lo.WellNamed ∧ hi.WellNamed
  | .mix a b w => a.WellNamed ∧ b.WellNamed ∧ w.WellNamed

section Signs

variable {a b : Expr α}

@[simp] theorem wellNamed_sub : (a - b).WellNamed ↔ a.WellNamed ∧ b.WellNamed := Iff.rfl

@[simp] theorem wellNamed_div : (a / b).WellNamed ↔ a.WellNamed ∧ b.WellNamed := Iff.rfl

end Signs

variable {write}

/-- **The lexemes of a printed expression.** -/
theorem spells_textAt (hwrite : ∀ x, (write x).IsFloat) {e : Expr α} (he : e.WellNamed)
    (least : Nat) :
    Spells (e.textAt (literalText write) least).toList (e.spelledAt write least) := by
  induction e generalizing least with
  | literal value =>
    rw [textAt, literalText, String.toList_ofList]
    exact spells_numeral (hwrite value)
  | «variable» name => exact he.spells
  | operation op left right ihl ihr =>
    have hinner := (ihl he.1 op.strength).join " " (by decide)
      (op.spells_sign.join " " (by decide) (ihr he.2 (op.strength + 1)))
    rw [← spelledOperation] at hinner
    simp only [textAt, spelledAt]
    split
    · simpa using Spells.nil.join "(" (by decide) (hinner.close ")" (by decide))
    · simpa using hinner
  | mod a b iha ihb =>
    exact spells_callText (by decide) (.cons (iha he.1 0) (.cons (ihb he.2 0) .nil))
  | max a b iha ihb =>
    exact spells_callText (by decide) (.cons (iha he.1 0) (.cons (ihb he.2 0) .nil))
  | min a b iha ihb =>
    exact spells_callText (by decide) (.cons (iha he.1 0) (.cons (ihb he.2 0) .nil))
  | clamp v lo hi ihv ihlo ihhi =>
    exact spells_callText (by decide)
      (.cons (ihv he.1 0) (.cons (ihlo he.2.1 0) (.cons (ihhi he.2.2 0) .nil)))
  | mix a b w iha ihb ihw =>
    exact spells_callText (by decide)
      (.cons (iha he.1 0) (.cons (ihb he.2.1 0) (.cons (ihw he.2.2 0) .nil)))

end Expr

/-! ## Conditions and statements -/

/-- The lexemes of a condition. -/
def Test.spelled : Test α → List Lexeme
  | .atLeast a b => a.spelledAt write 0 ++ (marks " >= " ++ b.spelledAt write 0)
  | .atMost a b => a.spelledAt write 0 ++ (marks " <= " ++ b.spelledAt write 0)
  | .less a b => a.spelledAt write 0 ++ (marks " < " ++ b.spelledAt write 0)
  | .both first second => first.spelled ++ (marks " && " ++ second.spelled)

/-- A comparison. -/
def Test.IsComparison : Test α → Prop
  | .both _ _ => False
  | _ => True

/-- All variables have names, and conditions are joined from the left. -/
def Test.WellNamed : Test α → Prop
  | .atLeast a b => a.WellNamed ∧ b.WellNamed
  | .atMost a b => a.WellNamed ∧ b.WellNamed
  | .less a b => a.WellNamed ∧ b.WellNamed
  | .both first second => first.WellNamed ∧ second.WellNamed ∧ second.IsComparison

/-- The lexemes of an assignment, from its name on. -/
def spelledAssignment (name : String) (value : Expr α) : List Lexeme :=
  wordOf name :: (marks " = " ++ (value.spelledAt write 0 ++ marks ";\n"))

/-- The lexemes of a block from its opening brace on, given those inside it. -/
def spelledBlock (margin : String) (inside : List Lexeme) : List Lexeme :=
  marks "\x7b\n" ++ (inside ++ (marks margin ++ marks "\x7d\n"))

/-- The lexemes of a choice from its `if` on, given those of its body and its alternative. -/
def spelledChoice (margin : String) (test : Test α) (body otherwise : List Lexeme) :
    List Lexeme :=
  wordOf "if" :: (marks " (" ++ (test.spelled write ++ (marks ") "
    ++ (spelledBlock margin body ++ otherwise))))

mutual

/-- The lexemes of the lines of a statement. -/
def Stmt.spelled (margin : String) : Stmt α → List Lexeme
  | .declare name value =>
    marks margin ++ wordOf "float" :: (marks " " ++ spelledAssignment write name value)
  | .assign name value => marks margin ++ spelledAssignment write name value
  | .give value => marks margin
      ++ wordOf "return" :: (marks " " ++ (value.spelledAt write 0 ++ marks ";\n"))
  | .choose test body otherwise =>
    marks margin ++ spelledChoice write margin test (spelledAll (margin ++ "    ") body)
      (spelledAlternative margin otherwise)

/-- The lexemes of statements one after another. -/
def spelledAll (margin : String) : List (Stmt α) → List Lexeme
  | [] => []
  | s :: rest => s.spelled margin ++ spelledAll margin rest

/-- The lexemes of an alternative. -/
def spelledAlternative (margin : String) : List (Stmt α) → List Lexeme
  | [] => []
  | [.choose test body otherwise] =>
    marks margin ++ wordOf "else" :: (marks " "
      ++ spelledChoice write margin test (spelledAll (margin ++ "    ") body)
        (spelledAlternative margin otherwise))
  | s :: rest => marks margin ++ wordOf "else" :: (marks " "
      ++ spelledBlock margin (s.spelled (margin ++ "    ") ++ spelledAll (margin ++ "    ") rest))

end

mutual

/-- All variables have names, and conditions are joined from the left. -/
def Stmt.WellNamed : Stmt α → Prop
  | .declare name value => IsName name ∧ value.WellNamed
  | .assign name value => IsName name ∧ value.WellNamed
  | .give value => value.WellNamed
  | .choose test body otherwise =>
    test.WellNamed ∧ WellNamedAll body ∧ WellNamedAll otherwise

/-- The same of all statements. -/
def WellNamedAll : List (Stmt α) → Prop
  | [] => True
  | s :: rest => s.WellNamed ∧ WellNamedAll rest

end

/-- Whether a margin is made of spaces. -/
def isMargin (margin : String) : Bool := margin.toList.all (· == ' ')

theorem isMargin_deeper {margin : String} (h : isMargin margin = true) :
    isMargin (margin ++ "    ") = true := by
  rw [isMargin, String.toList_append, List.all_append, Bool.and_eq_true]
  exact ⟨h, by decide⟩

theorem leads_margin {margin : String} (h : isMargin margin = true) :
    Leads margin.toList (marks margin) := by
  refine .breaks (List.all_eq_true.2 fun c hc => ?_)
  rw [beq_iff_eq.1 (List.all_eq_true.1 h c hc)]
  decide

/-- Lines, each with its line feed. -/
def feeding (lines : List String) : List Char := lines.flatMap fun line => line.toList ++ ['\n']

variable {write}

section Lines

variable (hwrite : ∀ x, (write x).IsFloat)

include hwrite

theorem Test.spells_text {test : Test α} (h : test.WellNamed) :
    Spells (test.text (literalText write)).toList (test.spelled write) := by
  have hexpr {e : Expr α} (he : e.WellNamed) :
      Spells (e.text (literalText write)).toList (e.spelledAt write 0) :=
    Expr.spells_textAt hwrite he 0
  induction test with
  | atLeast a b =>
    simpa [Test.text, Test.spelled] using (hexpr h.1).join " >= " (by decide) (hexpr h.2)
  | atMost a b =>
    simpa [Test.text, Test.spelled] using (hexpr h.1).join " <= " (by decide) (hexpr h.2)
  | less a b =>
    simpa [Test.text, Test.spelled] using (hexpr h.1).join " < " (by decide) (hexpr h.2)
  | both first second ih ih' =>
    simpa [Test.text, Test.spelled] using (ih h.1).join " && " (by decide) (ih' h.2.1)

theorem leads_value {value : Expr α} (h : value.WellNamed) :
    Leads ((value.text (literalText write)).toList ++ ";\n".toList)
      (value.spelledAt write 0 ++ marks ";\n") :=
  (Expr.spells_textAt hwrite h 0).leads ";\n" (by decide)

theorem leads_assignment {name : String} (hname : IsName name) {value : Expr α}
    (hvalue : value.WellNamed) :
    Leads (name.toList ++ (" = ".toList ++ ((value.text (literalText write)).toList
      ++ ";\n".toList))) (spelledAssignment write name value) := by
  simpa [spelledAssignment] using
    (hname.spells.leads " = " (by decide)).append (leads_value hwrite hvalue)

omit hwrite in
theorem leads_block {margin : String} (hmargin : isMargin margin = true)
    {inside : List Char} {parts : List Lexeme} (h : Leads inside parts) :
    Leads ("\x7b\n".toList ++ (inside ++ (margin.toList ++ "\x7d\n".toList)))
      (spelledBlock margin parts) :=
  (Leads.breaks (by decide)).append (h.append ((leads_margin hmargin).append (.breaks (by decide))))

theorem leads_choice {margin : String} (hmargin : isMargin margin = true)
    {test : Test α} (htest : test.WellNamed) {body alternative : List Char}
    {bodyParts alternativeParts : List Lexeme} (hbody : Leads body bodyParts)
    (halternative : Leads alternative alternativeParts) :
    Leads ("if (".toList ++ ((test.text (literalText write)).toList ++ (") \x7b\n".toList
        ++ (body ++ (margin.toList ++ ("\x7d\n".toList ++ alternative))))))
      (spelledChoice write margin test bodyParts alternativeParts) := by
  have hif : Spells "if".toList [wordOf "if"] := ⟨by decide, by decide⟩
  simpa [spelledChoice] using (hif.leads " (" (by decide)).append
    (((Test.spells_text hwrite htest).leads ") " (by decide)).append
      ((leads_block hmargin hbody).append halternative))

end Lines

mutual

theorem Stmt.leads_lines (hwrite : ∀ x, (write x).IsFloat) {margin : String}
    (hmargin : isMargin margin = true) {s : Stmt α} (h : s.WellNamed) :
    Leads (feeding (s.lines (literalText write) margin)) (s.spelled write margin) := by
  cases s with
  | declare name value =>
    have hfloat : Spells "float".toList [wordOf "float"] := ⟨by decide, by decide⟩
    simpa [Stmt.lines, feeding, Stmt.spelled] using (leads_margin hmargin).append
      ((hfloat.leads " " (by decide)).append (leads_assignment hwrite h.1 h.2))
  | assign name value =>
    simpa [Stmt.lines, feeding, Stmt.spelled] using (leads_margin hmargin).append
      (leads_assignment hwrite h.1 h.2)
  | give value =>
    have hreturn : Spells "return".toList [wordOf "return"] := ⟨by decide, by decide⟩
    simpa [Stmt.lines, feeding, Stmt.spelled] using
      (leads_margin hmargin).append ((hreturn.leads " " (by decide)).append (leads_value hwrite h))
  | choose test body otherwise =>
    have hdeeper := isMargin_deeper hmargin
    simpa [Stmt.lines, feeding, Stmt.spelled] using
      (leads_margin hmargin).append (leads_choice hwrite hmargin h.1
        (leads_linesOf hwrite hdeeper h.2.1) (leads_alternative hwrite hmargin h.2.2))

/-- **The lexemes of printed statements**, whatever comes behind them. -/
theorem leads_linesOf (hwrite : ∀ x, (write x).IsFloat) {margin : String}
    (hmargin : isMargin margin = true) {body : List (Stmt α)} (h : WellNamedAll body) :
    Leads (feeding (linesOf (literalText write) margin body)) (spelledAll write margin body) := by
  cases body with
  | nil => exact .nil
  | cons s rest =>
    simpa [linesOf, feeding, spelledAll] using
      (s.leads_lines hwrite hmargin h.1).append (leads_linesOf hwrite hmargin h.2)

theorem leads_alternative (hwrite : ∀ x, (write x).IsFloat) {margin : String}
    (hmargin : isMargin margin = true) {otherwise : List (Stmt α)} (h : WellNamedAll otherwise) :
    Leads (feeding (alternative (literalText write) margin otherwise))
      (spelledAlternative write margin otherwise) := by
  have hdeeper := isMargin_deeper hmargin
  have helse : Spells "else".toList [wordOf "else"] := ⟨by decide, by decide⟩
  have hlead := (leads_margin hmargin).append (helse.leads " " (by decide))
  cases otherwise with
  | nil => exact .nil
  | cons s rest =>
    have hblock := hlead.append (leads_block hmargin
      ((s.leads_lines hwrite hdeeper h.1).append (leads_linesOf hwrite hdeeper h.2)))
    cases s with
    | declare | assign | give =>
      simpa [alternative, feeding, spelledAlternative] using hblock
    | choose test body otherwise =>
      cases rest with
      | nil =>
        simpa [alternative, feeding, spelledAlternative] using
          hlead.append (leads_choice hwrite hmargin h.1.1
            (leads_linesOf hwrite hdeeper h.1.2.1) (leads_alternative hwrite hmargin h.1.2.2))
      | cons t rest => simpa [alternative, feeding, spelledAlternative] using hblock

end

end Spelled

end ShaderGraph.Glsl
