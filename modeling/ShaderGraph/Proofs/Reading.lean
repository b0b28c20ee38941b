import ShaderGraph.Proofs.Spelling

/-!
# Printed statements read back

A reader of the statement language, written after the grammar and not after the printer: it has its
own table of operators and groups them by precedence, reads conditions, statements and blocks from
lexemes, and passes over blanks. Recursion is bounded by a number of levels.

What is printed reads back as the tree that it was printed from, with each literal as the numeral
that is written for it.
-/

namespace ShaderGraph.Glsl

variable {α β : Type}

/-! ## Trees with other literals -/

/-- An expression with its literals replaced. -/
def Expr.map (f : α → β) : Expr α → Expr β
  | .literal value => .literal (f value)
  | .variable name => .variable name
  | .operation op left right => .operation op (left.map f) (right.map f)
  | .mod a b => .mod (a.map f) (b.map f)
  | .max a b => .max (a.map f) (b.map f)
  | .min a b => .min (a.map f) (b.map f)
  | .clamp v lo hi => .clamp (v.map f) (lo.map f) (hi.map f)
  | .mix a b w => .mix (a.map f) (b.map f) (w.map f)

/-- A condition with its literals replaced. -/
def Test.map (f : α → β) : Test α → Test β
  | .atLeast a b => .atLeast (a.map f) (b.map f)
  | .atMost a b => .atMost (a.map f) (b.map f)
  | .less a b => .less (a.map f) (b.map f)
  | .both first second => .both (first.map f) (second.map f)

mutual

/-- A statement with its literals replaced. -/
def Stmt.map (f : α → β) : Stmt α → Stmt β
  | .declare name value => .declare name (value.map f)
  | .assign name value => .assign name (value.map f)
  | .give value => .give (value.map f)
  | .choose test body otherwise => .choose (test.map f) (mapAll f body) (mapAll f otherwise)

/-- Statements with their literals replaced. -/
def mapAll (f : α → β) : List (Stmt α) → List (Stmt β)
  | [] => []
  | s :: rest => s.map f :: mapAll f rest

end

/-- The literals of an expression. -/
def Expr.literals : Expr α → List α
  | .literal value => [value]
  | .variable _ => []
  | .operation _ a b => a.literals ++ b.literals
  | .mod a b => a.literals ++ b.literals
  | .max a b => a.literals ++ b.literals
  | .min a b => a.literals ++ b.literals
  | .clamp v lo hi => v.literals ++ (lo.literals ++ hi.literals)
  | .mix a b w => a.literals ++ (b.literals ++ w.literals)

/-- The literals of a condition. -/
def Test.literals : Test α → List α
  | .atLeast a b => a.literals ++ b.literals
  | .atMost a b => a.literals ++ b.literals
  | .less a b => a.literals ++ b.literals
  | .both first second => first.literals ++ second.literals

mutual

/-- The literals of a statement. -/
def Stmt.literals : Stmt α → List α
  | .declare _ value => value.literals
  | .assign _ value => value.literals
  | .give value => value.literals
  | .choose test body otherwise =>
    test.literals ++ (literalsOf body ++ literalsOf otherwise)

/-- The literals of statements. -/
def literalsOf : List (Stmt α) → List α
  | [] => []
  | s :: rest => s.literals ++ literalsOf rest

end

section Restored

variable {f : α → β} {g : β → α}

/-- Literals that are given back give the tree back. -/
theorem Expr.map_map_of_literals {e : Expr α} (h : ∀ x ∈ e.literals, g (f x) = x) :
    (e.map f).map g = e := by
  induction e with
  | literal value => simp only [Expr.map, h value List.mem_cons_self]
  | «variable» name => rfl
  | operation _ a b iha ihb | mod a b iha ihb | max a b iha ihb | min a b iha ihb =>
    obtain ⟨ha, hb⟩ := List.forall_mem_append.1 h
    simp only [Expr.map, iha ha, ihb hb]
  | clamp a b c iha ihb ihc | mix a b c iha ihb ihc =>
    obtain ⟨ha, hrest⟩ := List.forall_mem_append.1 h
    obtain ⟨hb, hc⟩ := List.forall_mem_append.1 hrest
    simp only [Expr.map, iha ha, ihb hb, ihc hc]

theorem Test.map_map_of_literals {test : Test α} (h : ∀ x ∈ test.literals, g (f x) = x) :
    (test.map f).map g = test := by
  induction test with
  | atLeast a b | atMost a b | less a b =>
    obtain ⟨ha, hb⟩ := List.forall_mem_append.1 h
    simp only [Test.map, Expr.map_map_of_literals ha, Expr.map_map_of_literals hb]
  | both first second ih ih' =>
    obtain ⟨hfirst, hsecond⟩ := List.forall_mem_append.1 h
    simp only [Test.map, ih hfirst, ih' hsecond]

mutual

theorem Stmt.map_map_of_literals {s : Stmt α} (h : ∀ x ∈ s.literals, g (f x) = x) :
    (s.map f).map g = s := by
  cases s with
  | declare name value => simp only [Stmt.map, Expr.map_map_of_literals h]
  | assign name value => simp only [Stmt.map, Expr.map_map_of_literals h]
  | give value => simp only [Stmt.map, Expr.map_map_of_literals h]
  | choose test body otherwise =>
    obtain ⟨htest, hblocks⟩ := List.forall_mem_append.1 h
    obtain ⟨hbody, hotherwise⟩ := List.forall_mem_append.1 hblocks
    simp only [Stmt.map, Test.map_map_of_literals htest, mapAll_mapAll_of_literals hbody,
      mapAll_mapAll_of_literals hotherwise]

theorem mapAll_mapAll_of_literals {body : List (Stmt α)} (h : ∀ x ∈ literalsOf body, g (f x) = x) :
    mapAll g (mapAll f body) = body := by
  cases body with
  | nil => rfl
  | cons s rest =>
    obtain ⟨hs, hrest⟩ := List.forall_mem_append.1 h
    simp only [mapAll, Stmt.map_map_of_literals hs, mapAll_mapAll_of_literals hrest]

end

end Restored

/-! ## The reader -/

/-- Lexemes from the first on that says something. -/
def skip (parts : List Lexeme) : List Lexeme := parts.dropWhile Lexeme.isTrivial

/-- What follows a lexeme, blanks before it aside. -/
def expect? (lexeme : Lexeme) (parts : List Lexeme) : Option (List Lexeme) :=
  match skip parts with
  | [] => none
  | first :: rest => if first = lexeme then some rest else none

/-- The name that a lexeme is. -/
def name? (lexeme : Lexeme) : Option String :=
  match lexeme.identifier? with
  | none => none
  | some chars => if String.ofList chars ∈ keywords then none else some (String.ofList chars)

/-- The name that comes next. -/
def readName (parts : List Lexeme) : Option (String × List Lexeme) :=
  match skip parts with
  | [] => none
  | first :: rest => (name? first).map fun name => (name, rest)

/-- A float literal without a sign. -/
def number? : List Lexeme → Option (Numeral × List Lexeme)
  | .word whole :: point :: .word tail :: rest =>
    let fraction := tail.takeWhile Char.isDigit
    if point = mark '.' ∧ whole.all Char.isDigit = true ∧ fraction ≠ [] then
      match tail.dropWhile Char.isDigit with
      | [] => some (⟨false, whole, fraction, []⟩, rest)
      | letter :: exponent =>
        if letter = 'e' ∧ exponent ≠ [] ∧ exponent.all Char.isDigit = true then
          some (⟨false, whole, fraction, exponent⟩, rest)
        else none
    else none
  | _ => none

/-- The operators and how tightly they bind. -/
def operators : List (Char × Operation × Nat) :=
  [('+', .add, 1), ('-', .sub, 1), ('*', .mul, 2), ('/', .div, 2)]

/-- The operator that comes next. -/
def operator? (parts : List Lexeme) : Option (Operation × Nat × List Lexeme) :=
  match skip parts with
  | [] => none
  | first :: rest =>
    (operators.find? fun entry => first = mark entry.1).map fun entry =>
      (entry.2.1, entry.2.2, rest)

/-- The call of a function. -/
def call? : String → List (Expr Numeral) → Option (Expr Numeral)
  | "mod", [a, b] => some (.mod a b)
  | "max", [a, b] => some (.max a b)
  | "min", [a, b] => some (.min a b)
  | "clamp", [v, lo, hi] => some (.clamp v lo hi)
  | "mix", [a, b, w] => some (.mix a b w)
  | _, _ => none

mutual

/-- An expression whose operators bind at least as tightly as given. -/
def readExpr : Nat → Nat → List Lexeme → Option (Expr Numeral × List Lexeme)
  | 0, _, _ => none
  | n + 1, least, parts => do
    let (left, rest) ← readOperand n parts
    climb n least left rest

/-- What becomes of an expression with the operators behind it. -/
def climb : Nat → Nat → Expr Numeral → List Lexeme → Option (Expr Numeral × List Lexeme)
  | 0, _, _, _ => none
  | n + 1, least, left, parts =>
    match operator? parts with
    | none => some (left, parts)
    | some (op, strength, rest) =>
      if strength < least then some (left, parts)
      else do
        let (right, rest) ← readExpr n (strength + 1) rest
        climb n least (.operation op left right) rest

/-- An expression without operators outside parentheses. -/
def readOperand : Nat → List Lexeme → Option (Expr Numeral × List Lexeme)
  | 0, _ => none
  | n + 1, parts =>
    match skip parts with
    | [] => none
    | first :: rest =>
      if first = mark '(' then do
        let (e, rest) ← readExpr n 0 rest
        let rest ← expect? (mark ')') rest
        return (e, rest)
      else if first = mark '-' then do
        let (number, rest) ← number? rest
        return (.literal { number with negative := true }, rest)
      else
        match name? first with
        | none => do
          let (number, rest) ← number? (first :: rest)
          return (.literal number, rest)
        | some name =>
          match expect? (mark '(') rest with
          | none => some (.variable name, rest)
          | some rest => do
            let (arguments, rest) ← readArguments n rest
            let e ← call? name arguments
            return (e, rest)

/-- Arguments up to the closing parenthesis. -/
def readArguments : Nat → List Lexeme → Option (List (Expr Numeral) × List Lexeme)
  | 0, _ => none
  | n + 1, parts => do
    let (e, rest) ← readExpr n 0 parts
    match expect? (mark ',') rest with
    | some rest =>
      let (more, rest) ← readArguments n rest
      return (e :: more, rest)
    | none =>
      let rest ← expect? (mark ')') rest
      return ([e], rest)

end

/-- The sign of a comparison. -/
def comparison? (parts : List Lexeme) :
    Option ((Expr Numeral → Expr Numeral → Test Numeral) × List Lexeme) :=
  match skip parts with
  | first :: second :: rest =>
    if first = mark '>' ∧ second = mark '=' then some (.atLeast, rest)
    else if first = mark '<' ∧ second = mark '=' then some (.atMost, rest)
    else if first = mark '<' then some (.less, second :: rest)
    else none
  | _ => none

/-- What follows the sign that joins two conditions. -/
def and? (parts : List Lexeme) : Option (List Lexeme) :=
  match skip parts with
  | first :: second :: rest => if first = mark '&' ∧ second = mark '&' then some rest else none
  | _ => none

/-- A comparison. -/
def readComparison (n : Nat) (parts : List Lexeme) : Option (Test Numeral × List Lexeme) := do
  let (a, rest) ← readExpr n 0 parts
  let (compare, rest) ← comparison? rest
  let (b, rest) ← readExpr n 0 rest
  return (compare a b, rest)

/-- What becomes of a condition with those that are joined to it. -/
def readJoined : Nat → Test Numeral → List Lexeme → Option (Test Numeral × List Lexeme)
  | 0, _, _ => none
  | n + 1, first, parts =>
    match and? parts with
    | none => some (first, parts)
    | some rest => do
      let (second, rest) ← readComparison n rest
      readJoined n (.both first second) rest

/-- A condition. -/
def readTest (n : Nat) (parts : List Lexeme) : Option (Test Numeral × List Lexeme) := do
  let (first, rest) ← readComparison n parts
  readJoined n first rest

/-- A value up to the end of its statement. -/
def readValue (n : Nat) (parts : List Lexeme) : Option (Expr Numeral × List Lexeme) := do
  let (value, rest) ← readExpr n 0 parts
  let rest ← expect? (mark ';') rest
  return (value, rest)

/-- A name and the value that it is given. -/
def readAssignment (n : Nat) (parts : List Lexeme) :
    Option (String × Expr Numeral × List Lexeme) := do
  let (name, rest) ← readName parts
  let rest ← expect? (mark '=') rest
  let (value, rest) ← readValue n rest
  return (name, value, rest)

mutual

/-- A statement. -/
def readStmt : Nat → List Lexeme → Option (Stmt Numeral × List Lexeme)
  | 0, _ => none
  | n + 1, parts =>
    match expect? (wordOf "float") parts with
    | some rest => do
      let (name, value, rest) ← readAssignment n rest
      return (.declare name value, rest)
    | none =>
      match expect? (wordOf "return") parts with
      | some rest => do
        let (value, rest) ← readValue n rest
        return (.give value, rest)
      | none =>
        match expect? (wordOf "if") parts with
        | some rest => readChoice n rest
        | none => do
          let (name, value, rest) ← readAssignment n parts
          return (.assign name value, rest)

/-- A choice, from its condition on. -/
def readChoice : Nat → List Lexeme → Option (Stmt Numeral × List Lexeme)
  | 0, _ => none
  | n + 1, parts => do
    let rest ← expect? (mark '(') parts
    let (test, rest) ← readTest n rest
    let rest ← expect? (mark ')') rest
    let rest ← expect? (mark '\x7b') rest
    let (body, rest) ← readStmts n rest
    let (otherwise, rest) ← readAlternative n rest
    return (.choose test body otherwise, rest)

/-- Statements up to the closing brace. -/
def readStmts : Nat → List Lexeme → Option (List (Stmt Numeral) × List Lexeme)
  | 0, _ => none
  | n + 1, parts =>
    match expect? (mark '\x7d') parts with
    | some rest => some ([], rest)
    | none => do
      let (s, rest) ← readStmt n parts
      let (more, rest) ← readStmts n rest
      return (s :: more, rest)

/-- The alternative of a choice, if there is one. -/
def readAlternative : Nat → List Lexeme → Option (List (Stmt Numeral) × List Lexeme)
  | 0, _ => none
  | n + 1, parts =>
    match expect? (wordOf "else") parts with
    | none => some ([], parts)
    | some rest =>
      match expect? (wordOf "if") rest with
      | some rest => do
        let (s, rest) ← readChoice n rest
        return ([s], rest)
      | none => do
        let rest ← expect? (mark '\x7b') rest
        readStmts n rest

end

/-! ## Blanks and marks -/

section Marks

variable {c : Char} {word : List Char} {text : String} {parts : List Lexeme}

@[simp] theorem skip_mark :
    skip (mark c :: parts) = if Lexeme.isSpace c then skip parts else mark c :: parts := by
  simp [skip, Lexeme.isTrivial, mark, List.dropWhile_cons]

@[simp] theorem skip_nil : skip [] = [] := rfl

@[simp] theorem skip_word : skip (.word word :: parts) = .word word :: parts := rfl

@[simp] theorem mark_inj {d : Char} : mark c = mark d ↔ c = d := by simp [mark]

@[simp] theorem skip_wordOf : skip (wordOf text :: parts) = wordOf text :: parts := rfl

@[simp] theorem wordOf_inj {text' : String} : wordOf text = wordOf text' ↔ text = text' := by
  simp [wordOf, String.toList_inj]

@[simp] theorem mark_ne_wordOf : mark c ≠ wordOf text := nofun

@[simp] theorem wordOf_ne_mark : wordOf text ≠ mark c := nofun

@[simp] theorem word_ne_mark : .word word ≠ mark c := nofun

end Marks

theorem marks_space : marks " " = [mark ' '] := rfl

/-! ## Numbers and names -/

theorem name?_of_isName {name : String} (h : IsName name) :
    name? (wordOf name) = some name := by
  have hstart : Text.startsIdentifier name.toList = true := (Bool.and_eq_true_iff.1 h.1).1
  simp [name?, wordOf, Lexeme.identifier?, hstart, h.2]

/-- A number is no name. -/
theorem name?_of_digits {digits : List Char} (h : ∀ c ∈ digits, c.isDigit = true) :
    name? (.word digits) = none := by
  have hstart : Text.startsIdentifier digits = false := by
    rcases digits with _ | ⟨c, rest⟩
    · rfl
    · have hc : c.isDigit = true := h c List.mem_cons_self
      delta Char.isDigit at hc
      delta Text.startsIdentifier Text.isWordStart Char.isAlpha Char.isUpper Char.isLower
      simp only [Bool.and_eq_true, decide_eq_true_eq, ge_iff_le, UInt32.le_iff_toNat_le] at hc
      simp only [Bool.or_eq_false_iff, Bool.and_eq_false_iff, decide_eq_false_iff_not,
        beq_eq_false_iff_ne, ge_iff_le, UInt32.le_iff_toNat_le, ne_eq, ← Char.toNat_inj]
      simp at hc ⊢
      omega
  simp [name?, Lexeme.identifier?, hstart]

/-- The digits of a float literal read back. -/
theorem number?_spelled {n : Numeral} (h : n.IsFloat) (rest : List Lexeme) :
    number? (.word n.whole :: mark '.' :: .word (n.fraction ++ n.ending) :: rest)
      = some ({ n with negative := false }, rest) := by
  obtain ⟨htake, hdrop⟩ := takeWhile_digits h.fraction.2 n.head?_ending
  have hwhole : n.whole.all Char.isDigit = true := List.all_eq_true.2 h.whole.2
  have hexponent : n.exponent.all Char.isDigit = true := List.all_eq_true.2 h.exponent
  simp only [number?, htake, hdrop]
  rw [if_pos ⟨trivial, hwhole, h.fraction.1⟩]
  cases he : n.exponent with
  | nil => simp [Numeral.ending, he]
  | cons c exponent =>
    rw [he] at hexponent
    simp [Numeral.ending, he, hexponent]

/-! ## Expressions -/

/-- What may follow an operand of the given strength: no parenthesis, and no operator that binds
more tightly. -/
structure Follows (strength : Nat) (rest : List Lexeme) : Prop where
  parenthesis : expect? (mark '(') rest = none
  operator : ∀ next ∈ operator? rest, next.2.1 ≤ strength

/-- What ends an expression: neither a parenthesis nor an operator follows. -/
structure Ends (rest : List Lexeme) : Prop where
  parenthesis : expect? (mark '(') rest = none
  operator : operator? rest = none

/-- Whether a mark ends expressions. -/
def endsExpr (c : Char) : Bool :=
  !Lexeme.isSpace c && c != '(' && operators.all fun entry => c != entry.1

theorem ends_mark {c : Char} (h : endsExpr c = true) (rest : List Lexeme) :
    Ends (mark c :: rest) := by
  simp only [endsExpr, Bool.and_eq_true, Bool.not_eq_true', bne_iff_ne, List.all_eq_true] at h
  obtain ⟨⟨hspace, hparenthesis⟩, hoperators⟩ := h
  have hfind : (operators.find? fun entry => mark c = mark entry.1) = none :=
    List.find?_eq_none.2 fun entry hentry => by simpa using hoperators entry hentry
  refine ⟨by simp [expect?, hspace, hparenthesis], ?_⟩
  rw [operator?, skip_mark, if_neg (by simp [hspace])]
  exact Option.map_eq_none_iff.2 hfind

theorem Ends.space {rest : List Lexeme} (h : Ends rest) : Ends (mark ' ' :: rest) where
  parenthesis := by simpa [expect?, Lexeme.isSpace] using h.parenthesis
  operator := by simpa [operator?, Lexeme.isSpace] using h.operator

theorem Ends.follows {rest : List Lexeme} (h : Ends rest) (strength : Nat) :
    Follows strength rest :=
  ⟨h.parenthesis, by simp [h.operator]⟩

theorem Follows.mono {s t : Nat} {rest : List Lexeme} (h : Follows s rest) (hst : s ≤ t) :
    Follows t rest :=
  ⟨h.parenthesis, fun next hnext => (h.operator next hnext).trans hst⟩

/-- Where no operator that binds tightly enough follows, the expression is complete. -/
theorem climb_of_follows {strength least : Nat} {rest : List Lexeme} (h : Follows strength rest)
    (hlt : strength < least) (e : Expr Numeral) {k : Nat} (hk : 1 ≤ k) :
    climb k least e rest = some (e, rest) := by
  obtain ⟨n, rfl⟩ := Nat.exists_eq_add_of_le' hk
  rw [climb]
  split
  · rfl
  · rename_i op s rest' hop
    rw [if_pos (lt_of_le_of_lt (h.operator _ hop) hlt)]

theorem climb_of_ends {least : Nat} {rest : List Lexeme} (h : Ends rest) (e : Expr Numeral)
    {k : Nat} (hk : 1 ≤ k) : climb k least e rest = some (e, rest) := by
  obtain ⟨n, rfl⟩ := Nat.exists_eq_add_of_le' hk
  rw [climb, h.operator]

/-- An operation binds as tightly as it is written. -/
theorem operator?_lexeme (op : Operation) (rest : List Lexeme) :
    operator? (mark ' ' :: op.lexeme :: rest) = some (op, op.strength, rest) := by
  cases op <;> simp [operator?, Operation.lexeme, Lexeme.isSpace, operators, Operation.strength]

theorem readOperand_space (k : Nat) (parts : List Lexeme) :
    readOperand k (mark ' ' :: parts) = readOperand k parts := by
  cases k <;> simp [readOperand, Lexeme.isSpace]

theorem readExpr_space (k least : Nat) (parts : List Lexeme) :
    readExpr k least (mark ' ' :: parts) = readExpr k least parts := by
  cases k <;> simp [readExpr, readOperand_space]

theorem readArguments_space (k : Nat) (parts : List Lexeme) :
    readArguments k (mark ' ' :: parts) = readArguments k parts := by
  cases k <;> simp [readArguments, readExpr_space]

section Expressions

variable (write : α → Numeral)

/-- Wherever an expression stands as an operand, it is read as what it was written for, and then
the operators behind it are considered. There have to be two levels for each lexeme. -/
def Expr.ReadsBack (e : Expr α) : Prop :=
  ∀ ⦃m least N k : Nat⦄ ⦃rest : List Lexeme⦄ ⦃result : Expr Numeral × List Lexeme⦄,
    least ≤ m → Follows m rest → (∀ j ≥ N, climb j least (e.map write) rest = some result) →
    N + 2 * (e.spelledAt write m).length ≤ k →
    readExpr k least (e.spelledAt write m ++ rest) = some result

variable {write} {e left right : Expr α}

/-- An expression by itself, up to what ends it. -/
theorem Expr.ReadsBack.readExpr_eq (h : e.ReadsBack write) {rest : List Lexeme} (hrest : Ends rest)
    {k : Nat} (hk : 1 + 2 * (e.spelledAt write 0).length ≤ k) :
    readExpr k 0 (e.spelledAt write 0 ++ rest) = some (e.map write, rest) :=
  h le_rfl (hrest.follows 0) (fun _ hj => climb_of_ends hrest _ hj) hk

/-- What is read in one piece reads back. -/
theorem readExpr_of_operand {parts rest : List Lexeme} {e : Expr Numeral} {least N k : Nat}
    {result : Expr Numeral × List Lexeme} (hparts : parts ≠ [])
    (hoperand : ∀ j, 2 * parts.length ≤ j + 1 → readOperand j (parts ++ rest) = some (e, rest))
    (hclimb : ∀ j ≥ N, climb j least e rest = some result) (hk : N + 2 * parts.length ≤ k) :
    readExpr k least (parts ++ rest) = some result := by
  have hlength : 0 < parts.length := List.length_pos_iff.2 hparts
  obtain ⟨n, rfl⟩ := Nat.exists_eq_add_of_le' (show 1 ≤ k by omega)
  rw [readExpr, hoperand n (by omega)]
  exact hclimb n (by omega)

theorem readOperand_numeral {n : Numeral} (h : n.IsFloat) (rest : List Lexeme) {j : Nat}
    (hj : 1 ≤ j) : readOperand j (spelledNumeral n ++ rest) = some (.literal n, rest) := by
  obtain ⟨i, rfl⟩ := Nat.exists_eq_add_of_le' hj
  have hnumber := number?_spelled h rest
  have hname := name?_of_digits h.whole.2
  cases hsign : n.negative with
  | true =>
    have hself : { n with negative := true } = n := by rw [← hsign]
    simp [readOperand, spelledNumeral, hsign, Lexeme.isSpace, hnumber, hself]
  | false =>
    have hself : { n with negative := false } = n := by rw [← hsign]
    simp [readOperand, spelledNumeral, hsign, hname, hnumber, hself]

theorem readOperand_name {name : String} (h : IsName name) {rest : List Lexeme}
    (hrest : expect? (mark '(') rest = none) {j : Nat} (hj : 1 ≤ j) :
    readOperand j (wordOf name :: rest) = some (.variable name, rest) := by
  obtain ⟨i, rfl⟩ := Nat.exists_eq_add_of_le' hj
  simp [readOperand, name?_of_isName h, hrest]

theorem readOperand_parentheses {parts rest : List Lexeme} {e : Expr Numeral} {j : Nat}
    (h : readExpr j 0 (parts ++ mark ')' :: rest) = some (e, mark ')' :: rest)) :
    readOperand (j + 1) (mark '(' :: (parts ++ mark ')' :: rest)) = some (e, rest) := by
  simp [readOperand, Lexeme.isSpace, h, expect?]

/-- Arguments are read up to the closing parenthesis. -/
theorem readArguments_spelled {arguments : List (Expr α)} (hne : arguments ≠ [])
    (h : ∀ e ∈ arguments, e.ReadsBack write) (rest : List Lexeme) {k : Nat}
    (hk : 2 + 2 * (spelledArguments (arguments.map (·.spelledAt write 0))).length ≤ k) :
    readArguments k (spelledArguments (arguments.map (·.spelledAt write 0)) ++ mark ')' :: rest)
      = some (arguments.map (·.map write), rest) := by
  induction arguments generalizing k with
  | nil => exact absurd rfl hne
  | cons e arguments ih =>
    obtain ⟨he, harguments⟩ := List.forall_mem_cons.1 h
    obtain ⟨n, rfl⟩ := Nat.exists_eq_add_of_le' (show 1 ≤ k by omega)
    cases arguments with
    | nil =>
      have hlast : readExpr n 0 (e.spelledAt write 0 ++ mark ')' :: rest)
          = some (e.map write, mark ')' :: rest) :=
        he.readExpr_eq (ends_mark (by decide) rest) (by simp [spelledArguments] at hk; omega)
      simp [spelledArguments, readArguments, hlast, expect?, Lexeme.isSpace]
    | cons f arguments =>
      have hsplit : spelledArguments ((e :: f :: arguments).map (·.spelledAt write 0))
          = e.spelledAt write 0 ++ mark ',' :: mark ' '
            :: spelledArguments ((f :: arguments).map (·.spelledAt write 0)) := by
        simp [spelledArguments, marks]
      rw [hsplit] at hk ⊢
      generalize spelledArguments ((f :: arguments).map (·.spelledAt write 0)) = more at ih hk ⊢
      simp only [List.length_append, List.length_cons] at hk
      have hfirst : readExpr n 0 (e.spelledAt write 0 ++ mark ',' :: mark ' '
          :: (more ++ mark ')' :: rest))
          = some (e.map write, mark ',' :: mark ' ' :: (more ++ mark ')' :: rest)) :=
        he.readExpr_eq (ends_mark (by decide) _) (by omega)
      have hmore :=
        ih (List.cons_ne_nil f arguments) harguments (show 2 + 2 * more.length ≤ n by omega)
      simp [readArguments, hfirst, expect?, Lexeme.isSpace, readArguments_space, hmore]

/-- A call reads back if its arguments do. -/
theorem readsBack_call (function : String) (hfunction : IsName function)
    (arguments : List (Expr α)) (hne : arguments ≠ []) (h : ∀ e ∈ arguments, e.ReadsBack write)
    (hspelled : ∀ m, e.spelledAt write m
      = spelledCall function (arguments.map (·.spelledAt write 0)))
    (hcall : call? function (arguments.map (·.map write)) = some (e.map write)) :
    e.ReadsBack write := by
  intro m least N k rest result _ _ hclimb hk
  have hlength : (e.spelledAt write m).length
      = (spelledArguments (arguments.map (·.spelledAt write 0))).length + 3 := by
    simp [hspelled, spelledCall, marks]
  refine readExpr_of_operand (List.length_pos_iff.1 (by omega)) (fun j hj => ?_) hclimb hk
  obtain ⟨i, rfl⟩ := Nat.exists_eq_add_of_le' (show 1 ≤ j by omega)
  have harguments := readArguments_spelled hne h rest (show _ ≤ i by omega)
  simp [hspelled, spelledCall, readOperand, name?_of_isName hfunction, expect?, marks,
    Lexeme.isSpace, harguments, hcall]

/-- The operands of an operation read back, the left one first. -/
theorem readExpr_operation {op : Operation} (hleft : left.ReadsBack write)
    (hright : right.ReadsBack write) {least N k : Nat} {rest : List Lexeme}
    {result : Expr Numeral × List Lexeme} (hleast : least ≤ op.strength)
    (hrest : Follows op.strength rest)
    (hclimb : ∀ j ≥ N, climb j least ((Expr.operation op left right).map write) rest = some result)
    (hk : N + 2 * (spelledOperation op (left.spelledAt write op.strength)
      (right.spelledAt write (op.strength + 1))).length ≤ k) :
    readExpr k least (spelledOperation op (left.spelledAt write op.strength)
      (right.spelledAt write (op.strength + 1)) ++ rest) = some result := by
  have hparts (x y : List Lexeme) :
      spelledOperation op x y = x ++ mark ' ' :: op.lexeme :: mark ' ' :: y := rfl
  rw [hparts] at hk ⊢
  simp only [List.length_append, List.length_cons] at hk
  simp only [List.append_assoc, List.cons_append]
  have hop := operator?_lexeme op (mark ' ' :: (right.spelledAt write (op.strength + 1) ++ rest))
  have hfollows : Follows op.strength (mark ' ' :: op.lexeme :: mark ' '
      :: (right.spelledAt write (op.strength + 1) ++ rest)) := by
    constructor
    · cases op <;> simp [expect?, Operation.lexeme, Lexeme.isSpace]
    · simp [hop]
  -- behind the left operand the operator is met, and behind it the right operand
  refine hleft hleast hfollows (N := N + 2 * (right.spelledAt write (op.strength + 1)).length + 2)
    (fun j hj => ?_) (by omega)
  obtain ⟨i, rfl⟩ := Nat.exists_eq_add_of_le' (show 1 ≤ j by omega)
  have hoperand : readExpr i (op.strength + 1) (right.spelledAt write (op.strength + 1) ++ rest)
      = some (right.map write, rest) :=
    hright le_rfl (hrest.mono (Nat.le_succ _))
      (fun j hj => climb_of_follows hrest (Nat.lt_succ_self _) (right.map write) hj)
      (show 1 + _ ≤ i by omega)
  rw [climb, hop]
  simp only [if_neg (Nat.not_lt.2 hleast), readExpr_space, hoperand, Option.bind_eq_bind,
    Option.bind_some]
  exact hclimb i (by omega)

/-- **A printed expression reads back.** -/
theorem Expr.readsBack (hwrite : ∀ x, (write x).IsFloat) {e : Expr α} (he : e.WellNamed) :
    e.ReadsBack write := by
  induction e with
  | literal value =>
    intro m least N k rest result _ _ hclimb hk
    refine readExpr_of_operand ?_ (fun j hj => readOperand_numeral (hwrite value) rest ?_) hclimb hk
    · simp [spelledAt, spelledNumeral]
    · simp [spelledAt, spelledNumeral] at hj
      omega
  | «variable» name =>
    intro m least N k rest result _ hrest hclimb hk
    refine readExpr_of_operand (by simp [spelledAt]) (fun j hj => ?_) hclimb hk
    exact readOperand_name he hrest.parenthesis (by simp [spelledAt] at hj; omega)
  | operation op left right ihl ihr =>
    intro m least N k rest result hleast hrest hclimb hk
    by_cases hm : op.strength < m
    · -- in parentheses, where any operator may stand
      have hends : Ends (mark ')' :: rest) := ends_mark (by decide) rest
      have hlength (inner : List Lexeme) :
          (marks "(" ++ (inner ++ marks ")")).length = inner.length + 2 := by simp [marks]
      rw [spelledAt, if_pos hm] at hk ⊢
      refine readExpr_of_operand (by simp [marks]) (fun j hj => ?_) hclimb hk
      rw [hlength] at hj
      obtain ⟨i, rfl⟩ := Nat.exists_eq_add_of_le' (show 1 ≤ j by omega)
      have hinner := readExpr_operation (ihl he.1) (ihr he.2) (Nat.zero_le op.strength)
        (hends.follows op.strength) (fun j hj => climb_of_ends hends _ hj) (show 1 + _ ≤ i by omega)
      simpa [marks] using readOperand_parentheses hinner
    · rw [spelledAt, if_neg hm] at hk ⊢
      exact readExpr_operation (ihl he.1) (ihr he.2) (hleast.trans (Nat.not_lt.1 hm))
        (hrest.mono (Nat.not_lt.1 hm)) hclimb hk
  | mod a b iha ihb =>
    exact readsBack_call "mod" (by decide) [a, b] (by simp) (by simpa using ⟨iha he.1, ihb he.2⟩)
      (fun _ => rfl) rfl
  | max a b iha ihb =>
    exact readsBack_call "max" (by decide) [a, b] (by simp) (by simpa using ⟨iha he.1, ihb he.2⟩)
      (fun _ => rfl) rfl
  | min a b iha ihb =>
    exact readsBack_call "min" (by decide) [a, b] (by simp) (by simpa using ⟨iha he.1, ihb he.2⟩)
      (fun _ => rfl) rfl
  | clamp v lo hi ihv ihlo ihhi =>
    exact readsBack_call "clamp" (by decide) [v, lo, hi] (by simp)
      (by simpa using ⟨ihv he.1, ihlo he.2.1, ihhi he.2.2⟩) (fun _ => rfl) rfl
  | mix a b w iha ihb ihw =>
    exact readsBack_call "mix" (by decide) [a, b, w] (by simp)
      (by simpa using ⟨iha he.1, ihb he.2.1, ihw he.2.2⟩) (fun _ => rfl) rfl

end Expressions

/-! ## Conditions -/

theorem readComparison_space (k : Nat) (parts : List Lexeme) :
    readComparison k (mark ' ' :: parts) = readComparison k parts := by
  simp [readComparison, readExpr_space]

section Conditions

variable {write : α → Numeral} (hwrite : ∀ x, (write x).IsFloat)

include hwrite

theorem readExpr_spelled {e : Expr α} (h : e.WellNamed) {rest : List Lexeme} (hrest : Ends rest)
    {k : Nat} (hk : 1 + 2 * (e.spelledAt write 0).length ≤ k) :
    readExpr k 0 (e.spelledAt write 0 ++ rest) = some (e.map write, rest) :=
  (Expr.readsBack hwrite h).readExpr_eq hrest hk

/-- A comparison with a sign that ends its left side. -/
theorem readComparison_of_sign {a b : Expr α} (ha : a.WellNamed) (hb : b.WellNamed)
    {sign rest : List Lexeme} {compare : Expr Numeral → Expr Numeral → Test Numeral}
    (hsign : ∀ rest, comparison? (sign ++ rest) = some (compare, mark ' ' :: rest))
    (hends : ∀ rest, Ends (sign ++ rest)) (hrest : Ends rest) {k : Nat}
    (hk : 1 + 2 * (a.spelledAt write 0 ++ b.spelledAt write 0).length ≤ k) :
    readComparison k (a.spelledAt write 0 ++ (sign ++ (b.spelledAt write 0 ++ rest)))
      = some (compare (a.map write) (b.map write), rest) := by
  rw [List.length_append] at hk
  have hleft := readExpr_spelled hwrite ha (hends (b.spelledAt write 0 ++ rest))
    (show _ ≤ k by omega)
  have hright := readExpr_spelled hwrite hb hrest (show _ ≤ k by omega)
  simp [readComparison, hleft, hsign, readExpr_space, hright]

theorem readComparison_spelled {test : Test α} (h : test.WellNamed) (hone : test.IsComparison)
    {rest : List Lexeme} (hrest : Ends rest) {k : Nat}
    (hk : 2 * (test.spelled write).length ≤ k) :
    readComparison k (test.spelled write ++ rest) = some (test.map write, rest) := by
  cases test with
  | both first second => exact hone.elim
  | atLeast a b | atMost a b | less a b =>
    rw [Test.spelled, List.append_assoc, List.append_assoc]
    refine readComparison_of_sign hwrite h.1 h.2 (fun rest => ?_) (fun rest => ?_) hrest ?_
    · simp [comparison?, marks, Lexeme.isSpace]
    · exact (ends_mark (by decide) _).space
    · simp [Test.spelled, marks] at hk ⊢
      omega

/-- Conditions are joined from the left. -/
theorem readTest_of_joined {test : Test α} (h : test.WellNamed) {rest : List Lexeme}
    (hrest : Ends rest) {N k : Nat} {result : Test Numeral × List Lexeme}
    (hjoined : ∀ j ≥ N, readJoined j (test.map write) rest = some result)
    (hk : N + 2 * (test.spelled write).length ≤ k) :
    readTest k (test.spelled write ++ rest) = some result := by
  induction test generalizing rest N with
  | both first second ih _ =>
    have hparts : (Test.both first second).spelled write ++ rest = first.spelled write
        ++ mark ' ' :: mark '&' :: mark '&' :: mark ' ' :: (second.spelled write ++ rest) := by
      simp [Test.spelled, marks]
    have hlength : ((Test.both first second).spelled write).length
        = (first.spelled write).length + (second.spelled write).length + 4 := by
      simp [Test.spelled, marks]
      omega
    rw [hparts]
    refine ih h.1 (ends_mark (by decide) _).space (fun j hj => ?_)
      (show N + 2 * (second.spelled write).length + 1 + _ ≤ k by omega)
    obtain ⟨i, rfl⟩ := Nat.exists_eq_add_of_le' (show 1 ≤ j by omega)
    have hsecond := readComparison_spelled hwrite h.2.1 h.2.2 hrest (show _ ≤ i by omega)
    have hrun := hjoined i (by omega)
    rw [Test.map] at hrun
    simp [readJoined, and?, Lexeme.isSpace, readComparison_space, hsecond, hrun]
  | atLeast | atMost | less =>
    have hfirst := readComparison_spelled hwrite h trivial hrest (show _ ≤ k by omega)
    simp only [readTest, hfirst, Option.bind_eq_bind, Option.bind_some]
    exact hjoined k (by omega)

/-- **A printed condition reads back.** -/
theorem readTest_spelled {test : Test α} (h : test.WellNamed) (rest : List Lexeme) {k : Nat}
    (hk : 1 + 2 * (test.spelled write).length ≤ k) :
    readTest k (test.spelled write ++ mark ')' :: rest)
      = some (test.map write, mark ')' :: rest) := by
  refine readTest_of_joined hwrite h (ends_mark (by decide) rest) (fun j hj => ?_) hk
  obtain ⟨i, rfl⟩ := Nat.exists_eq_add_of_le' hj
  cases rest <;> simp [readJoined, and?, Lexeme.isSpace]

end Conditions

/-! ## Statements -/

theorem expect?_congr {parts parts' : List Lexeme} (h : skip parts = skip parts')
    (lexeme : Lexeme) : expect? lexeme parts = expect? lexeme parts' := by
  rw [expect?, h, expect?]

/-- Blanks in front of a statement do not matter. -/
theorem readStmt_congr {parts parts' : List Lexeme} (h : skip parts = skip parts') (k : Nat) :
    readStmt k parts = readStmt k parts' := by
  cases k with
  | zero => rfl
  | succ n => simp only [readStmt, readAssignment, readName, expect?_congr h, h]

theorem readStmts_congr {parts parts' : List Lexeme} (h : skip parts = skip parts') (k : Nat) :
    readStmts k parts = readStmts k parts' := by
  cases k with
  | zero => rfl
  | succ n => simp only [readStmts, expect?_congr h, readStmt_congr h]

theorem readStmts_lineFeed (k : Nat) (parts : List Lexeme) :
    readStmts k (mark '\n' :: parts) = readStmts k parts :=
  readStmts_congr (by simp [Lexeme.isSpace]) k

theorem skip_margin {margin : String} (h : isMargin margin = true) (parts : List Lexeme) :
    skip (marks margin ++ parts) = skip parts := by
  refine List.dropWhile_append_of_pos fun lexeme hlexeme => ?_
  obtain ⟨c, hc, rfl⟩ := List.mem_map.1 hlexeme
  rw [beq_iff_eq.1 (List.all_eq_true.1 h c hc)]
  decide

theorem readValue_space (k : Nat) (parts : List Lexeme) :
    readValue k (mark ' ' :: parts) = readValue k parts := by
  simp [readValue, readExpr_space]

theorem readAssignment_space (k : Nat) (parts : List Lexeme) :
    readAssignment k (mark ' ' :: parts) = readAssignment k parts := by
  simp [readAssignment, readName, Lexeme.isSpace]

section Statements

variable {write : α → Numeral} {margin : String}

theorem readValue_spelled (hwrite : ∀ x, (write x).IsFloat) {value : Expr α} (h : value.WellNamed)
    (rest : List Lexeme) {k : Nat} (hk : 1 + 2 * (value.spelledAt write 0).length ≤ k) :
    readValue k (value.spelledAt write 0 ++ mark ';' :: rest) = some (value.map write, rest) := by
  have hvalue := readExpr_spelled hwrite h (ends_mark (c := ';') (by decide) rest) hk
  simp [readValue, hvalue, expect?, Lexeme.isSpace]

theorem readAssignment_spelled (hwrite : ∀ x, (write x).IsFloat) {name : String}
    (hname : IsName name) {value : Expr α} (hvalue : value.WellNamed) (rest : List Lexeme) {k : Nat}
    (hk : 1 + 2 * (value.spelledAt write 0).length ≤ k) :
    readAssignment k (spelledAssignment write name value ++ rest)
      = some (name, value.map write, mark '\n' :: rest) := by
  have hread := readValue_spelled hwrite hvalue (mark '\n' :: rest) hk
  simp [readAssignment, readName, spelledAssignment, name?_of_isName hname, marks, expect?,
    Lexeme.isSpace, readValue_space, hread]

/-- What is read up to a closing brace. -/
def ReadsBlock (k : Nat) (inside : List Lexeme) (body : List (Stmt Numeral)) : Prop :=
  ∀ tail rest, expect? (mark '\x7d') tail = some rest →
    readStmts k (inside ++ tail) = some (body, rest)

theorem readStmts_block (hmargin : isMargin margin = true) {inside : List Lexeme}
    {body : List (Stmt Numeral)} {k : Nat} (h : ReadsBlock k inside body) (rest : List Lexeme) :
    ∃ parts, spelledBlock margin inside ++ rest = mark '\x7b' :: parts ∧
      readStmts k parts = some (body, mark '\n' :: rest) := by
  refine ⟨mark '\n' :: (inside ++ (marks margin ++ mark '\x7d' :: mark '\n' :: rest)), ?_, ?_⟩
  · simp [spelledBlock, marks]
  · have hclosing : expect? (mark '\x7d') (marks margin ++ mark '\x7d' :: mark '\n' :: rest)
        = some (mark '\n' :: rest) := by
      simp [expect?, skip_margin hmargin, Lexeme.isSpace]
    rw [readStmts_lineFeed]
    exact h _ _ hclosing

/-- A choice is read from its condition on, if its parts are. -/
theorem readChoice_spelled (hwrite : ∀ x, (write x).IsFloat) (hmargin : isMargin margin = true)
    {test : Test α} (htest : test.WellNamed) {inside outside rest : List Lexeme}
    {body otherwise : List (Stmt Numeral)} {k : Nat} (hbody : ReadsBlock k inside body)
    (hotherwise : readAlternative k (mark '\n' :: (outside ++ rest))
      = some (otherwise, mark '\n' :: rest))
    (hk : 1 + 2 * (test.spelled write).length ≤ k) :
    ∃ parts, spelledChoice write margin test inside outside ++ rest = wordOf "if" :: parts ∧
      readChoice (k + 1) parts
        = some (.choose (test.map write) body otherwise, mark '\n' :: rest) := by
  obtain ⟨parts, hparts, hread⟩ := readStmts_block hmargin hbody (outside ++ rest)
  refine ⟨mark ' ' :: mark '(' :: (test.spelled write ++ mark ')' :: mark ' ' :: mark '\x7b'
    :: parts), ?_, ?_⟩
  · simp [spelledChoice, ← hparts, marks]
  · have hcondition := readTest_spelled hwrite htest (mark ' ' :: mark '\x7b' :: parts) hk
    simp [readChoice, expect?, Lexeme.isSpace, hcondition, hread, hotherwise]

/-- A statement starts with a word, and this is not `else`. -/
theorem exists_spelled_eq {s : Stmt α} (h : s.WellNamed) : ∃ word tail,
    s.spelled write margin = marks margin ++ wordOf word :: tail ∧ word ≠ "else" := by
  cases s with
  | declare => exact ⟨"float", _, rfl, by decide⟩
  | assign name =>
    refine ⟨name, _, rfl, ?_⟩
    rintro rfl
    exact h.1.2 (by decide)
  | give => exact ⟨"return", _, rfl, by decide⟩
  | choose => exact ⟨"if", _, rfl, by decide⟩

/-- No `else` follows where statements or the end of a block do. -/
theorem expect?_else_spelledAll {tail : List Lexeme} (hmargin : isMargin margin = true)
    {body : List (Stmt α)} (h : WellNamedAll body)
    (htail : expect? (wordOf "else") tail = none) :
    expect? (wordOf "else") (spelledAll write margin body ++ tail) = none := by
  cases body with
  | nil => exact htail
  | cons s rest =>
    obtain ⟨word, more, hs, hword⟩ := @exists_spelled_eq _ write margin s h.1
    rw [spelledAll, hs]
    simp [expect?, skip_margin hmargin, hword]

theorem readStmt_margin (hmargin : isMargin margin = true) (k : Nat) (parts : List Lexeme) :
    readStmt k (marks margin ++ parts) = readStmt k parts :=
  readStmt_congr (skip_margin hmargin parts) k

/-- What starts with one lexeme does not start with another. -/
theorem expect?_eq_none {lexeme other : Lexeme} {parts rest : List Lexeme}
    (h : expect? lexeme parts = some rest) (hne : lexeme ≠ other) : expect? other parts = none := by
  rw [expect?] at h ⊢
  split at h
  · rfl
  · split at h
    · rename_i hfirst
      simp [hfirst, hne]
    · cases h

/-- Statements are read one by one up to the brace. -/
theorem readsBlock_cons (hmargin : isMargin margin = true) {s : Stmt α} (hs : s.WellNamed)
    {body : List (Stmt α)} (hbody : WellNamedAll body) {n : Nat}
    (hfirst : ∀ rest, expect? (wordOf "else") rest = none →
      readStmt n (s.spelled write margin ++ rest) = some (s.map write, mark '\n' :: rest))
    (hmore : ReadsBlock n (spelledAll write margin body) (mapAll write body)) :
    ReadsBlock (n + 1) (spelledAll write margin (s :: body)) (mapAll write (s :: body)) := by
  intro tail rest htail
  obtain ⟨word, after, hspelled, -⟩ := @exists_spelled_eq _ write margin s hs
  have hbrace : expect? (mark '\x7d') (s.spelled write margin
      ++ (spelledAll write margin body ++ tail)) = none := by
    simp [hspelled, expect?, skip_margin hmargin]
  have helse : expect? (wordOf "else") (spelledAll write margin body ++ tail) = none :=
    expect?_else_spelledAll hmargin hbody (expect?_eq_none htail (by simp))
  simp [readStmts, spelledAll, hbrace, hfirst _ helse, readStmts_lineFeed, hmore tail rest htail,
    mapAll]

theorem length_spelled_pos {s : Stmt α} (h : s.WellNamed) :
    0 < (s.spelled write margin).length := by
  obtain ⟨word, after, hspelled, -⟩ := @exists_spelled_eq _ write margin s h
  rw [hspelled, List.length_append]
  exact Nat.add_pos_right _ (Nat.succ_pos _)

end Statements

section Blocks

variable {write : α → Numeral}

mutual

theorem readStmt_spelled (hwrite : ∀ x, (write x).IsFloat) {margin : String}
    (hmargin : isMargin margin = true) {s : Stmt α} (h : s.WellNamed) {rest : List Lexeme}
    (hrest : expect? (wordOf "else") rest = none) {k : Nat}
    (hk : 2 * (s.spelled write margin).length ≤ k) :
    readStmt k (s.spelled write margin ++ rest) = some (s.map write, mark '\n' :: rest) := by
  cases s with
  | declare name value =>
    simp [Stmt.spelled, spelledAssignment, marks] at hk
    obtain ⟨n, rfl⟩ := Nat.exists_eq_add_of_le' (show 1 ≤ k by omega)
    have hassignment := readAssignment_spelled hwrite h.1 h.2 rest (show _ ≤ n by omega)
    rw [Stmt.spelled, List.append_assoc, readStmt_margin hmargin]
    simp [readStmt, expect?, marks, readAssignment_space, hassignment, Stmt.map]
  | assign name value =>
    simp [Stmt.spelled, spelledAssignment, marks] at hk
    obtain ⟨n, rfl⟩ := Nat.exists_eq_add_of_le' (show 1 ≤ k by omega)
    have hassignment := readAssignment_spelled hwrite h.1 h.2 rest (show _ ≤ n by omega)
    have hname : name ≠ "float" ∧ name ≠ "return" ∧ name ≠ "if" ∧ name ≠ "else" := by
      simpa [keywords] using h.1.2
    obtain ⟨tail, htail⟩ : ∃ tail, spelledAssignment write name value ++ rest
        = wordOf name :: tail := ⟨_, rfl⟩
    rw [Stmt.spelled, List.append_assoc, readStmt_margin hmargin, htail]
    rw [htail] at hassignment
    simp [readStmt, expect?, hname, hassignment, Stmt.map]
  | give value =>
    simp [Stmt.spelled, marks] at hk
    obtain ⟨n, rfl⟩ := Nat.exists_eq_add_of_le' (show 1 ≤ k by omega)
    have hvalue := readValue_spelled hwrite h (mark '\n' :: rest) (show _ ≤ n by omega)
    rw [Stmt.spelled, List.append_assoc, readStmt_margin hmargin]
    simp [readStmt, expect?, marks, readValue_space, hvalue, Stmt.map]
  | choose test body otherwise =>
    simp [Stmt.spelled, spelledChoice, spelledBlock, marks] at hk
    obtain ⟨n, rfl⟩ := Nat.exists_eq_add_of_le' (show 2 ≤ k by omega)
    obtain ⟨parts, hparts, hchoice⟩ := readChoice_spelled hwrite hmargin h.1
      (readsBlock_spelled hwrite (isMargin_deeper hmargin) h.2.1 (show _ ≤ n by omega))
      (readAlternative_spelled hwrite hmargin h.2.2 hrest (by omega)) (by omega)
    rw [Stmt.spelled, List.append_assoc, readStmt_margin hmargin, hparts]
    simp [readStmt, expect?, hchoice, Stmt.map]

/-- **Printed statements read back**, up to the brace that closes their block. -/
theorem readsBlock_spelled (hwrite : ∀ x, (write x).IsFloat) {margin : String}
    (hmargin : isMargin margin = true) {body : List (Stmt α)} (h : WellNamedAll body) {k : Nat}
    (hk : 1 + 2 * (spelledAll write margin body).length ≤ k) :
    ReadsBlock k (spelledAll write margin body) (mapAll write body) := by
  obtain ⟨n, rfl⟩ := Nat.exists_eq_add_of_le' (show 1 ≤ k by omega)
  cases body with
  | nil =>
    intro tail rest htail
    simp [readStmts, spelledAll, htail, mapAll]
  | cons s body =>
    rw [spelledAll, List.length_append] at hk
    have hpos := @length_spelled_pos _ write margin s h.1
    exact readsBlock_cons hmargin h.1 h.2
      (fun rest hrest => readStmt_spelled hwrite hmargin h.1 hrest (by omega))
      (readsBlock_spelled hwrite hmargin h.2 (by omega))

theorem readAlternative_spelled (hwrite : ∀ x, (write x).IsFloat) {margin : String}
    (hmargin : isMargin margin = true) {otherwise : List (Stmt α)} (h : WellNamedAll otherwise)
    {rest : List Lexeme} (hrest : expect? (wordOf "else") rest = none) {k : Nat}
    (hk : 1 + 2 * (spelledAlternative write margin otherwise).length ≤ k) :
    readAlternative k (mark '\n' :: (spelledAlternative write margin otherwise ++ rest))
      = some (mapAll write otherwise, mark '\n' :: rest) := by
  obtain ⟨n, rfl⟩ := Nat.exists_eq_add_of_le' (show 1 ≤ k by omega)
  cases otherwise with
  | nil =>
    have hnone : expect? (wordOf "else") (mark '\n' :: rest) = none := hrest
    simp [readAlternative, spelledAlternative, hnone, mapAll]
  | cons s more =>
    have hdeeper := isMargin_deeper hmargin
    have hblock (hspelled : spelledAlternative write margin (s :: more)
        = marks margin ++ wordOf "else" :: (marks " "
          ++ spelledBlock margin (spelledAll write (margin ++ "    ") (s :: more)))) :
        readAlternative (n + 1) (mark '\n' :: (spelledAlternative write margin (s :: more) ++ rest))
          = some (mapAll write (s :: more), mark '\n' :: rest) := by
      rw [hspelled] at hk ⊢
      simp [spelledBlock, spelledAll, marks] at hk
      obtain ⟨m, rfl⟩ := Nat.exists_eq_add_of_le' (show 1 ≤ n by omega)
      obtain ⟨parts, hparts, hread⟩ := readStmts_block hmargin (readsBlock_cons hdeeper h.1 h.2
        (fun rest hrest => readStmt_spelled hwrite hdeeper h.1 hrest (by omega))
        (readsBlock_spelled hwrite hdeeper h.2 (show _ ≤ m by omega))) rest
      simp [readAlternative, expect?, skip_margin hmargin, Lexeme.isSpace, marks_space, hparts,
        hread]
    cases s with
    | declare | assign | give => exact hblock rfl
    | choose test body otherwise =>
      cases more with
      | nil =>
        have hspelled : spelledAlternative write margin [.choose test body otherwise]
            = marks margin ++ wordOf "else" :: (marks " " ++ spelledChoice write margin test
              (spelledAll write (margin ++ "    ") body)
              (spelledAlternative write margin otherwise)) := rfl
        rw [hspelled] at hk ⊢
        simp [spelledChoice, spelledBlock, marks] at hk
        obtain ⟨m, rfl⟩ := Nat.exists_eq_add_of_le' (show 1 ≤ n by omega)
        obtain ⟨parts, hparts, hchoice⟩ := readChoice_spelled hwrite hmargin h.1.1
          (readsBlock_spelled hwrite hdeeper h.1.2.1 (show _ ≤ m by omega))
          (readAlternative_spelled hwrite hmargin h.1.2.2 hrest (by omega)) (by omega)
        simp [readAlternative, expect?, skip_margin hmargin, Lexeme.isSpace, marks_space, hparts,
          hchoice, mapAll, Stmt.map]
      | cons t more => exact hblock rfl

end

end Blocks

end ShaderGraph.Glsl
