import ShaderGraph.Timeline.Scalar

/-!
# Statements

The part of the shader language that automation is written in: arithmetic on floats, comparisons,
variables, conditions and early returns. Programs of this part can be printed and run. Running is
over the numbers of a timeline, so that what is printed for doubles can be run on exact numbers.

Blocks have no scopes of their own: one table holds the values of all variables, and a declaration
sets its variable anew.
-/

namespace ShaderGraph.Glsl

variable {α : Type}

/-- The arithmetic operations. -/
inductive Operation where
  | add
  | sub
  | mul
  | div
deriving DecidableEq, Repr

/-- A float expression. -/
inductive Expr (α : Type) where
  | literal (value : α)
  | variable (name : String)
  | operation (op : Operation) (left right : Expr α)
  | mod (dividend divisor : Expr α)
  | max (a b : Expr α)
  | min (a b : Expr α)
  | clamp (value lo hi : Expr α)
  | mix (a b weight : Expr α)
deriving DecidableEq

instance : Add (Expr α) := ⟨.operation .add⟩
instance : Sub (Expr α) := ⟨.operation .sub⟩
instance : Mul (Expr α) := ⟨.operation .mul⟩
instance : Div (Expr α) := ⟨.operation .div⟩

/-- A condition. -/
inductive Test (α : Type) where
  | atLeast (a b : Expr α)
  | atMost (a b : Expr α)
  | less (a b : Expr α)
  | both (first second : Test α)
deriving DecidableEq

/-- A statement. -/
inductive Stmt (α : Type) where
  | declare (name : String) (value : Expr α)
  | assign (name : String) (value : Expr α)
  | give (value : Expr α)
  | choose (test : Test α) (body otherwise : List (Stmt α))

/-! ## Printing -/

/-- The sign of an operation. -/
def Operation.sign : Operation → String
  | .add => "+"
  | .sub => "-"
  | .mul => "*"
  | .div => "/"

/-- How tightly an operation binds. -/
def Operation.strength : Operation → Nat
  | .add => 1
  | .sub => 1
  | .mul => 2
  | .div => 2

/-- A call with the texts of its arguments. -/
def callText (function : String) (arguments : List String) : String :=
  function ++ "(" ++ ", ".intercalate arguments ++ ")"

namespace Expr

/-- The text of an expression as an operand that has to bind at least as tightly as given, with
literals written by `lit`. Operations of one strength group to the left. -/
def textAt (lit : α → String) (least : Nat) : Expr α → String
  | .literal value => lit value
  | .variable name => name
  | .operation op left right =>
    let inner := left.textAt lit op.strength ++ " " ++ op.sign ++ " "
      ++ right.textAt lit (op.strength + 1)
    if op.strength < least then "(" ++ inner ++ ")" else inner
  | .mod a b => callText "mod" [a.textAt lit 0, b.textAt lit 0]
  | .max a b => callText "max" [a.textAt lit 0, b.textAt lit 0]
  | .min a b => callText "min" [a.textAt lit 0, b.textAt lit 0]
  | .clamp v lo hi => callText "clamp" [v.textAt lit 0, lo.textAt lit 0, hi.textAt lit 0]
  | .mix a b w => callText "mix" [a.textAt lit 0, b.textAt lit 0, w.textAt lit 0]

/-- The text of an expression. -/
def text (lit : α → String) (e : Expr α) : String := e.textAt lit 0

end Expr

/-- The text of a condition. -/
def Test.text (lit : α → String) : Test α → String
  | .atLeast a b => a.text lit ++ " >= " ++ b.text lit
  | .atMost a b => a.text lit ++ " <= " ++ b.text lit
  | .less a b => a.text lit ++ " < " ++ b.text lit
  | .both first second => first.text lit ++ " && " ++ second.text lit

mutual

/-- The lines of a statement, indented. A condition that is all of an alternative follows its
`else` on the line. -/
def Stmt.lines (lit : α → String) (margin : String) : Stmt α → List String
  | .declare name value => [margin ++ "float " ++ name ++ " = " ++ value.text lit ++ ";"]
  | .assign name value => [margin ++ name ++ " = " ++ value.text lit ++ ";"]
  | .give value => [margin ++ "return " ++ value.text lit ++ ";"]
  | .choose test body otherwise =>
    (margin ++ "if (" ++ test.text lit ++ ") \x7b") :: linesOf lit (margin ++ "    ") body
      ++ (margin ++ "\x7d") :: alternative lit margin otherwise

/-- The lines of statements one after another. -/
def linesOf (lit : α → String) (margin : String) : List (Stmt α) → List String
  | [] => []
  | s :: rest => s.lines lit margin ++ linesOf lit margin rest

/-- The lines of an alternative. -/
def alternative (lit : α → String) (margin : String) : List (Stmt α) → List String
  | [] => []
  | [.choose test body otherwise] =>
    (margin ++ "else if (" ++ test.text lit ++ ") \x7b") :: linesOf lit (margin ++ "    ") body
      ++ (margin ++ "\x7d") :: alternative lit margin otherwise
  | s :: rest =>
    (margin ++ "else \x7b") :: s.lines lit (margin ++ "    ")
      ++ linesOf lit (margin ++ "    ") rest ++ [margin ++ "\x7d"]

end

/-! ## Running -/

/-- The values of variables. -/
abbrev Env (α : Type) := String → α

/-- The table with one value changed. -/
def Env.set (env : Env α) (name : String) (value : α) : Env α :=
  fun other => if other = name then value else env other

/-- How statements end: with the values of variables, or with the value of the function. -/
inductive Outcome (α : Type) where
  | next (env : Env α)
  | returned (value : α)

variable [Scalar α]

open Scalar (ofNat lt le upper lower remainder)

/-- What an operation gives. -/
def Operation.apply : Operation → α → α → α
  | .add, x, y => x + y
  | .sub, x, y => x - y
  | .mul, x, y => x * y
  | .div, x, y => x / y

/-- The value of an expression. -/
def Expr.eval (env : Env α) : Expr α → α
  | .literal value => value
  | .variable name => env name
  | .operation op left right => op.apply (left.eval env) (right.eval env)
  | .mod a b => remainder (a.eval env) (b.eval env)
  | .max a b => upper (a.eval env) (b.eval env)
  | .min a b => lower (a.eval env) (b.eval env)
  | .clamp v lo hi => lower (upper (v.eval env) (lo.eval env)) (hi.eval env)
  | .mix a b w => a.eval env * (ofNat 1 - w.eval env) + b.eval env * w.eval env

/-- Whether a condition holds. -/
def Test.holds (env : Env α) : Test α → Bool
  | .atLeast a b => le (b.eval env) (a.eval env)
  | .atMost a b => le (a.eval env) (b.eval env)
  | .less a b => lt (a.eval env) (b.eval env)
  | .both first second => first.holds env && second.holds env

mutual

/-- What a statement does. -/
def Stmt.run (env : Env α) : Stmt α → Outcome α
  | .declare name value => .next (env.set name (value.eval env))
  | .assign name value => .next (env.set name (value.eval env))
  | .give value => .returned (value.eval env)
  | .choose test body otherwise =>
    if test.holds env then runAll env body else runAll env otherwise

/-- What statements do one after another, until one returns. -/
def runAll (env : Env α) : List (Stmt α) → Outcome α
  | [] => .next env
  | s :: rest =>
    match s.run env with
    | .next env => runAll env rest
    | .returned value => .returned value

end

end ShaderGraph.Glsl
