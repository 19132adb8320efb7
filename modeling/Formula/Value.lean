import Formula.Error

/-!
# Values and functions

A value is one number or a flat row of numbers. A function of numbers applies to values
by taking one number from each of them: a scalar gives the same number every time, all
vectors have the same length, and the result is a vector of that length. Division by zero
gives an infinity or no number, and a comparison gives one or zero.
-/

namespace Formula

inductive Value where
  | scalar (x : Float)
  | vector (xs : List Float)
deriving DecidableEq

namespace Value

def isVector : Value → Bool
  | scalar _ => false
  | vector _ => true

def asScalar? : Value → Option Float
  | scalar x => some x
  | vector _ => none

def asVector? : Value → Option (List Float)
  | scalar _ => none
  | vector xs => some xs

def elements : Value → List Float
  | scalar x => [x]
  | vector xs => xs

def map (f : Float → Float) : Value → Value
  | scalar x => scalar (f x)
  | vector xs => vector (xs.map f)

def text : Value → String
  | scalar x => floatText x
  | vector xs => "[" ++ ", ".intercalate (xs.map floatText) ++ "]"

/-- Equality by the numbers: the two zeros are equal, and what is no number equals nothing. -/
def equals : Value → Value → Bool
  | scalar x, scalar y => x == y
  | vector xs, vector ys => xs == ys
  | _, _ => false

@[simp] theorem elements_map (f : Float → Float) (v : Value) :
    (v.map f).elements = v.elements.map f := by
  cases v <;> rfl

@[simp] theorem isVector_map (f : Float → Float) (v : Value) :
    (v.map f).isVector = v.isVector := by
  cases v <;> rfl

def entry (i : Nat) : Value → Float
  | scalar x => x
  | vector xs => xs.getD i 0

end Value

/-- The length of the vectors among some values, `none` if there is none, or the two lengths
that differ first. -/
def commonLength : Option Nat → List Value → Except (Nat × Nat) (Option Nat)
  | known, [] => .ok known
  | known, .scalar _ :: rest => commonLength known rest
  | none, .vector xs :: rest => commonLength (some xs.length) rest
  | some n, .vector xs :: rest =>
    if n = xs.length then commonLength (some n) rest else .error (n, xs.length)

def row (operands : List Value) (i : Nat) : List Float := operands.map (Value.entry i)

def broadcast (name : String) (operands : List Value) (offset : Nat) (f : List Float → Float) :
    Except EvalError Value :=
  match commonLength none operands with
  | .error (left, right) => .error ⟨.shapeMismatch name left right, offset⟩
  | .ok none => .ok (.scalar (f (row operands 0)))
  | .ok (some n) => .ok (.vector ((List.range n).map fun i => f (row operands i)))

def Sign.apply : Sign → Value → Value
  | plus, v => v
  | minus, v => v.map (- ·)

def BinaryOp.eval (tolerance : Float) : BinaryOp → Float → Float → Float
  | equal, x, y => if (x - y).abs < tolerance then 1 else 0
  | add, x, y => x + y
  | sub, x, y => x - y
  | mul, x, y => x * y
  | div, x, y => x / y
  | pow, x, y => x.pow y

def BinaryOp.evalRow (tolerance : Float) (b : BinaryOp) : List Float → Float
  | [x, y] => b.eval tolerance x y
  | _ => 0 / 0

def BinaryOp.apply (tolerance : Float) (offset : Nat) (b : BinaryOp) (left right : Value) :
    Except EvalError Value :=
  match left, right with
  | .scalar x, .scalar y => .ok (.scalar (b.eval tolerance x y))
  | _, _ => broadcast b.symbol [left, right] offset (b.evalRow tolerance)

/-!
## Functions

A function states how many arguments it takes. Its body works on single numbers, and is
then applied elementwise, or on whole values, and may then refuse them. The builtin ones
are elementary functions of numbers, extrema over all numbers of the arguments, the inner
product of two vectors and the number of elements.
-/

inductive Body where
  | scalar (f : List Float → Float)
  | native (f : List Value → Except String Value)

structure Function where
  arity : Arity
  body : Body

namespace Function

def scalar (arity : Arity) (f : List Float → Float) : Function := ⟨arity, .scalar f⟩

def native (arity : Arity) (f : List Value → Except String Value) : Function :=
  ⟨arity, .native f⟩

def unary (f : Float → Float) : Function :=
  scalar (.exactly 1) fun
    | [x] => f x
    | _ => 0 / 0

def binary (f : Float → Float → Float) : Function :=
  scalar (.exactly 2) fun
    | [x, y] => f x y
    | _ => 0 / 0

def call (f : Function) (name : String) (args : List Value) (offset : Nat) :
    Except EvalError Value :=
  if f.arity.admits args.length then
    match f.body with
    | .scalar g => broadcast name args offset g
    | .native g => (g args).mapError fun details => ⟨.invalidArgument name details, offset⟩
  else .error ⟨.wrongCount name f.arity args.length, offset⟩

def describe (f : Function) : String :=
  let arity := match f.arity with
    | .exactly n => s!"Exact({n})"
    | .atLeast n => s!"AtLeast({n})"
  let kind := match f.body with
    | .scalar _ => "scalar"
    | .native _ => "native"
  "Function \x7b arity: " ++ arity ++ ", kind: \"" ++ kind ++ "\" \x7d"

end Function

section Builtins

-- what is no number is ignored
def lesser (x y : Float) : Float :=
  if x.isNaN then y else if y.isNaN then x else if y < x then y else x

def greater (x y : Float) : Float :=
  if x.isNaN then y else if y.isNaN then x else if x < y then y else x

def foldElements (f : Float → Float → Float) (args : List Value) : Value :=
  match args.flatMap Value.elements with
  | [] => .scalar (0 / 0)
  | x :: xs => .scalar (xs.foldl f x)

/-- Products are added from the left, to negative zero. -/
def innerProduct : List Value → Except String Value
  | [.vector a, .vector b] =>
    if a.length = b.length then
      .ok (.scalar ((List.zipWith (· * ·) a b).foldl (· + ·) (-0.0)))
    else .error s!"vectors have lengths {a.length} and {b.length}"
  | _ => .error "both arguments must be vectors"

def elementCount : List Value → Except String Value
  | v :: _ => .ok (.scalar v.elements.length.toFloat)
  | [] => .ok (.scalar 0)

def builtins : List (String × Function) :=
  [("abs", .unary Float.abs),
   ("exp", .unary Float.exp),
   ("ln", .unary Float.log),
   ("sqrt", .unary Float.sqrt),
   ("sin", .unary Float.sin),
   ("cos", .unary Float.cos),
   ("tan", .unary Float.tan),
   ("atan", .unary Float.atan),
   ("atan2", .binary Float.atan2),
   ("min", .native (.atLeast 1) fun args => .ok (foldElements lesser args)),
   ("max", .native (.atLeast 1) fun args => .ok (foldElements greater args)),
   ("dot", .native (.exactly 2) innerProduct),
   ("len", .native (.exactly 1) elementCount)]

end Builtins

end Formula
