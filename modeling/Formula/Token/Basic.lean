import Formula.Decimal

/-!
# Operators and tokens

Two signs stand before an operand and six operators between two. A precedence and a
direction of grouping decide which of two neighbouring operators is applied first. The
tokens are the parts of an expression that the evaluator sees: a sign before an operand
and the operator of the same spelling between two operands are different tokens.
-/

namespace Formula

inductive Sign where
  | plus
  | minus
deriving DecidableEq, Repr

inductive BinaryOp where
  | equal
  | add
  | sub
  | mul
  | div
  | pow
deriving DecidableEq, Repr

inductive Operator where
  | sign (s : Sign)
  | binary (b : BinaryOp)
deriving DecidableEq, Repr

inductive Grouping where
  | left
  | right
deriving DecidableEq, Repr

def Sign.symbol : Sign → String
  | .plus => "+"
  | .minus => "-"

def BinaryOp.symbol : BinaryOp → String
  | .equal => "="
  | .add => "+"
  | .sub => "-"
  | .mul => "*"
  | .div => "/"
  | .pow => "^"

namespace Operator

def all : List Operator :=
  [binary .equal, binary .add, binary .sub, binary .mul, binary .div,
   sign .plus, sign .minus, binary .pow]

def symbol : Operator → String
  | sign s => "u" ++ s.symbol
  | binary b => b.symbol

def precedence : Operator → Nat
  | binary .equal => 1
  | binary .add | binary .sub => 2
  | binary .mul | binary .div => 3
  | sign _ => 4
  | binary .pow => 5

def grouping : Operator → Grouping
  | sign _ | binary .pow => .right
  | binary _ => .left

def isSign : Operator → Bool
  | sign _ => true
  | binary _ => false

def arity : Operator → Nat
  | sign _ => 1
  | binary _ => 2

/-- The incoming operator is put above the pending one, which is not yet applied. A sign has no
left operand, so it completes none that is pending. -/
def shiftsOver (incoming pending : Operator) : Bool :=
  incoming.isSign || pending.precedence < incoming.precedence ||
    (incoming.precedence == pending.precedence && incoming.grouping == .right)

def tableConsistent : Bool :=
  all.all fun a => all.all fun b => a.precedence != b.precedence || a.grouping == b.grouping

theorem mem_all (op : Operator) : op ∈ all := by
  rcases op with (_ | _) | (_ | _ | _ | _ | _ | _) <;> decide

theorem grouping_eq {a b : Operator} (h : a.precedence = b.precedence) :
    a.grouping = b.grouping := by
  have ht : tableConsistent = true := by decide
  have hab := List.all_eq_true.mp (List.all_eq_true.mp ht a (mem_all a)) b (mem_all b)
  simpa [h] using hab

end Operator

inductive Delimiter where
  | paren
  | bracket
deriving DecidableEq, Repr

def Delimiter.opener : Delimiter → Char
  | paren => '('
  | bracket => '['

def Delimiter.closer : Delimiter → Char
  | paren => ')'
  | bracket => ']'

namespace Token

inductive Kind where
  | number (x : Float)
  | identifier (name : String)
  | sign (s : Sign)
  | binary (b : BinaryOp)
  | opening (d : Delimiter)
  | closing (d : Delimiter)
  | comma
deriving DecidableEq

namespace Kind

def endsOperand : Kind → Bool
  | number _ | identifier _ | closing _ => true
  | sign _ | binary _ | opening _ | comma => false

def beginsOperand : Kind → Bool
  | number _ | identifier _ | sign _ | opening _ => true
  | binary _ | closing _ | comma => false

def followsOperand : Kind → Bool
  | binary _ | closing _ | comma => true
  | number _ | identifier _ | sign _ | opening _ => false

def operator? : Kind → Option Operator
  | sign s => some (.sign s)
  | binary b => some (.binary b)
  | _ => none

def describe : Kind → String
  | number x => s!"number {floatText x}"
  | identifier name => s!"identifier '{name}'"
  | sign s => s!"'{s.symbol}'"
  | binary b => s!"'{b.symbol}'"
  | opening d => s!"'{d.opener}'"
  | closing d => s!"'{d.closer}'"
  | comma => "','"

end Kind

end Token

structure Token where
  kind : Token.Kind
  offset : Nat
deriving DecidableEq

end Formula
