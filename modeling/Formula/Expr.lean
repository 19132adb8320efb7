import Formula.Environment
import Formula.Trace

/-!
# Expression trees

The trees of the language: equality binds loosest, then sums, products, signs and powers.
Only powers group to the right, and a sign can stand in front of every right operand of a
power. Trees keep the byte offsets of their tokens. A tree is evaluated from its leaves,
operands and arguments from left to right; the events are the operators that are applied
and the functions that are called, each one behind everything below it.
-/

namespace Formula

mutual

inductive Expr where
  | number (x : Float) (offset : Nat)
  | name (n : String) (offset : Nat)
  | nullary (n : String) (offset opening closing : Nat)
  | call (n : String) (offset opening : Nat) (args : Items) (closing : Nat)
  | group (opening : Nat) (e : Expr) (closing : Nat)
  | vector (opening : Nat) (items : Items) (closing : Nat)
  | sign (s : Sign) (offset : Nat) (e : Expr)
  | binary (b : BinaryOp) (offset : Nat) (left right : Expr)

inductive Items where
  | one (e : Expr)
  | more (e : Expr) (comma : Nat) (rest : Items)

end

mutual

def Expr.tokens : Expr → List Token
  | .number x offset => [⟨.number x, offset⟩]
  | .name n offset => [⟨.identifier n, offset⟩]
  | .nullary n offset opening closing =>
    [⟨.identifier n, offset⟩, ⟨.opening .paren, opening⟩, ⟨.closing .paren, closing⟩]
  | .call n offset opening args closing =>
    ⟨.identifier n, offset⟩ :: ⟨.opening .paren, opening⟩ :: args.tokens ++
      [⟨.closing .paren, closing⟩]
  | .group opening e closing =>
    ⟨.opening .paren, opening⟩ :: e.tokens ++ [⟨.closing .paren, closing⟩]
  | .vector opening items closing =>
    ⟨.opening .bracket, opening⟩ :: items.tokens ++ [⟨.closing .bracket, closing⟩]
  | .sign s offset e => ⟨.sign s, offset⟩ :: e.tokens
  | .binary b offset left right => left.tokens ++ ⟨.binary b, offset⟩ :: right.tokens

def Items.tokens : Items → List Token
  | .one e => e.tokens
  | .more e comma rest => e.tokens ++ ⟨.comma, comma⟩ :: rest.tokens

end

namespace Expr

/-- The precedence of the outermost operator; a tree without one binds tighter than any. -/
def precedence : Expr → Nat
  | sign s _ _ => (Operator.sign s).precedence
  | binary b _ _ _ => (Operator.binary b).precedence
  | _ => 6

def fitsLeft (b : BinaryOp) (e : Expr) : Prop :=
  match (Operator.binary b).grouping with
  | .left => (Operator.binary b).precedence ≤ e.precedence
  | .right => (Operator.binary b).precedence < e.precedence

def fitsRight (b : BinaryOp) (e : Expr) : Prop :=
  match (Operator.binary b).grouping with
  | .left => (Operator.binary b).precedence < e.precedence
  | .right => (Operator.sign .minus).precedence ≤ e.precedence

end Expr

mutual

def Expr.Stratified : Expr → Prop
  | .number _ _ | .name _ _ | .nullary _ _ _ _ => True
  | .call _ _ _ args _ => args.Stratified
  | .group _ e _ => e.Stratified
  | .vector _ items _ => items.Stratified
  | .sign s _ e => (Operator.sign s).precedence ≤ e.precedence ∧ e.Stratified
  | .binary b _ left right =>
    left.fitsLeft b ∧ right.fitsRight b ∧ left.Stratified ∧ right.Stratified

def Items.Stratified : Items → Prop
  | .one e => e.Stratified
  | .more e _ rest => e.Stratified ∧ rest.Stratified

end

/-- A name by itself is a variable. The end of the name of a function is counted without bound. -/
def Environment.valueAt (env : Environment) (n : String) (offset : Nat) : Traced Value :=
  match env.valueOf? n, env.functionOf? n with
  | some v, _ => return v
  | none, some _ => .fail (.missingCall n) (offset + Text.byteLength n.toList)
  | none, none => .fail (.unknownIdentifier n) offset

def Environment.functionAt (env : Environment) (n : String) (offset : Nat) : Traced Function :=
  match env.valueOf? n, env.functionOf? n with
  | some _, _ => .fail (.notAFunction n) offset
  | none, some f => return f
  | none, none => .fail (.unknownIdentifier n) offset

mutual

def Expr.evaluate (env : Environment) : Expr → Traced Value
  | .number x _ => return .scalar x
  | .name n offset => env.valueAt n offset
  | .nullary n offset _ _ => do
    let f ← env.functionAt n offset
    f.act n offset []
  | .call n offset _ args _ => do
    let f ← env.functionAt n offset
    let vs ← args.evaluate env
    f.act n offset vs
  | .group _ e _ => e.evaluate env
  | .vector opening items _ => do
    let vs ← items.evaluate env
    flatVector opening vs
  | .sign s offset e => do
    let v ← e.evaluate env
    s.act offset v
  | .binary b offset left right => do
    let x ← left.evaluate env
    let y ← right.evaluate env
    b.act env.tolerance offset x y

def Items.evaluate (env : Environment) : Items → Traced (List Value)
  | .one e => do
    let v ← e.evaluate env
    return [v]
  | .more e _ rest => do
    let v ← e.evaluate env
    let vs ← rest.evaluate env
    return v :: vs

end

end Formula
