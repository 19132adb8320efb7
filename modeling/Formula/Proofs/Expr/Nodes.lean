import Mathlib.Data.List.Forall2
import Formula.Expr
import Formula.Proofs.Trace

/-!
# Nodes of trees

The operators and calls of a tree in post-order: operands and arguments from left to
right, each node behind everything below it. The evaluation of a tree that has a value
reports each of them once and in this order.
-/

namespace Formula

open Traced

mutual

/-- The operators and calls of a tree, each behind those below it. -/
def Expr.nodes : Expr → List Expr
  | .number _ _ | .name _ _ => []
  | .nullary n o p c => [.nullary n o p c]
  | .call n o p args c => args.nodes ++ [.call n o p args c]
  | .group _ e _ => e.nodes
  | .vector _ items _ => items.nodes
  | .sign s o e => e.nodes ++ [.sign s o e]
  | .binary b o l r => l.nodes ++ (r.nodes ++ [.binary b o l r])

def Items.nodes : Items → List Expr
  | .one e => e.nodes
  | .more e _ rest => e.nodes ++ rest.nodes

end

def Items.length : Items → Nat
  | .one _ => 1
  | .more _ _ rest => rest.length + 1

/-- What is recorded about a node: its value if it is an operator, and the number of its arguments
if it is a call. -/
inductive Expr.Reported (env : Environment) : Expr → Event → Prop
  | sign {s : Sign} {o : Nat} {e : Expr} {v : Value} :
      ((Expr.sign s o e).evaluate env).result = .ok v →
      Reported env (.sign s o e) (.apply (.sign s) o v)
  | binary {b : BinaryOp} {o : Nat} {l r : Expr} {v : Value} :
      ((Expr.binary b o l r).evaluate env).result = .ok v →
      Reported env (.binary b o l r) (.apply (.binary b) o v)
  | nullary (n : String) (o p c : Nat) : Reported env (.nullary n o p c) (.call n o 0)
  | call (n : String) (o p : Nat) (args : Items) (c : Nat) :
      Reported env (.call n o p args c) (.call n o args.length)

variable {env : Environment}

theorem Environment.valueAt_events (env : Environment) (n : String) (o : Nat) :
    (env.valueAt n o).events = [] := by
  unfold Environment.valueAt
  split <;> rfl

theorem Environment.functionAt_events (env : Environment) (n : String) (o : Nat) :
    (env.functionAt n o).events = [] := by
  unfold Environment.functionAt
  split <;> rfl

theorem flatVector_events (o : Nat) (items : List Value) : (flatVector o items).events = [] := by
  unfold flatVector
  split <;> rfl

theorem Function.act_events (f : Function) (n : String) (o : Nat) (args : List Value) :
    (f.act n o args).events = [.call n o args.length] := rfl

theorem BinaryOp.act_events {tolerance : Float} {b : BinaryOp} {o : Nat} {x y v : Value}
    (h : (b.act tolerance o x y).result = .ok v) :
    (b.act tolerance o x y).events = [.apply (.binary b) o v] := by
  obtain ⟨w, hw, h⟩ := bind_result_eq_ok_iff.mp h
  cases h
  rw [act, bind_events, hw]
  rfl

mutual

theorem Expr.evaluate_reports {e : Expr} {v : Value} (h : (e.evaluate env).result = .ok v) :
    List.Forall₂ (Expr.Reported env) e.nodes (e.evaluate env).events := by
  match e with
  | .number _ _ => exact .nil
  | .name n o =>
    rw [Expr.evaluate, Environment.valueAt_events]
    exact .nil
  | .nullary n o p c =>
    obtain ⟨f, -, -, he⟩ := bind_ok_events h
    rw [Expr.evaluate, he, Environment.functionAt_events]
    exact .cons (.nullary n o p c) .nil
  | .call n o p args c =>
    obtain ⟨f, -, h, hf⟩ := bind_ok_events h
    obtain ⟨vs, hvs, -, he⟩ := bind_ok_events h
    rw [Expr.evaluate, hf, Environment.functionAt_events, he, Function.act_events,
      Items.evaluate_length hvs]
    exact List.rel_append (Items.evaluate_reports hvs) (.cons (.call n o p args c) .nil)
  | .group _ e _ => exact Expr.evaluate_reports (e := e) h
  | .vector _ items _ =>
    obtain ⟨vs, hvs, -, he⟩ := bind_ok_events h
    rw [Expr.evaluate, he, flatVector_events, List.append_nil]
    exact Items.evaluate_reports hvs
  | .sign s o e =>
    have hn := h
    obtain ⟨x, hx, hs, he⟩ := bind_ok_events h
    cases hs
    rw [Expr.evaluate, he]
    exact List.rel_append (Expr.evaluate_reports hx) (.cons (.sign hn) .nil)
  | .binary b o l r =>
    have hn := h
    obtain ⟨x, hx, h, hl⟩ := bind_ok_events h
    obtain ⟨y, hy, hb, hr⟩ := bind_ok_events h
    rw [Expr.evaluate, hl, hr, BinaryOp.act_events hb]
    exact List.rel_append (Expr.evaluate_reports hx)
      (List.rel_append (Expr.evaluate_reports hy) (.cons (.binary hn) .nil))

theorem Items.evaluate_reports {items : Items} {vs : List Value}
    (h : (items.evaluate env).result = .ok vs) :
    List.Forall₂ (Expr.Reported env) items.nodes (items.evaluate env).events := by
  match items with
  | .one e =>
    obtain ⟨v, hv, -, he⟩ := bind_ok_events h
    rw [Items.evaluate, he, pure_events, List.append_nil]
    exact Expr.evaluate_reports hv
  | .more e _ rest =>
    obtain ⟨v, hv, h, he⟩ := bind_ok_events h
    obtain ⟨vs, hvs, -, hr⟩ := bind_ok_events h
    rw [Items.evaluate, he, hr, pure_events, List.append_nil]
    exact List.rel_append (Expr.evaluate_reports hv) (Items.evaluate_reports hvs)

theorem Items.evaluate_length {items : Items} {vs : List Value}
    (h : (items.evaluate env).result = .ok vs) : vs.length = items.length := by
  match items with
  | .one e =>
    obtain ⟨v, -, h⟩ := bind_result_eq_ok_iff.mp h
    cases h
    rfl
  | .more e _ rest =>
    obtain ⟨v, -, h⟩ := bind_result_eq_ok_iff.mp h
    obtain ⟨vs, hvs, h⟩ := bind_result_eq_ok_iff.mp h
    cases h
    exact congrArg (· + 1) (Items.evaluate_length hvs)

end

end Formula
