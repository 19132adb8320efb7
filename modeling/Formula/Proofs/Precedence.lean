import Formula.Expr

/-!
# Precedence and the shape of trees

Whether a tree may stand as an operand without parentheses depends on its
outermost operator only, and it is the same question as whether that operator is
put above a pending one. The order of operators is not linear, since a sign is put
above a power and a power above a sign; what is left of transitivity is enough.

An operand ends before a token that applies the operators on its right edge. What an
operand stands behind is given by the pending operator next to it, if there is one.
-/

namespace Formula

namespace Operator

theorem sign_shiftsOver (s : Sign) (pending : Operator) :
    (sign s).shiftsOver pending = true := rfl

theorem pow_shiftsOver (pending : Operator) : (binary .pow).shiftsOver pending = true := by
  rcases pending with s | b
  · rfl
  · cases b <;> rfl

theorem binary_shiftsOver_iff {b : BinaryOp} (hb : b ≠ .pow) (pending : Operator) :
    (binary b).shiftsOver pending = true ↔ pending.precedence < (binary b).precedence := by
  cases b <;> simp_all [shiftsOver, isSign, grouping]

theorem shiftsOver_trans {b : BinaryOp} {p q : Operator}
    (hp : (binary b).shiftsOver p = true) (hq : p.shiftsOver q = true) :
    (binary b).shiftsOver q = true := by
  by_cases hb : b = .pow
  · rw [hb]
    exact pow_shiftsOver q
  · rw [binary_shiftsOver_iff hb] at hp ⊢
    rcases p with s | c
    · rcases q with s' | d
      · exact hp
      · cases b <;> cases d <;> simp_all [precedence]
    · by_cases hc : c = .pow
      · cases b <;> simp_all [precedence]
      · have := (binary_shiftsOver_iff hc q).mp hq
        omega

theorem shiftsOver_of_not {b : BinaryOp} {p q : Operator}
    (hp : (binary b).shiftsOver p = false) (hq : (binary b).shiftsOver q = true) :
    p.shiftsOver q = true := by
  have hb : b ≠ .pow := by
    rintro rfl
    rw [pow_shiftsOver] at hp
    cases hp
  rw [← Bool.not_eq_true, binary_shiftsOver_iff hb] at hp
  rw [binary_shiftsOver_iff hb] at hq
  have : q.precedence < p.precedence := by omega
  simp [shiftsOver, this]

end Operator

namespace Expr

def root? : Expr → Option Operator
  | sign s _ _ => some (.sign s)
  | binary b _ _ _ => some (.binary b)
  | _ => none

def fitsOperand (op : Operator) (e : Expr) : Prop :=
  match op with
  | .sign s => (Operator.sign s).precedence ≤ e.precedence
  | .binary b => e.fitsRight b

theorem fitsOperand_iff {op : Operator} {e : Expr} :
    e.fitsOperand op ↔ ∀ r ∈ e.root?, r.shiftsOver op = true := by
  cases e with
  | sign s o e =>
    rcases op with s' | b
    · simp [root?, fitsOperand, precedence, Operator.precedence, Operator.sign_shiftsOver]
    · cases b <;> simp [root?, fitsOperand, fitsRight, precedence, Operator.precedence,
        Operator.grouping, Operator.sign_shiftsOver]
  | binary c o l r =>
    rcases op with s' | b
    · cases c <;> simp [root?, fitsOperand, precedence, Operator.precedence, Operator.shiftsOver,
        Operator.isSign, Operator.grouping]
    · cases b <;> cases c <;> simp [root?, fitsOperand, fitsRight, precedence,
        Operator.precedence, Operator.shiftsOver, Operator.isSign, Operator.grouping]
  | _ =>
    rcases op with s' | b
    · simp [root?, fitsOperand, precedence, Operator.precedence]
    · cases b <;> simp [root?, fitsOperand, fitsRight, precedence, Operator.precedence,
        Operator.grouping]

theorem fitsLeft_iff {b : BinaryOp} {e : Expr} :
    e.fitsLeft b ↔ ∀ r ∈ e.root?, (Operator.binary b).shiftsOver r = false := by
  cases e with
  | sign s o e =>
    cases b <;> simp [root?, fitsLeft, precedence, Operator.precedence, Operator.shiftsOver,
      Operator.isSign, Operator.grouping]
  | binary c o l r =>
    cases b <;> cases c <;> simp [root?, fitsLeft, precedence, Operator.precedence,
      Operator.shiftsOver, Operator.isSign, Operator.grouping]
  | _ => cases b <;> simp [root?, fitsLeft, precedence, Operator.precedence, Operator.grouping]

end Expr

/-- The tokens that follow make sure that a pending operator is applied next. -/
def Completes (top : Operator) : List Token → Prop
  | [] => True
  | t :: _ =>
    match t.kind with
    | .closing _ | .comma => True
    | .binary b => (Operator.binary b).shiftsOver top = false
    | _ => False

def Operator.ShiftsOnto (top : Option Operator) (op : Operator) : Prop :=
  ∀ p ∈ top, op.shiftsOver p = true

namespace Expr

def FitsUnder (top : Option Operator) (e : Expr) : Prop := ∀ p ∈ top, e.fitsOperand p

/-- What follows belongs to no operand of the tree. -/
def EndsBefore (e : Expr) : List Token → Prop
  | [] => True
  | t :: _ =>
    match t.kind with
    | .closing _ | .comma => True
    | .binary b => e.fitsLeft b
    | _ => False

theorem endsBefore_closing (e : Expr) (d : Delimiter) (c : Nat) (ts : List Token) :
    e.EndsBefore (⟨.closing d, c⟩ :: ts) := trivial

theorem endsBefore_comma (e : Expr) (c : Nat) (ts : List Token) :
    e.EndsBefore (⟨.comma, c⟩ :: ts) := trivial

theorem fitsUnder_none (e : Expr) : e.FitsUnder none := by
  intro p hp
  cases hp

theorem fitsUnder_of_root {top : Option Operator} {e : Expr} {r : Operator}
    (hr : e.root? = some r) (h : r.ShiftsOnto top) : e.FitsUnder top := by
  intro p hp
  rw [fitsOperand_iff, hr]
  intro r' hr'
  cases hr'
  exact h p hp

theorem FitsUnder.shiftsOnto {top : Option Operator} {e : Expr} (h : e.FitsUnder top)
    {r : Operator} (hr : r ∈ e.root?) : r.ShiftsOnto top :=
  fun p hp => fitsOperand_iff.mp (h p hp) r hr

theorem FitsUnder.left {top : Option Operator} {b : BinaryOp} {o : Nat} {l r : Expr}
    (h : (binary b o l r).FitsUnder top) (hl : l.fitsLeft b) : l.FitsUnder top := by
  intro p hp
  rw [fitsOperand_iff]
  intro q hq
  exact Operator.shiftsOver_of_not (fitsLeft_iff.mp hl q hq) (h.shiftsOnto rfl p hp)

theorem fitsLeft_operand {b : BinaryOp} {op : Operator} {e : Expr} (he : e.fitsOperand op)
    (hb : (Operator.binary b).shiftsOver op = false) : e.fitsLeft b := by
  rw [fitsLeft_iff]
  intro r hr
  cases hc : (Operator.binary b).shiftsOver r with
  | false => rfl
  | true =>
    have := Operator.shiftsOver_trans hc (fitsOperand_iff.mp he r hr)
    rw [hb] at this
    cases this

theorem EndsBefore.completes {e : Expr} {ts : List Token} (h : e.EndsBefore ts) {r : Operator}
    (hr : r ∈ e.root?) : Completes r ts := by
  cases ts with
  | nil => trivial
  | cons t ts =>
    obtain ⟨k, o⟩ := t
    cases k with
    | binary b => exact fitsLeft_iff.mp h r hr
    | closing d => trivial
    | comma => trivial
    | _ => cases h

theorem EndsBefore.not_opening {e : Expr} {ts : List Token} (h : e.EndsBefore ts) :
    ∀ t ∈ ts.head?, t.kind ≠ .opening .paren := by
  intro t ht hk
  cases ts with
  | nil => cases ht
  | cons u ts =>
    cases ht
    simp only [EndsBefore, hk] at h

end Expr

theorem Completes.endsBefore {op : Operator} {ts : List Token} (h : Completes op ts) {e : Expr}
    (he : e.fitsOperand op) : e.EndsBefore ts := by
  cases ts with
  | nil => trivial
  | cons t ts =>
    obtain ⟨k, o⟩ := t
    cases k with
    | binary b => exact Expr.fitsLeft_operand he h
    | closing d => trivial
    | comma => trivial
    | _ => cases h

end Formula
