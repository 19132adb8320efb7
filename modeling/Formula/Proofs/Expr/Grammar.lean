import Formula.Expr

/-!
# The grammar of expressions

The productions of the language, one stratum for each level of precedence. The
grammar does not look at the table of operators; that the two describe the same
trees is `derived_iff`.
-/

namespace Formula

inductive Stratum where
  | equality
  | sum
  | product
  | signed
  | power
  | atom
deriving DecidableEq, Repr

mutual

/-- `Derived s e` says that the stratum `s` produces the tree `e`. -/
inductive Expr.Derived : Stratum → Expr → Prop
  | equal (offset : Nat) {l r : Expr} : Expr.Derived .equality l → Expr.Derived .sum r →
      Expr.Derived .equality (.binary .equal offset l r)
  | ofSum {e : Expr} : Expr.Derived .sum e → Expr.Derived .equality e
  | add (offset : Nat) {l r : Expr} : Expr.Derived .sum l → Expr.Derived .product r →
      Expr.Derived .sum (.binary .add offset l r)
  | sub (offset : Nat) {l r : Expr} : Expr.Derived .sum l → Expr.Derived .product r →
      Expr.Derived .sum (.binary .sub offset l r)
  | ofProduct {e : Expr} : Expr.Derived .product e → Expr.Derived .sum e
  | mul (offset : Nat) {l r : Expr} : Expr.Derived .product l → Expr.Derived .signed r →
      Expr.Derived .product (.binary .mul offset l r)
  | div (offset : Nat) {l r : Expr} : Expr.Derived .product l → Expr.Derived .signed r →
      Expr.Derived .product (.binary .div offset l r)
  | ofSigned {e : Expr} : Expr.Derived .signed e → Expr.Derived .product e
  | sign (s : Sign) (offset : Nat) {e : Expr} : Expr.Derived .signed e →
      Expr.Derived .signed (.sign s offset e)
  | ofPower {e : Expr} : Expr.Derived .power e → Expr.Derived .signed e
  | pow (offset : Nat) {l r : Expr} : Expr.Derived .atom l → Expr.Derived .signed r →
      Expr.Derived .power (.binary .pow offset l r)
  | ofAtom {e : Expr} : Expr.Derived .atom e → Expr.Derived .power e
  | number (x : Float) (offset : Nat) : Expr.Derived .atom (.number x offset)
  | name (n : String) (offset : Nat) : Expr.Derived .atom (.name n offset)
  | nullary (n : String) (offset opening closing : Nat) :
      Expr.Derived .atom (.nullary n offset opening closing)
  | call (n : String) (offset opening closing : Nat) {args : Items} : Items.Derived args →
      Expr.Derived .atom (.call n offset opening args closing)
  | group (opening closing : Nat) {e : Expr} : Expr.Derived .equality e →
      Expr.Derived .atom (.group opening e closing)
  | vector (opening closing : Nat) {items : Items} : Items.Derived items →
      Expr.Derived .atom (.vector opening items closing)

inductive Items.Derived : Items → Prop
  | one {e : Expr} : Expr.Derived .equality e → Items.Derived (.one e)
  | more (comma : Nat) {e : Expr} {rest : Items} : Expr.Derived .equality e →
      Items.Derived rest → Items.Derived (.more e comma rest)

end

def Stratum.precedence : Stratum → Nat
  | equality => 1
  | sum => 2
  | product => 3
  | signed => 4
  | power => 5
  | atom => 6

mutual

theorem Expr.Derived.stratified {s : Stratum} {e : Expr} (h : Expr.Derived s e) :
    s.precedence ≤ e.precedence ∧ e.Stratified := by
  match h with
  | .equal _ hl hr | .add _ hl hr | .sub _ hl hr | .mul _ hl hr | .div _ hl hr | .pow _ hl hr =>
    have ⟨hl, hl'⟩ := hl.stratified
    have ⟨hr, hr'⟩ := hr.stratified
    simp only [Stratum.precedence] at hl hr
    refine ⟨Nat.le_refl _, ?_, ?_, hl', hr'⟩
    · simp only [Expr.fitsLeft, Operator.grouping, Operator.precedence]
      omega
    · simp only [Expr.fitsRight, Operator.grouping, Operator.precedence]
      omega
  | .ofSum h | .ofProduct h | .ofSigned h | .ofPower h | .ofAtom h =>
    have ⟨h, h'⟩ := h.stratified
    simp only [Stratum.precedence] at h ⊢
    exact ⟨by omega, h'⟩
  | .sign _ _ h => exact ⟨Nat.le_refl _, h.stratified⟩
  | .number _ _ | .name _ _ | .nullary _ _ _ _ => exact ⟨Nat.le_refl _, trivial⟩
  | .call _ _ _ _ h => exact ⟨Nat.le_refl _, h.stratified⟩
  | .group _ _ h => exact ⟨Nat.le_refl _, h.stratified.2⟩
  | .vector _ _ h => exact ⟨Nat.le_refl _, h.stratified⟩

theorem Items.Derived.stratified {items : Items} (h : Items.Derived items) :
    items.Stratified := by
  match h with
  | .one h => exact h.stratified.2
  | .more _ h hs => exact ⟨h.stratified.2, hs.stratified⟩

end

theorem Expr.Derived.loosen {s s' : Stratum} {e : Expr} (h : Expr.Derived s e)
    (hs : s'.precedence ≤ s.precedence) : Expr.Derived s' e := by
  by_cases he : s = s'
  · exact he ▸ h
  · cases s' with
    | equality => exact .ofSum (h.loosen (by cases s <;> simp_all [Stratum.precedence]))
    | sum => exact .ofProduct (h.loosen (by cases s <;> simp_all [Stratum.precedence]))
    | product => exact .ofSigned (h.loosen (by cases s <;> simp_all [Stratum.precedence]))
    | signed => exact .ofPower (h.loosen (by cases s <;> simp_all [Stratum.precedence]))
    | power => exact .ofAtom (h.loosen (by cases s <;> simp_all [Stratum.precedence]))
    | atom => cases s <;> simp_all [Stratum.precedence]
termination_by 6 - s'.precedence
decreasing_by all_goals subst_vars; decide

theorem Expr.precedence_pos (e : Expr) : 1 ≤ e.precedence := by
  cases e with
  | binary b => cases b <;> simp [Expr.precedence, Operator.precedence]
  | _ => simp [Expr.precedence, Operator.precedence]

mutual

theorem Expr.Stratified.derived {e : Expr} (h : e.Stratified) {s : Stratum}
    (hs : s.precedence ≤ e.precedence) : Expr.Derived s e := by
  match e with
  | .number x o => exact (Expr.Derived.number x o).loosen hs
  | .name n o => exact (Expr.Derived.name n o).loosen hs
  | .nullary n o p c => exact (Expr.Derived.nullary n o p c).loosen hs
  | .call n o p args c => exact (Expr.Derived.call n o p c (Items.Stratified.derived h)).loosen hs
  | .group p e c =>
    have he := Expr.Stratified.derived (e := e) h (s := .equality) e.precedence_pos
    exact (Expr.Derived.group p c he).loosen hs
  | .vector p items c => exact (Expr.Derived.vector p c (Items.Stratified.derived h)).loosen hs
  | .sign sg o e => exact (Expr.Derived.sign sg o (Expr.Stratified.derived h.2 h.1)).loosen hs
  | .binary b o l r =>
    obtain ⟨hl, hr, hl', hr'⟩ := h
    cases b with
    | equal =>
      exact (Expr.Derived.equal o (Expr.Stratified.derived hl' hl)
        (Expr.Stratified.derived hr' hr)).loosen hs
    | add =>
      exact (Expr.Derived.add o (Expr.Stratified.derived hl' hl)
        (Expr.Stratified.derived hr' hr)).loosen hs
    | sub =>
      exact (Expr.Derived.sub o (Expr.Stratified.derived hl' hl)
        (Expr.Stratified.derived hr' hr)).loosen hs
    | mul =>
      exact (Expr.Derived.mul o (Expr.Stratified.derived hl' hl)
        (Expr.Stratified.derived hr' hr)).loosen hs
    | div =>
      exact (Expr.Derived.div o (Expr.Stratified.derived hl' hl)
        (Expr.Stratified.derived hr' hr)).loosen hs
    | pow =>
      exact (Expr.Derived.pow o (Expr.Stratified.derived hl' hl)
        (Expr.Stratified.derived hr' hr)).loosen hs

theorem Items.Stratified.derived {items : Items} (h : items.Stratified) :
    Items.Derived items := by
  match items with
  | .one e =>
    exact .one (Expr.Stratified.derived h e.precedence_pos)
  | .more e c rest =>
    exact .more c (Expr.Stratified.derived h.1 e.precedence_pos) (Items.Stratified.derived h.2)

end

/-- The grammar produces exactly the trees that the precedences of the operators allow. -/
theorem derived_iff {e : Expr} : Expr.Derived .equality e ↔ e.Stratified :=
  ⟨fun h => h.stratified.2, fun h => h.derived e.precedence_pos⟩

end Formula
