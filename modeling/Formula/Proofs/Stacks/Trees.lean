import Formula.Expr
import Formula.Proofs.Expr.Grammar
import Formula.Proofs.Precedence
import Formula.Proofs.Stacks.Frames
import Formula.Proofs.Stacks.Reading

/-!
# Trees on two stacks

Reading the tokens of a tree does what evaluating the tree does and leaves its value
on top of the others. The operators on the right edge of the tree are still pending
when its last token has been read, so the statement is about what follows: a token
that ends the tree applies them. Actions and errors agree, not only values.
-/

namespace Formula

open State Traced

theorem Expr.fitsUnder_frame (e : Expr) (f : Frame) (below : List Pending) :
    e.FitsUnder (Pending.top? (.frame f :: below)) := e.fitsUnder_none

theorem collect_items (purpose : Purpose) (o : Nat) (items values : List Value) :
    collect ⟨purpose, o, values.length⟩ (items.reverse ++ values) =
      match purpose with
      | .group => pure (items.reverse ++ values)
      | .call name function => function.act name o items >>= fun w => pure (w :: values)
      | .vector => flatVector o items >>= fun w => pure (w :: values) := by
  have hn : (items.reverse ++ values).length - values.length = items.reverse.length := by
    rw [List.length_append]
    omega
  cases purpose <;>
    simp only [collect, hn, List.take_left, List.drop_left, List.reverse_reverse]

variable {env : Environment} {last : Nat}

theorem resolve_name (n : String) (o : Nat) {ts : List Token} (pending : List Pending)
    (values : List Value) (hts : ∀ t ∈ ts.head?, t.kind ≠ .opening .paren) :
    (reading ts pending values).resolve env n o =
      env.valueAt n o >>= fun v => pure (reading ts pending (v :: values)) := by
  unfold resolve Environment.valueAt
  cases env.valueOf? n with
  | some v =>
    dsimp only
    split
    · rename_i c hp
      cases ts with
      | nil => cases hp
      | cons t ts =>
        cases hp
        exact absurd rfl (hts _ rfl)
    · rfl
  | none =>
    cases env.functionOf? n with
    | some f =>
      dsimp only
      split
      · rename_i c input hn
        cases ts with
        | nil => cases hn
        | cons t ts =>
          cases hn
          exact absurd rfl (hts _ rfl)
      · rfl
    | none => rfl

theorem acts_name (n : String) (o : Nat) {ts : List Token} (pending : List Pending)
    (values : List Value) (hts : ∀ t ∈ ts.head?, t.kind ≠ .opening .paren) :
    acts env last (reading (⟨.identifier n, o⟩ :: ts) pending values) =
      env.valueAt n o >>= fun v => acts env last (reading ts pending (v :: values)) := by
  have ha : (env.valueAt n o).actions = env.valueAt n o := by
    unfold Environment.valueAt
    split <;> rfl
  rw [acts_identifier, resolve_name n o pending values hts, actions_bind, ha, bind_assoc]
  rfl

theorem acts_called (n : String) (o p : Nat) (ts : List Token) (pending : List Pending)
    (values : List Value) :
    acts env last (reading (⟨.identifier n, o⟩ :: ⟨.opening .paren, p⟩ :: ts) pending values) =
      env.functionAt n o >>= fun f =>
        acts env last (reading ts (.frame ⟨.call n f, o, values.length⟩ :: pending) values) := by
  rw [acts_identifier]
  unfold resolve Environment.functionAt
  cases env.valueOf? n with
  | some v => rfl
  | none =>
    cases env.functionOf? n with
    | some f => rfl
    | none => rfl

theorem acts_closing_items (d : Delimiter) (c : Nat) (ts : List Token) (purpose : Purpose)
    (o : Nat) (below : List Pending) (items values : List Value) (hd : purpose.delimiter = d) :
    acts env last (reading (⟨.closing d, c⟩ :: ts) (.frame ⟨purpose, o, values.length⟩ :: below)
        (items.reverse ++ values)) =
      match purpose with
      | .group => acts env last (reading ts below (items.reverse ++ values))
      | .call name function =>
        function.act name o items >>= fun w => acts env last (reading ts below (w :: values))
      | .vector =>
        flatVector o items >>= fun w => acts env last (reading ts below (w :: values)) := by
  rw [acts_closing_frame, if_pos hd, collect_items]
  cases purpose with
  | group => rw [pure_bind]
  | call name function => simp only [bind_assoc, pure_bind]
  | vector => simp only [bind_assoc, pure_bind]

/-- Reading the tree pushes its value, under operators and before tokens that leave it whole. -/
def Expr.Pushes (env : Environment) (last : Nat) (e : Expr) : Prop :=
  ∀ ⦃pending : List Pending⦄ ⦃ts : List Token⦄ ⦃values : List Value⦄,
    e.FitsUnder (Pending.top? pending) → e.EndsBefore ts → Pending.base pending ≤ values.length →
    acts env last (reading (e.tokens ++ ts) pending values) =
      e.evaluate env >>= fun v => acts env last (reading ts pending (v :: values))

def Items.Pushes (env : Environment) (last : Nat) (items : Items) : Prop :=
  ∀ ⦃f : Frame⦄ ⦃below : List Pending⦄ ⦃values : List Value⦄ (d : Delimiter) (c : Nat)
    (ts : List Token), f.purpose.takesCommas = true → f.base ≤ values.length →
    acts env last (reading (items.tokens ++ ⟨.closing d, c⟩ :: ts) (.frame f :: below) values) =
      items.evaluate env >>= fun vs =>
        acts env last
          (reading (⟨.closing d, c⟩ :: ts) (.frame f :: below) (vs.reverse ++ values))

section Nodes

theorem Expr.pushes_number (x : Float) (o : Nat) : (Expr.number x o).Pushes env last := by
  intro pending ts values _ _ _
  rw [Expr.evaluate, pure_bind]
  exact acts_number x o ts pending values

theorem Expr.pushes_name (n : String) (o : Nat) : (Expr.name n o).Pushes env last :=
  fun pending _ values _ hts _ => acts_name n o pending values hts.not_opening

theorem Expr.pushes_nullary (n : String) (o p c : Nat) :
    (Expr.nullary n o p c).Pushes env last := by
  intro pending ts values _ _ _
  rw [Expr.evaluate, bind_assoc]
  refine (acts_called n o p (⟨.closing .paren, c⟩ :: ts) pending values).trans ?_
  congr 1
  funext f
  exact acts_closing_items .paren c ts (.call n f) o pending [] values rfl

theorem Expr.pushes_call {args : Items} (ha : args.Pushes env last) (n : String) (o p c : Nat) :
    (Expr.call n o p args c).Pushes env last := by
  intro pending ts values _ _ _
  rw [Expr.evaluate, Expr.tokens]
  simp only [bind_assoc, List.cons_append, List.append_assoc, List.nil_append]
  rw [acts_called]
  congr 1
  funext f
  rw [ha .paren c ts rfl (Nat.le_refl _)]
  congr 1
  funext vs
  exact acts_closing_items .paren c ts (.call n f) o pending vs values rfl

theorem Expr.pushes_group {e : Expr} (he : e.Pushes env last) (p c : Nat) :
    (Expr.group p e c).Pushes env last := by
  intro pending ts values _ _ _
  rw [Expr.evaluate, Expr.tokens]
  simp only [List.cons_append, List.append_assoc, List.nil_append]
  rw [acts_opening, he (e.fitsUnder_frame _ _) (e.endsBefore_closing _ _ _) (Nat.le_refl _)]
  congr 1
  funext v
  exact acts_closing_items .paren c ts .group p pending [v] values rfl

theorem Expr.pushes_vector {items : Items} (hi : items.Pushes env last) (p c : Nat) :
    (Expr.vector p items c).Pushes env last := by
  intro pending ts values _ _ _
  rw [Expr.evaluate, Expr.tokens]
  simp only [bind_assoc, List.cons_append, List.append_assoc, List.nil_append]
  rw [acts_opening, hi .bracket c ts rfl (Nat.le_refl _)]
  congr 1
  funext vs
  exact acts_closing_items .bracket c ts .vector p pending vs values rfl

theorem Expr.pushes_sign {e : Expr} (he : e.Pushes env last) {s : Sign}
    (hs : (Operator.sign s).precedence ≤ e.precedence) (o : Nat) :
    (Expr.sign s o e).Pushes env last := by
  intro pending ts values _ hts hv
  have hshift : (Operator.sign s).ShiftsOnto (Pending.top? pending) :=
    fun p _ => Operator.sign_shiftsOver s p
  -- what ends the whole tree also ends the operand and then applies the sign
  have hc : Completes (.sign s) ts := hts.completes rfl
  have hf : e.FitsUnder (Pending.top? (.operator (.sign s) o :: pending)) := by
    intro p hp
    cases hp
    exact hs
  rw [Expr.evaluate, Expr.tokens, List.cons_append, acts_shift rfl (e.tokens ++ ts) hshift values,
    he hf (hc.endsBefore hs) hv, bind_assoc]
  congr 1
  funext v
  rw [acts_apply hc, applyOperator_sign _ _ _ _ hv, bind_assoc]
  simp only [pure_bind]

theorem Expr.pushes_binary {l r : Expr} (hl : l.Pushes env last) (hr : r.Pushes env last)
    {b : BinaryOp} (hleft : l.fitsLeft b) (hright : r.fitsRight b) (o : Nat) :
    (Expr.binary b o l r).Pushes env last := by
  intro pending ts values hp hts hv
  have hc : Completes (.binary b) ts := hts.completes rfl
  -- the operator itself ends the left operand
  have he : l.EndsBefore (⟨.binary b, o⟩ :: (r.tokens ++ ts)) := hleft
  have hf : r.FitsUnder (Pending.top? (.operator (.binary b) o :: pending)) := by
    intro p hp
    cases hp
    exact hright
  rw [Expr.evaluate, Expr.tokens, List.append_assoc, List.cons_append, hl (hp.left hleft) he hv,
    bind_assoc]
  congr 1
  funext x
  have hx : Pending.base (.operator (.binary b) o :: pending) ≤ (x :: values).length :=
    Nat.le_succ_of_le hv
  rw [acts_shift rfl (r.tokens ++ ts) (hp.shiftsOnto rfl), hr hf (hc.endsBefore hright) hx,
    bind_assoc]
  congr 1
  funext y
  rw [acts_apply hc, applyOperator_binary _ _ _ _ _ hv, bind_assoc]
  simp only [pure_bind]

theorem Items.pushes_one {e : Expr} (he : e.Pushes env last) : (Items.one e).Pushes env last := by
  intro f below values d c ts hf hv
  rw [Items.evaluate, Items.tokens, he (e.fitsUnder_frame f below) (e.endsBefore_closing d c ts) hv,
    bind_assoc]
  rfl

theorem Items.pushes_more {e : Expr} {rest : Items} (he : e.Pushes env last)
    (hrest : rest.Pushes env last) (comma : Nat) : (Items.more e comma rest).Pushes env last := by
  intro f below values d c ts hf hv
  rw [Items.evaluate, Items.tokens, List.append_assoc, List.cons_append,
    he (e.fitsUnder_frame f below) (e.endsBefore_comma comma _) hv, bind_assoc]
  congr 1
  funext v
  have hv' : f.base ≤ (v :: values).length := Nat.le_succ_of_le hv
  rw [acts_comma_frame, if_pos hf, hrest d c ts hf hv', bind_assoc]
  congr 1
  funext vs
  simp only [pure_bind, List.reverse_cons, List.append_assoc, List.cons_append, List.nil_append]

end Nodes

mutual

theorem Expr.Stratified.pushes {e : Expr} (he : e.Stratified) : e.Pushes env last := by
  match e with
  | .number x o => exact Expr.pushes_number x o
  | .name n o => exact Expr.pushes_name n o
  | .nullary n o p c => exact Expr.pushes_nullary n o p c
  | .call n o p args c => exact Expr.pushes_call (Items.Stratified.pushes he) n o p c
  | .group p e c => exact Expr.pushes_group (Expr.Stratified.pushes (e := e) he) p c
  | .vector p items c => exact Expr.pushes_vector (Items.Stratified.pushes he) p c
  | .sign s o e => exact Expr.pushes_sign he.2.pushes he.1 o
  | .binary b o l r =>
    obtain ⟨hleft, hright, hl, hr⟩ := he
    exact Expr.pushes_binary hl.pushes hr.pushes hleft hright o

theorem Items.Stratified.pushes {items : Items} (hi : items.Stratified) :
    items.Pushes env last := by
  match items with
  | .one e => exact Items.pushes_one (Expr.Stratified.pushes (e := e) hi)
  | .more e comma rest => exact Items.pushes_more hi.1.pushes hi.2.pushes comma

end

/-- The actions of a run over the tokens of a tree are those of the tree's evaluation. -/
theorem traceTokens_actions {e : Expr} (he : e.Stratified) (env : Environment) :
    (traceTokens e.tokens env).actions = e.evaluate env := by
  have hp : e.FitsUnder (Pending.top? []) := e.fitsUnder_none
  have hts : e.EndsBefore [] := trivial
  have h : acts env (lastOffset e.tokens) (reading (e.tokens ++ []) [] []) = _ :=
    he.pushes hp hts (Nat.le_refl 0)
  simp only [List.append_nil, acts_nil_nil] at h
  exact h.trans (bind_pure _)

end Formula
