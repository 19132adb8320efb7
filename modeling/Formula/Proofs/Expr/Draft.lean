import Formula.Proofs.Precedence

/-!
# Drafts

A draft is the part of a tree that the tokens so far have settled: operators that
wait for their last operand, delimiters that are open with their complete items, and
perhaps an operand behind them. The entries of a draft correspond to those of the
operator stack, but they hold trees where the evaluator holds values.
-/

namespace Formula

/-- An operator that waits for its last operand. -/
inductive Waiting where
  | sign (s : Sign) (offset : Nat)
  | binary (b : BinaryOp) (offset : Nat) (left : Expr)

namespace Waiting

def op : Waiting → Operator
  | sign s _ => .sign s
  | binary b _ _ => .binary b

def fill (e : Expr) : Waiting → Expr
  | sign s o => .sign s o e
  | binary b o l => .binary b o l e

def tokens : Waiting → List Token
  | sign s o => [⟨.sign s, o⟩]
  | binary b o l => l.tokens ++ [⟨.binary b, o⟩]

def Sound : Waiting → Prop
  | sign _ _ => True
  | binary b _ l => l.Stratified ∧ l.fitsLeft b

theorem fill_root? (w : Waiting) (e : Expr) : (w.fill e).root? = some w.op := by
  cases w <;> rfl

theorem fill_tokens (w : Waiting) (e : Expr) : (w.fill e).tokens = w.tokens ++ e.tokens := by
  cases w with
  | sign s o => rfl
  | binary b o l => simp [fill, tokens, Expr.tokens]

theorem Sound.fill {w : Waiting} (hw : w.Sound) {e : Expr} (he : e.Stratified)
    (hf : e.fitsOperand w.op) : (w.fill e).Stratified := by
  cases w with
  | sign s o => exact ⟨hf, he⟩
  | binary b o l => exact ⟨hw.2, hf, hw.1, he⟩

end Waiting

/-- The items before the last one, each with the comma behind it; the nearest comes first. -/
abbrev Before := List (Expr × Nat)

namespace Before

def build : Before → Items → Items
  | [], items => items
  | (e, comma) :: before, items => build before (.more e comma items)

def tokens : Before → List Token
  | [] => []
  | (e, comma) :: before => tokens before ++ (e.tokens ++ [⟨.comma, comma⟩])

theorem build_tokens (before : Before) (items : Items) :
    (before.build items).tokens = before.tokens ++ items.tokens := by
  induction before generalizing items with
  | nil => rfl
  | cons b before ih => simp [build, tokens, ih, Items.tokens]

theorem build_stratified {before : Before} (hb : ∀ b ∈ before, b.1.Stratified) {items : Items}
    (hi : items.Stratified) : (before.build items).Stratified := by
  induction before generalizing items with
  | nil => exact hi
  | cons b before ih =>
    exact ih (fun c hc => hb c (List.mem_cons_of_mem b hc)) ⟨hb b List.mem_cons_self, hi⟩

end Before

inductive Opened where
  | group (opening : Nat)
  | call (n : String) (offset opening : Nat) (args : Before)
  | vector (opening : Nat) (items : Before)

namespace Opened

def tokens : Opened → List Token
  | group p => [⟨.opening .paren, p⟩]
  | call n o p args => ⟨.identifier n, o⟩ :: ⟨.opening .paren, p⟩ :: args.tokens
  | vector p items => ⟨.opening .bracket, p⟩ :: items.tokens

def items : Opened → Before
  | group _ => []
  | call _ _ _ args => args
  | vector _ items => items

def close? (d : Delimiter) (closing : Nat) (e : Expr) (f : Opened) : Option Expr :=
  match f, d with
  | group p, .paren => some (.group p e closing)
  | call n o p args, .paren => some (.call n o p (args.build (.one e)) closing)
  | vector p items, .bracket => some (.vector p (items.build (.one e)) closing)
  | _, _ => none

def add? (comma : Nat) (e : Expr) : Opened → Option Opened
  | group _ => none
  | call n o p args => some (call n o p ((e, comma) :: args))
  | vector p items => some (vector p ((e, comma) :: items))

def nullary? (closing : Nat) : Opened → Option Expr
  | call n o p [] => some (.nullary n o p closing)
  | _ => none

theorem close?_tokens {d : Delimiter} {c : Nat} {e t : Expr} {f : Opened}
    (h : f.close? d c e = some t) : t.tokens = f.tokens ++ (e.tokens ++ [⟨.closing d, c⟩]) := by
  cases f <;> cases d <;> cases h <;>
    simp [Expr.tokens, tokens, Before.build_tokens, Items.tokens]

theorem close?_stratified {d : Delimiter} {c : Nat} {e t : Expr} {f : Opened}
    (hf : ∀ b ∈ f.items, b.1.Stratified) (he : e.Stratified) (h : f.close? d c e = some t) :
    t.Stratified ∧ t.root? = none := by
  cases f <;> cases d <;> cases h
  · exact ⟨he, rfl⟩
  · exact ⟨Before.build_stratified hf he, rfl⟩
  · exact ⟨Before.build_stratified hf he, rfl⟩

theorem add?_tokens {comma : Nat} {e : Expr} {f g : Opened} (h : f.add? comma e = some g) :
    g.tokens = f.tokens ++ (e.tokens ++ [⟨.comma, comma⟩]) := by
  cases f <;> cases h <;> simp [tokens, Before.tokens]

theorem add?_items {comma : Nat} {e : Expr} {f g : Opened} (h : f.add? comma e = some g) :
    g.items = (e, comma) :: f.items := by
  cases f <;> cases h <;> rfl

theorem nullary?_tokens {c : Nat} {t : Expr} {f : Opened} (h : f.nullary? c = some t) :
    t.tokens = f.tokens ++ [⟨.closing .paren, c⟩] ∧ t.Stratified ∧ t.root? = none := by
  unfold nullary? at h
  split at h
  · cases h
    exact ⟨rfl, trivial, rfl⟩
  · cases h

end Opened

inductive Entry where
  | operator (w : Waiting)
  | frame (f : Opened)

namespace Entry

def tokens : Entry → List Token
  | operator w => w.tokens
  | frame f => f.tokens

/-- The tokens of entries, of which the innermost comes first. -/
def written : List Entry → List Token
  | [] => []
  | x :: below => written below ++ x.tokens

def top? : List Entry → Option Operator
  | operator w :: _ => some w.op
  | _ => none

def Sound : List Entry → Prop
  | [] => True
  | operator w :: below => w.Sound ∧ w.op.ShiftsOnto (top? below) ∧ Sound below
  | frame f :: below => (∀ b ∈ f.items, b.1.Stratified) ∧ Sound below

/-- Applies the operators on top to an operand, down to one that stops this. -/
def complete (stop : Operator → Bool) : List Entry → Expr → List Entry × Expr
  | operator w :: below, e =>
    if stop w.op then (operator w :: below, e) else complete stop below (w.fill e)
  | entries, e => (entries, e)

def completeAll : List Entry → Expr → List Entry × Expr := complete fun _ => false

variable {stop : Operator → Bool}

theorem complete_written (stop : Operator → Bool) (entries : List Entry) (e : Expr) :
    written (complete stop entries e).1 ++ (complete stop entries e).2.tokens =
      written entries ++ e.tokens := by
  induction entries generalizing e with
  | nil => rfl
  | cons x below ih =>
    cases x with
    | frame f => rfl
    | operator w =>
      simp only [complete]
      split
      · rfl
      · rw [ih, Waiting.fill_tokens]
        simp [written, tokens]

theorem complete_sound {entries : List Entry} (hs : Sound entries) {e : Expr} (he : e.Stratified)
    (hf : e.FitsUnder (top? entries)) :
    Sound (complete stop entries e).1 ∧ (complete stop entries e).2.Stratified := by
  induction entries generalizing e with
  | nil => exact ⟨hs, he⟩
  | cons x below ih =>
    cases x with
    | frame f => exact ⟨hs, he⟩
    | operator w =>
      simp only [complete]
      split
      · exact ⟨hs, he⟩
      · obtain ⟨hw, ht, hb⟩ := hs
        exact ih hb (hw.fill he (hf w.op rfl)) (Expr.fitsUnder_of_root (w.fill_root? e) ht)

theorem complete_stop (entries : List Entry) (e : Expr) :
    ∀ p ∈ top? (complete stop entries e).1, stop p = true := by
  induction entries generalizing e with
  | nil =>
    intro p hp
    cases hp
  | cons x below ih =>
    cases x with
    | frame f =>
      intro p hp
      cases hp
    | operator w =>
      simp only [complete]
      split
      · rename_i h
        intro p hp
        cases hp
        exact h
      · exact ih (w.fill e)

theorem complete_of_stop {entries : List Entry} (h : ∀ p ∈ top? entries, stop p = true)
    (e : Expr) : complete stop entries e = (entries, e) := by
  cases entries with
  | nil => rfl
  | cons x below =>
    cases x with
    | frame f => rfl
    | operator w => exact if_pos (h w.op rfl)

theorem complete_root? (entries : List Entry) {e : Expr} (he : ∀ r ∈ e.root?, stop r = false) :
    ∀ r ∈ (complete stop entries e).2.root?, stop r = false := by
  induction entries generalizing e with
  | nil => exact he
  | cons x below ih =>
    cases x with
    | frame f => exact he
    | operator w =>
      simp only [complete]
      split
      · exact he
      · rename_i h
        refine ih ?_
        rw [w.fill_root? e]
        intro r hr
        cases hr
        exact Bool.not_eq_true _ ▸ h

end Entry
end Formula
