import Formula.Evaluate
import Formula.Proofs.Expr.Parsing
import Formula.Proofs.Faults
import Formula.Proofs.Token.Adjacency

/-!
# Drafts on two stacks

While the tokens of a source are read, the pending operators and frames are the
entries of a draft and the values are those of its trees, one for each. So an
operator never lacks an operand, exactly one value is left at the end, and a run
that ends with a value has parsed its tokens.
-/

namespace Formula

open State Traced

/-- The entries correspond one to one, and so many values belong to them. -/
inductive Entry.Matches : List Entry → List Pending → Nat → Prop
  | nil : Matches [] [] 0
  | sign (s : Sign) (o : Nat) {below : List Entry} {pending : List Pending} {n : Nat} :
      Matches below pending n →
      Matches (.operator (.sign s o) :: below) (.operator (.sign s) o :: pending) n
  | binary (b : BinaryOp) (o : Nat) (l : Expr) {below : List Entry} {pending : List Pending}
      {n : Nat} : Matches below pending n →
      Matches (.operator (.binary b o l) :: below) (.operator (.binary b) o :: pending) (n + 1)
  | group (p : Nat) {below : List Entry} {pending : List Pending} {n : Nat} :
      Matches below pending n →
      Matches (.frame (.group p) :: below) (.frame ⟨.group, p, n⟩ :: pending) n
  | call (name : String) (f : Function) (o p : Nat) (args : Before) {below : List Entry}
      {pending : List Pending} {n : Nat} : Matches below pending n →
      Matches (.frame (.call name o p args) :: below) (.frame ⟨.call name f, o, n⟩ :: pending)
        (n + args.length)
  | vector (p : Nat) (items : Before) {below : List Entry} {pending : List Pending} {n : Nat} :
      Matches below pending n →
      Matches (.frame (.vector p items) :: below) (.frame ⟨.vector, p, n⟩ :: pending)
        (n + items.length)

namespace Entry.Matches

variable {entries : List Entry} {pending : List Pending} {n : Nat}

theorem base_le (h : Matches entries pending n) : Pending.base pending ≤ n := by
  induction h with
  | nil => exact Nat.le_refl 0
  | sign s o h ih => exact ih
  | binary b o l h ih => exact Nat.le_succ_of_le ih
  | group p h ih => exact Nat.le_refl _
  | call name f o p args h ih => exact Nat.le_add_right _ _
  | vector p items h ih => exact Nat.le_add_right _ _

theorem top?_eq (h : Matches entries pending n) : Pending.top? pending = Entry.top? entries := by
  cases h <;> rfl

theorem nil_inv (h : Matches [] pending n) : pending = [] ∧ n = 0 := by
  cases h
  exact ⟨rfl, rfl⟩

theorem operator_inv {w : Waiting} (h : Matches (.operator w :: entries) pending n) :
    ∃ o below m, pending = .operator w.op o :: below ∧ Matches entries below m ∧
      n + 1 = m + w.op.arity := by
  cases h with
  | sign s o h => exact ⟨_, _, _, rfl, h, rfl⟩
  | binary b o l h => exact ⟨_, _, _, rfl, h, rfl⟩

theorem frame_inv {f : Opened} (h : Matches (.frame f :: entries) pending n) :
    ∃ g below, pending = .frame g :: below ∧ Matches entries below g.base ∧
      n = g.base + f.items.length ∧ (g.purpose = .group → f.items = []) := by
  cases h with
  | group p h => exact ⟨_, _, rfl, h, rfl, fun _ => rfl⟩
  | call name f o p args h => exact ⟨_, _, rfl, h, rfl, fun h => by cases h⟩
  | vector p items h => exact ⟨_, _, rfl, h, rfl, fun h => by cases h⟩

theorem close? {f : Opened} {g : Frame} (h : Matches (.frame f :: entries) (.frame g :: pending) n)
    {d : Delimiter} (hd : g.purpose.delimiter = d) (c : Nat) (e : Expr) :
    ∃ t, f.close? d c e = some t := by
  subst hd
  cases h <;> exact ⟨_, rfl⟩

theorem add? {f : Opened} {g : Frame} (h : Matches (.frame f :: entries) (.frame g :: pending) n)
    (hc : g.purpose.takesCommas = true) (c : Nat) (e : Expr) :
    ∃ f', f.add? c e = some f' ∧ Matches (.frame f' :: entries) (.frame g :: pending) (n + 1) := by
  cases h with
  | group p h => cases hc
  | call name f o p args h => exact ⟨_, rfl, .call name f o p ((e, c) :: args) h⟩
  | vector p items h => exact ⟨_, rfl, .vector p ((e, c) :: items) h⟩

end Entry.Matches

variable {env : Environment} {last : Nat}

theorem yields_complete (stop : Operator → Bool) {ts : List Token}
    (hs : ∀ op, stop op = false → Completes op ts) {entries : List Entry} {pending : List Pending}
    {n : Nat} (hm : Entry.Matches entries pending n) {values : List Value}
    (hv : values.length = n + 1) (e : Expr) {post : Value → Prop}
    (hp : ∀ pending' n' values', Entry.Matches (Entry.complete stop entries e).1 pending' n' →
      values'.length = n' + 1 → (acts env last (reading ts pending' values')).Yields post) :
    (acts env last (reading ts pending values)).Yields post := by
  induction entries generalizing pending n values e with
  | nil => exact hp _ _ _ hm hv
  | cons x below ih =>
    cases x with
    | frame f => exact hp _ _ _ hm hv
    | operator w =>
      simp only [Entry.complete] at hp
      split at hp
      · exact hp _ _ _ hm hv
      · rename_i hw
        -- the stack and the draft apply the same operator, which leaves one value
        obtain ⟨o, rest, m, rfl, hm', hn⟩ := hm.operator_inv
        rw [acts_apply (hs w.op (Bool.not_eq_true _ ▸ hw))]
        refine (applyOperator_yields env.tolerance w.op o hm'.base_le (by omega)).bind ?_
        intro vs hvs
        exact ih hm' hvs (w.fill e) hp

def Draft.expected (d : Draft) : Expected :=
  match d.operand, d.entries with
  | some _, _ => .operator
  | none, .frame (.call _ _ _ []) :: _ => .argument
  | none, _ => .operand

def Environment.Binds (env : Environment) (ts : List Token) : Prop :=
  ∀ n o, ⟨.identifier n, o⟩ ∈ ts → (env.valueOf? n).isSome ∨ (env.functionOf? n).isSome

theorem Environment.Binds.tail {t : Token} {ts : List Token} (h : env.Binds (t :: ts)) :
    env.Binds ts := fun n o hn => h n o (List.mem_cons_of_mem t hn)

theorem completeAll_cases (entries : List Entry) (e : Expr) :
    (∃ t, Entry.completeAll entries e = ([], t)) ∨
      ∃ f below t, Entry.completeAll entries e = (.frame f :: below, t) := by
  have hs : ∀ p ∈ Entry.top? (Entry.completeAll entries e).1, false = true :=
    Entry.complete_stop entries e
  cases h : Entry.completeAll entries e with
  | mk rest t =>
    rw [h] at hs
    cases rest with
    | nil => exact .inl ⟨t, rfl⟩
    | cons x below =>
      cases x with
      | frame f => exact .inr ⟨f, below, t, rfl⟩
      | operator w => cases hs w.op rfl

theorem expected_items {f : Opened} (h : f.items ≠ []) (below : List Entry) :
    Draft.expected ⟨.frame f :: below, none⟩ = .operand := by
  cases f with
  | group p => rfl
  | vector p items => rfl
  | call n o p args =>
    cases args with
    | nil => exact absurd rfl h
    | cons a args => rfl

theorem expected_none (entries : List Entry) :
    Draft.expected ⟨entries, none⟩ = .operand ∨
      ∃ n o p below, entries = .frame (.call n o p []) :: below := by
  unfold Draft.expected
  split
  · rename_i he
    cases he
  · rename_i n o p below _ he
    exact .inr ⟨n, o, p, below, he⟩
  · exact .inl rfl

theorem expected_not_complete (entries : List Entry) :
    (Draft.expected ⟨entries, none⟩).afterOperand = false := by
  rcases expected_none entries with he | ⟨n, o, p, below, rfl⟩
  · rw [he]
    rfl
  · rfl

theorem expected_begins {entries : List Entry} {k : Token.Kind}
    (h : (Draft.expected ⟨entries, none⟩).admits k = true) :
    k.beginsOperand = true ∨
      k = .closing .paren ∧ ∃ n o p below, entries = .frame (.call n o p []) :: below := by
  rcases expected_none entries with he | hc
  · rw [he] at h
    exact .inl h
  · obtain ⟨n, o, p, below, rfl⟩ := hc
    cases k with
    | closing d =>
      cases d with
      | paren => exact .inr ⟨rfl, n, o, p, below, rfl⟩
      | bracket => cases h
    | _ => exact .inl h

theorem expected_not_admits (entries : List Entry) {k : Token.Kind} (hk : k.beginsOperand = false)
    (hp : k ≠ .closing .paren) : (Draft.expected ⟨entries, none⟩).admits k = false := by
  rw [← Bool.not_eq_true]
  intro h
  rcases expected_begins h with hb | ⟨hc, -⟩
  · rw [hk] at hb
    cases hb
  · exact hp hc

theorem expected_next_opening (entries : List Entry) (d : Delimiter) :
    (Draft.expected ⟨entries, none⟩).next (.opening d) = .operand := by
  rcases expected_none entries with he | ⟨n, o, p, below, rfl⟩
  · rw [he]
    cases d <;> rfl
  · cases d <;> rfl

theorem opens_or (ts : List Token) :
    (∃ p rest, ts = ⟨.opening .paren, p⟩ :: rest) ∨ ∀ t ∈ ts.head?, t.kind ≠ .opening .paren := by
  cases ts with
  | nil =>
    right
    intro t ht
    cases ht
  | cons t rest =>
    by_cases h : t.kind = .opening .paren
    · exact .inl ⟨t.offset, rest, by rw [← h]⟩
    · right
      intro u hu
      cases hu
      exact h

/-- A run over tokens that are accepted behind the draft has no internal error, and if it ends
with a value then the draft and the tokens parse. -/
def Draft.Runs (env : Environment) (last : Nat) (d : Draft) (ts : List Token) : Prop :=
  ∀ ⦃pending : List Pending⦄ ⦃n : Nat⦄ ⦃values : List Value⦄,
    Entry.Matches d.entries pending n → values.length = n + d.operand.toList.length →
    d.expected.Accepts ts → env.Binds ts →
    (acts env last (reading ts pending values)).Yields fun _ => (d.parse ts).isSome = true

namespace Draft

variable {entries : List Entry} {ts : List Token}

theorem runs_unexpected {d : Draft} {t : Token} (h : d.expected.admits t.kind = false) :
    d.Runs env last (t :: ts) := by
  intro pending n values _ _ ha
  rw [Expected.Accepts, h] at ha
  exact absurd ha.1 Bool.false_ne_true

section Operands

theorem runs_nil_none : Runs env last ⟨entries, none⟩ [] := by
  intro pending n values _ _ ha
  have hx : (expected ⟨entries, none⟩).afterOperand = true := ha
  rw [expected_not_complete] at hx
  cases hx

variable (ih : ∀ d : Draft, d.Runs env last ts)
include ih

theorem runs_number (x : Float) (o : Nat) :
    Runs env last ⟨entries, none⟩ (⟨.number x, o⟩ :: ts) := by
  intro pending n values hm hv ha hb
  rw [acts_number]
  refine ih ⟨entries, some (.number x o)⟩ hm ?_ ha.2 hb.tail
  rw [List.length_cons, hv]
  rfl

theorem runs_sign (s : Sign) (o : Nat) :
    Runs env last ⟨entries, none⟩ (⟨.sign s, o⟩ :: ts) := by
  intro pending n values hm hv ha hb
  rw [acts_shift rfl ts (fun p _ => Operator.sign_shiftsOver s p)]
  exact ih ⟨.operator (.sign s o) :: entries, none⟩ (.sign s o hm) hv ha.2 hb.tail

theorem runs_opening (c : Delimiter) (o : Nat) :
    Runs env last ⟨entries, none⟩ (⟨.opening c, o⟩ :: ts) := by
  intro pending n values hm hv ha hb
  obtain rfl : values.length = n := hv
  have hx : Expected.operand.Accepts ts := expected_next_opening entries c ▸ ha.2
  rw [acts_opening]
  cases c with
  | paren => exact ih ⟨.frame (.group o) :: entries, none⟩ (.group o hm) rfl hx hb.tail
  | bracket => exact ih ⟨.frame (.vector o []) :: entries, none⟩ (.vector o [] hm) rfl hx hb.tail

theorem runs_call (m : String) (o p : Nat) :
    Runs env last ⟨entries, none⟩ (⟨.identifier m, o⟩ :: ⟨.opening .paren, p⟩ :: ts) := by
  intro pending n values hm hv ha hb
  obtain rfl : values.length = n := hv
  rw [acts_called]
  refine (Environment.functionAt_yields (hb m o List.mem_cons_self) o).bind fun f _ => ?_
  exact ih ⟨.frame (.call m o p []) :: entries, none⟩ (.call m f o p [] hm) rfl ha.2.2
    hb.tail.tail

theorem runs_name (hts : ∀ t ∈ ts.head?, t.kind ≠ .opening .paren) (m : String) (o : Nat) :
    Runs env last ⟨entries, none⟩ (⟨.identifier m, o⟩ :: ts) := by
  intro pending n values hm hv ha hb
  rw [acts_name m o pending values hts]
  refine (Environment.valueAt_yields (hb m o List.mem_cons_self) o).bind fun v _ => ?_
  have hv' : (v :: values).length = n + 1 := congrArg Nat.succ hv
  have h := ih ⟨entries, some (.name m o)⟩ hm hv' (ha.2.not_called hts) hb.tail
  cases ts with
  | nil => exact h
  | cons t ts => exact h

theorem runs_closing_none (c : Delimiter) (o : Nat) :
    Runs env last ⟨entries, none⟩ (⟨.closing c, o⟩ :: ts) := by
  intro pending n values hm hv ha hb
  rcases expected_begins ha.1 with h | ⟨h, m, q, p, below, rfl⟩
  · cases h
  · cases h
    cases hm with
    | call m f q p args hm =>
      have hd : (Purpose.call m f).delimiter = .paren := rfl
      rw [acts_closing_frame, if_pos hd]
      refine (collect_yields (Nat.le_of_eq hv.symm) fun h => by cases h).bind fun w hw => ?_
      exact ih ⟨below, some (.nullary m q p o)⟩ hm hw ha.2 hb.tail

end Operands

section Operators

theorem runs_nil_some (e : Expr) : Runs env last ⟨entries, some e⟩ [] := by
  intro pending n values hm hv _ _
  have hs : ∀ op, false = false → Completes op [] := fun _ _ => trivial
  refine yields_complete (fun _ => false) hs hm hv e ?_
  intro pending' n' values' hm' hv'
  rw [← Entry.completeAll] at hm'
  rcases completeAll_cases entries e with ⟨t, he⟩ | ⟨f, below, t, he⟩
  · rw [he] at hm'
    obtain ⟨rfl, rfl⟩ := hm'.nil_inv
    obtain ⟨v, rfl⟩ := List.length_eq_one_iff.mp hv'
    rw [acts_nil_nil]
    refine yields_pure ?_
    simp only [parse, finish, he, Option.isSome_some]
  · rw [he] at hm'
    obtain ⟨g, rest, rfl, -⟩ := hm'.frame_inv
    rw [acts_nil_frame]
    exact yields_fail rfl _

variable (ih : ∀ d : Draft, d.Runs env last ts)
include ih

theorem runs_binary (b : BinaryOp) (o : Nat) (e : Expr) :
    Runs env last ⟨entries, some e⟩ (⟨.binary b, o⟩ :: ts) := by
  intro pending n values hm hv ha hb
  have hs : ∀ op, (Operator.binary b).shiftsOver op = false →
      Completes op (⟨.binary b, o⟩ :: ts) := fun _ h => h
  refine yields_complete (Operator.binary b).shiftsOver hs hm hv e ?_
  intro pending' n' values' hm' hv'
  have ht : (Operator.binary b).ShiftsOnto (Pending.top? pending') := by
    rw [hm'.top?_eq]
    exact Entry.complete_stop entries e
  rw [acts_shift rfl ts ht]
  exact ih (waitFor b o (Entry.complete (Operator.binary b).shiftsOver entries e))
    (.binary b o _ hm') hv' ha.2 hb.tail

theorem runs_closing_some (c : Delimiter) (o : Nat) (e : Expr) :
    Runs env last ⟨entries, some e⟩ (⟨.closing c, o⟩ :: ts) := by
  intro pending n values hm hv ha hb
  have hs : ∀ op, false = false → Completes op (⟨.closing c, o⟩ :: ts) := fun _ _ => trivial
  refine yields_complete (fun _ => false) hs hm hv e ?_
  intro pending' n' values' hm' hv'
  rw [← Entry.completeAll] at hm'
  rcases completeAll_cases entries e with ⟨t, he⟩ | ⟨f, below, t, he⟩
  · rw [he] at hm'
    rw [hm'.nil_inv.1, acts_closing_nil]
    exact yields_fail rfl o
  · rw [he] at hm'
    obtain ⟨g, rest, rfl, hbelow, hn, hg⟩ := hm'.frame_inv
    rw [acts_closing_frame]
    split
    · rename_i hd
      obtain ⟨u, hu⟩ := hm'.close? hd o t
      have hl : g.purpose = .group → values'.length = g.base + 1 := by
        intro h
        rw [hv', hn, hg h]
        rfl
      refine (collect_yields (by omega) hl).bind fun ws hw => ?_
      have hr : read ⟨.closing c, o⟩ ⟨entries, some e⟩ = some ⟨below, some u⟩ := by
        cases c <;> simp only [read, close?, he, hu] <;> rfl
      rw [parse_cons hr]
      exact ih ⟨below, some u⟩ hbelow hw ha.2 hb.tail
    · exact yields_fail rfl o

theorem runs_comma (o : Nat) (e : Expr) :
    Runs env last ⟨entries, some e⟩ (⟨.comma, o⟩ :: ts) := by
  intro pending n values hm hv ha hb
  have hs : ∀ op, false = false → Completes op (⟨.comma, o⟩ :: ts) := fun _ _ => trivial
  refine yields_complete (fun _ => false) hs hm hv e ?_
  intro pending' n' values' hm' hv'
  rw [← Entry.completeAll] at hm'
  rcases completeAll_cases entries e with ⟨t, he⟩ | ⟨f, below, t, he⟩
  · rw [he] at hm'
    rw [hm'.nil_inv.1, acts_comma_nil]
    exact yields_fail rfl o
  · rw [he] at hm'
    obtain ⟨g, rest, rfl, hbelow, hn, hg⟩ := hm'.frame_inv
    rw [acts_comma_frame]
    split
    · rename_i hc
      obtain ⟨f', hf, hm''⟩ := hm'.add? hc o t
      have hx : (expected ⟨.frame f' :: below, none⟩).Accepts ts := by
        have hne : f'.items ≠ [] := by
          rw [Opened.add?_items hf]
          exact List.cons_ne_nil _ _
        rw [expected_items hne]
        exact ha.2
      have hr : read ⟨.comma, o⟩ ⟨entries, some e⟩ = some ⟨.frame f' :: below, none⟩ := by
        simp only [read, add?, he, hf]
        rfl
      rw [parse_cons hr]
      exact ih ⟨.frame f' :: below, none⟩ hm'' hv' hx hb.tail
    · exact yields_fail rfl o

end Operators

/-- By recursion on the tokens; a call takes its name and its parenthesis in one step. -/
theorem runs (ts : List Token) (d : Draft) : d.Runs env last ts := by
  match d, ts with
  | ⟨_, none⟩, [] => exact runs_nil_none
  | ⟨_, none⟩, ⟨.number x, o⟩ :: ts => exact runs_number (runs ts) x o
  | ⟨_, none⟩, ⟨.sign s, o⟩ :: ts => exact runs_sign (runs ts) s o
  | ⟨_, none⟩, ⟨.opening c, o⟩ :: ts => exact runs_opening (runs ts) c o
  | ⟨_, none⟩, ⟨.identifier m, o⟩ :: ts =>
    rcases opens_or ts with ⟨p, rest, rfl⟩ | hts
    · exact runs_call (runs rest) m o p
    · exact runs_name (runs ts) hts m o
  | ⟨_, none⟩, ⟨.closing c, o⟩ :: ts => exact runs_closing_none (runs ts) c o
  | ⟨entries, none⟩, ⟨.binary _, _⟩ :: _ =>
    exact runs_unexpected (expected_not_admits entries rfl nofun)
  | ⟨entries, none⟩, ⟨.comma, _⟩ :: _ =>
    exact runs_unexpected (expected_not_admits entries rfl nofun)
  | ⟨_, some e⟩, [] => exact runs_nil_some e
  | ⟨_, some e⟩, ⟨.binary b, o⟩ :: ts => exact runs_binary (runs ts) b o e
  | ⟨_, some e⟩, ⟨.closing c, o⟩ :: ts => exact runs_closing_some (runs ts) c o e
  | ⟨_, some e⟩, ⟨.comma, o⟩ :: ts => exact runs_comma (runs ts) o e
  | ⟨_, some _⟩, ⟨.number _, _⟩ :: _ => exact runs_unexpected rfl
  | ⟨_, some _⟩, ⟨.sign _, _⟩ :: _ => exact runs_unexpected rfl
  | ⟨_, some _⟩, ⟨.opening _, _⟩ :: _ => exact runs_unexpected rfl
  | ⟨_, some _⟩, ⟨.identifier _, _⟩ :: _ => exact runs_unexpected rfl
termination_by ts.length

end Draft

end Formula
