import Formula.Proofs.Decimal.Text
import Formula.Proofs.Evaluate
import Formula.Proofs.Stacks.Trees
import Formula.Proofs.Token.Layout

/-!
# Values read back

The text of a value is a source: a number is a numeral with at most one sign before it,
and a vector is its numbers in brackets. Where an operand is expected such a text is read
as the tokens of a tree, whatever is written behind it, and the tree has the value.
-/

namespace Formula

open Text

/-- Where an operand is expected, the text is read as tokens that complete one, whatever is written
behind it. -/
structure Token.ReadFrom (allowed : List String) (offset : Nat) (text : List Char)
    (ts : List Token) : Prop where
  written : ∀ us rest, Written allowed (offset + byteLength text) us rest →
    Written allowed offset (ts ++ us) (text ++ rest)
  accepted : ∀ us, Expected.operator.Accepts us → Expected.operand.Accepts (ts ++ us)

namespace Token

variable {allowed : List String} {offset : Nat} {text : List Char} {ts : List Token}

theorem Written.mark (m : Mark) (after : Bool) {rest : List Char}
    (h : Written allowed (offset + byteLength m.text) ts rest) :
    Written allowed offset (⟨m.kind after, offset⟩ :: ts) (m.text ++ rest) :=
  .cons offset (List.forall_mem_nil _) (m.text_spelling allowed after) h

namespace ReadFrom

theorem numeral {n : Numeral} (hn : n.Shaped) (hw : n.wellFormed = true) :
    ReadFrom allowed offset n.text [⟨.number n.value, offset⟩] where
  written _ _ h := .cons offset (List.forall_mem_nil _) (numeral_spelling allowed hn hw) h
  accepted _ h := ⟨rfl, h⟩

theorem minus (h : ReadFrom allowed (offset + 1) text ts) :
    ReadFrom allowed offset ('-' :: text) (⟨.sign .minus, offset⟩ :: ts) where
  written us rest hr := by
    have hlen : offset + byteLength ('-' :: text) = offset + 1 + byteLength text :=
      (Nat.add_assoc offset 1 _).symm
    rw [hlen] at hr
    exact .mark .minus false (h.written us rest hr)
  accepted us ha := ⟨rfl, h.accepted us ha⟩

theorem blank {c : Char} (hc : isBlank c = true)
    (h : ReadFrom allowed (offset + c.utf8Size) text ts) :
    ReadFrom allowed offset (c :: text) ts where
  written us rest hr := by
    rw [byteLength_cons, ← Nat.add_assoc] at hr
    exact (h.written us rest hr).blank_cons hc
  accepted := h.accepted

theorem comma (h : ReadFrom allowed offset text ts) {text' : List Char} {ts' : List Token}
    (h' : ReadFrom allowed (offset + byteLength text + 1) text' ts') :
    ReadFrom allowed offset (text ++ ',' :: text')
      (ts ++ ⟨.comma, offset + byteLength text⟩ :: ts') where
  written us rest hr := by
    have hlen : offset + byteLength (text ++ ',' :: text') =
        offset + byteLength text + 1 + byteLength text' := by
      rw [byteLength_append, byteLength_cons, show ','.utf8Size = 1 from rfl]
      omega
    rw [hlen] at hr
    rw [List.append_assoc, List.append_assoc]
    exact h.written _ _ (.mark .comma true (h'.written us rest hr))
  accepted us ha := by
    rw [List.append_assoc]
    exact h.accepted _ ⟨rfl, h'.accepted us ha⟩

theorem brackets (h : ReadFrom allowed (offset + 1) text ts) :
    ReadFrom allowed offset ('[' :: text ++ [']'])
      (⟨.opening .bracket, offset⟩ :: ts ++
        [⟨.closing .bracket, offset + 1 + byteLength text⟩]) where
  written us rest hr := by
    have hlen : offset + byteLength ('[' :: text ++ [']']) =
        offset + 1 + byteLength text + 1 := by
      rw [byteLength_append, byteLength_cons, show '['.utf8Size = 1 from rfl,
        show byteLength [']'] = 1 from rfl]
      omega
    rw [hlen] at hr
    rw [List.append_assoc, List.append_assoc]
    exact .mark .leftBracket false (h.written _ _ (.mark .rightBracket true hr))
  accepted us ha := by
    rw [List.append_assoc]
    exact ⟨rfl, h.accepted _ ⟨rfl, ha⟩⟩

theorem tokenize {source : String} (h : ReadFrom allowed 0 source.toList ts) :
    tokenize source allowed = .ok ts := by
  have hw := h.written [] [] (.nil _ (List.forall_mem_nil _))
  have ha := h.accepted [] rfl
  rw [List.append_nil, List.append_nil] at hw
  rw [List.append_nil] at ha
  rw [← String.ofList_toList (s := source)]
  exact hw.tokenize ha

end ReadFrom

end Token

theorem evaluate_of_readFrom {source : String} {env : Environment} {e : Expr} {v : Value}
    (hs : e.Stratified) (hv : (e.evaluate env).result = .ok v)
    (hr : Token.ReadFrom env.identifiers 0 source.toList e.tokens) :
    evaluate source env = .ok v := by
  rw [← traceTokens_actions hs env, Traced.actions_result] at hv
  rw [evaluate, hr.tokenize]
  dsimp only
  rw [hv]
  rfl

theorem floatText_readFrom (allowed : List String) {x : Float} (hx : x.isFinite = true)
    (offset : Nat) :
    ∃ e : Expr, e.Stratified ∧ (∀ env, (e.evaluate env).result = .ok (.scalar x)) ∧
      Token.ReadFrom allowed offset (floatText x).toList e.tokens := by
  obtain ⟨n, hn, hw, ht, hv⟩ := floatText_numeral hx
  rw [ht]
  by_cases hneg : isNegative x = true
  · rw [if_pos hneg] at hv
    rw [if_pos hneg, ← hv]
    have hs : (Operator.sign .minus).precedence ≤
        (Expr.number n.value (offset + 1)).precedence := by
      simp [Operator.precedence, Expr.precedence]
    exact ⟨.sign .minus offset (.number n.value (offset + 1)), ⟨hs, trivial⟩, fun _ => rfl,
      .minus (.numeral hn hw)⟩
  · rw [if_neg hneg] at hv
    rw [if_neg hneg, ← hv]
    exact ⟨.number n.value offset, trivial, fun _ => rfl, .numeral hn hw⟩

theorem elements_readFrom (allowed : List String) {xs : List Float} (hne : xs ≠ [])
    (hf : ∀ x ∈ xs, x.isFinite = true) (offset : Nat) :
    ∃ items : Items, items.Stratified ∧
      (∀ env, (items.evaluate env).result = .ok (xs.map .scalar)) ∧
      Token.ReadFrom allowed offset (", ".intercalate (xs.map floatText)).toList
        items.tokens := by
  induction xs generalizing offset with
  | nil => exact absurd rfl hne
  | cons x xs ih =>
    obtain ⟨hx, hf⟩ := List.forall_mem_cons.mp hf
    obtain ⟨e, hs, hv, hr⟩ := floatText_readFrom allowed hx offset
    cases xs with
    | nil =>
      refine ⟨.one e, hs, ?_, ?_⟩
      · intro env
        rw [Items.evaluate, Traced.bind_result, hv env]
        rfl
      · rw [List.map_cons, List.map_nil, String.intercalate_singleton]
        exact hr
    | cons y ys =>
      obtain ⟨items, hs', hv', hr'⟩ := ih (List.cons_ne_nil y ys) hf
        (offset + byteLength (floatText x).toList + 1 + ' '.utf8Size)
      refine ⟨.more e (offset + byteLength (floatText x).toList) items, ⟨hs, hs'⟩, ?_, ?_⟩
      · intro env
        rw [Items.evaluate, Traced.bind_result, hv env]
        dsimp only [Except.bind]
        rw [Traced.bind_result, hv' env]
        rfl
      · rw [List.map_cons, List.map_cons, String.intercalate_cons_cons, String.toList_append,
          String.toList_append, ← List.map_cons, List.append_assoc]
        exact hr.comma (.blank (by decide) hr')

theorem toList_text_vector (xs : List Float) :
    (Value.vector xs).text.toList =
      '[' :: (", ".intercalate (xs.map floatText)).toList ++ [']'] := by
  rw [Value.text, String.toList_append, String.toList_append]
  rfl

/-- The text of a value is evaluated to the value, in every environment: the signs of the numbers
and of zero are kept, and so are all their bits. -/
theorem evaluate_text (env : Environment) (v : Value) (hne : v.elements ≠ [])
    (hf : ∀ x ∈ v.elements, x.isFinite = true) : evaluate v.text env = .ok v := by
  cases v with
  | scalar x =>
    obtain ⟨e, hs, hv, hr⟩ :=
      floatText_readFrom env.identifiers (hf x (List.mem_singleton_self x)) 0
    exact evaluate_of_readFrom hs (hv env) hr
  | vector xs =>
    change xs ≠ [] at hne
    change ∀ x ∈ xs, x.isFinite = true at hf
    obtain ⟨items, hs, hv, hr⟩ := elements_readFrom env.identifiers hne hf (0 + 1)
    have hb := hr.brackets
    rw [← toList_text_vector] at hb
    refine evaluate_of_readFrom (e := .vector 0 items _) hs ?_ hb
    rw [Expr.evaluate, Traced.bind_result, hv env]
    exact congrArg Traced.result (flatVector_scalars 0 xs)

theorem evaluate_text_vector :
    let v : Value := .vector [-0.0, 1.5, -3, 1e-7]
    v.elements ≠ [] ∧ (∀ x ∈ v.elements, x.isFinite = true) ∧ evaluate v.text .empty = .ok v := by
  intro v
  have hne : v.elements ≠ [] := by decide
  have hf : ∀ x ∈ v.elements, x.isFinite = true := by decide +kernel
  exact ⟨hne, hf, evaluate_text .empty v hne hf⟩

end Formula
