import Formula.CommandLine.Settings
import Formula.Proofs.Display

/-!
# Names and bindings

A text is a name if it is read as one token, the identifier that it spells. A binding of the
command line is a name, blanks around it, and a source behind the first equals sign; what it
binds can be used in every environment, since a variable hides any function of its name.
-/

namespace Formula

open Text

namespace Text

def TrimsTo (cs text : List Char) : Prop :=
  ∃ front back, cs = front ++ text ++ back ∧
    (∀ c ∈ front, isBlank c = true) ∧ (∀ c ∈ back, isBlank c = true) ∧
    (∀ c ∈ text.head?, isBlank c = false) ∧ ∀ c ∈ text.getLast?, isBlank c = false

theorem exists_blank_front (cs : List Char) :
    ∃ blank, cs = blank ++ cs.dropWhile isBlank ∧ (∀ c ∈ blank, isBlank c = true) ∧
      ∀ c ∈ (cs.dropWhile isBlank).head?, isBlank c = false := by
  refine ⟨cs.takeWhile isBlank, List.takeWhile_append_dropWhile.symm, ?_, ?_⟩
  · exact fun c hc => List.all_eq_true.mp List.all_takeWhile c hc
  · intro c hc
    have h := List.head?_dropWhile_not isBlank cs
    rwa [Option.mem_def.mp hc] at h

theorem trimsTo_trim (cs : List Char) : TrimsTo cs (trim cs) := by
  obtain ⟨front, hcs, hfront, hhead⟩ := exists_blank_front cs
  obtain ⟨back, hrest, hback, hlast⟩ := exists_blank_front (cs.dropWhile isBlank).reverse
  have he : cs.dropWhile isBlank = trim cs ++ back.reverse := by
    rw [← List.reverse_reverse (cs.dropWhile isBlank), hrest, List.reverse_append]
    rfl
  refine ⟨front, back.reverse, ?_, hfront, ?_, ?_, ?_⟩
  · rw [List.append_assoc, ← he]
    exact hcs
  · exact fun c hc => hback c (List.mem_reverse.mp hc)
  · -- a first character of what is left is the first one behind the blanks in front
    intro c hc
    refine hhead c ?_
    rw [he, List.head?_append, Option.mem_def.mp hc]
    rfl
  · intro c hc
    rw [trim, List.getLast?_reverse] at hc
    exact hlast c hc

theorem TrimsTo.trim_eq {cs text : List Char} (h : TrimsTo cs text) : trim cs = text := by
  obtain ⟨front, back, rfl, hfront, hback, hhead, hlast⟩ := h
  cases text with
  | nil =>
    have hall : ∀ c ∈ front ++ [] ++ back, isBlank c = true := by
      intro c hc
      rw [List.append_nil] at hc
      exact (List.mem_append.mp hc).elim (hfront c) (hback c)
    rw [trim, List.dropWhile_eq_nil_iff.mpr hall]
    rfl
  | cons d ds =>
    have hrest : ∀ c ∈ (d :: ds ++ back).head?, isBlank c = false := hhead
    have hrev : ∀ c ∈ (d :: ds).reverse.head?, isBlank c = false := by
      rwa [List.head?_reverse]
    have hback' : ∀ c ∈ back.reverse, isBlank c = true :=
      fun c hc => hback c (List.mem_reverse.mp hc)
    rw [trim, List.append_assoc, (span_append hfront hrest).2, List.reverse_append,
      (span_append hback' hrev).2, List.reverse_reverse]

theorem trim_eq_iff {cs text : List Char} : trim cs = text ↔ TrimsTo cs text :=
  ⟨fun h => h ▸ trimsTo_trim cs, TrimsTo.trim_eq⟩

theorem span_equals_iff {cs before rest : List Char} :
    cs.span (· ≠ '=') = (before, '=' :: rest) ↔
      cs = before ++ '=' :: rest ∧ '=' ∉ before := by
  rw [List.span_eq_takeWhile_dropWhile, Prod.mk.injEq]
  constructor
  · rintro ⟨rfl, hdrop⟩
    refine ⟨?_, ?_⟩
    · rw [← hdrop, List.takeWhile_append_dropWhile]
    · intro hmem
      have := List.all_eq_true.mp List.all_takeWhile '=' hmem
      simp at this
  · rintro ⟨rfl, hbefore⟩
    refine span_append ?_ ?_
    · intro c hc
      exact decide_eq_true fun he => hbefore (he ▸ hc)
    · intro c hc
      cases hc
      rfl

theorem span_equals_head {cs before rest : List Char} {c : Char}
    (h : cs.span (· ≠ '=') = (before, c :: rest)) : c = '=' := by
  rw [List.span_eq_takeWhile_dropWhile, Prod.mk.injEq] at h
  have hhead := List.head?_dropWhile_not (fun c => decide (c ≠ '=')) cs
  rw [h.2] at hhead
  simpa using hhead

end Text

theorem isIdentifier_iff {s : String} : isIdentifier s = true ↔ s.toList ∈ nameText := by
  rw [isIdentifier, mem_nameText]
  cases s.toList with
  | nil => simp
  | cons c cs => simp [List.all_eq_true]

theorem Expected.Accepts.behind_name {ts : List Token} (h : operator.Accepts ts) :
    operatorOrCall.Accepts ts := by
  cases ts with
  | nil => rfl
  | cons t ts =>
    obtain ⟨ht, hts⟩ := h
    refine ⟨admits_call ht, ?_⟩
    obtain ⟨k, o⟩ := t
    cases k with
    | opening d => cases ht
    | _ => exact hts

theorem Token.Written.exists_spelling {allowed : List String} {offset : Nat} {t : Token}
    {ts : List Token} {cs : List Char} (h : Written allowed offset (t :: ts) cs) :
    ∃ text, text ∈ t.kind.spellings allowed := by
  cases h with
  | cons _ _ ht _ => exact ⟨_, ht⟩

theorem Token.ReadFrom.name {allowed : List String} {n : String} (hn : isIdentifier n = true)
    (ha : n ∈ allowed) (offset : Nat) :
    ReadFrom allowed offset n.toList [⟨.identifier n, offset⟩] where
  written _ _ h := .cons offset (List.forall_mem_nil _) ⟨isIdentifier_iff.mp hn, rfl, ha⟩ h
  accepted _ h := ⟨rfl, h.behind_name⟩

theorem tokenize_name_iff {s : String} {allowed : List String} (ha : s ∈ allowed) :
    isIdentifier s = true ↔ tokenize s allowed = .ok [⟨.identifier s, 0⟩] := by
  constructor
  · intro h
    exact (Token.ReadFrom.name h ha 0).tokenize
  · intro h
    obtain ⟨text, hname, he, _⟩ := (ofLexemes_written (tokenize_eq_ok.mp h).1).exists_spelling
    exact isIdentifier_iff.mpr (he ▸ hname)

theorem evaluate_name {env : Environment} {n : String} {v : Value} (hn : isIdentifier n = true)
    (hv : env.valueOf? n = some v) : evaluate n env = .ok v := by
  have ha : n ∈ env.identifiers :=
    (env.mem_identifiers_iff n).mpr (.inl (by rw [hv]; rfl))
  refine evaluate_of_readFrom (e := .name n 0) trivial ?_ (.name hn ha 0)
  rw [Expr.evaluate, Environment.valueAt, hv]
  rfl

namespace CommandLine

theorem parseBinding_eq_ok {b n : String} {v : Value} :
    parseBinding b = .ok (n, v) ↔ ∃ before source, b.toList = before ++ '=' :: source ∧
      '=' ∉ before ∧ TrimsTo before n.toList ∧ isIdentifier n = true ∧
      evaluate (String.ofList source) Environment.empty.withBuiltins = .ok v := by
  constructor
  · intro h
    unfold parseBinding at h
    split at h
    · cases h
    · rename_i before c source hspan
      obtain rfl := span_equals_head hspan
      obtain ⟨hb, hbefore⟩ := span_equals_iff.mp hspan
      dsimp only at h
      split at h
      · rename_i hname
        split at h
        · rename_i w hw
          cases h
          refine ⟨before, source, hb, hbefore, ?_, hname, hw⟩
          rw [String.toList_ofList]
          exact trim_eq_iff.mp rfl
        · cases h
      · cases h
  · rintro ⟨before, source, hb, hbefore, htrim, hname, hv⟩
    have hn : String.ofList (trim before) = n := by
      rw [trim_eq_iff.mpr htrim, String.ofList_toList]
    unfold parseBinding
    rw [span_equals_iff.mpr ⟨hb, hbefore⟩]
    dsimp only
    rw [hn, if_pos hname, hv]

/-- A text is a name exactly if it is read as the identifier that it spells. Before the first equals
sign of a binding stands a name with blanks around it, and behind that sign a source that has its
value with the builtin functions. In every environment that it is added to, also in one with a
function of its name, the name has this value. -/
theorem parseBinding_usable :
    (∀ s, isIdentifier s = true ↔ tokenize s [s] = .ok [⟨.identifier s, 0⟩]) ∧
    ∀ b n v,
      (parseBinding b = .ok (n, v) ↔ ∃ before source, b.toList = before ++ '=' :: source ∧
        '=' ∉ before ∧ TrimsTo before n.toList ∧ isIdentifier n = true ∧
        evaluate (String.ofList source) Environment.empty.withBuiltins = .ok v) ∧
      (parseBinding b = .ok (n, v) →
        ∀ env : Environment, evaluate n (env.withVariable n v) = .ok v) := by
  refine ⟨fun s => tokenize_name_iff List.mem_cons_self, fun b n v => ⟨parseBinding_eq_ok, ?_⟩⟩
  intro h env
  obtain ⟨_, _, _, _, _, hname, _⟩ := parseBinding_eq_ok.mp h
  refine evaluate_name hname ?_
  exact (Bindings.find?_insert env.values n n v).trans (if_pos rfl)

theorem parseBinding_usable_builtin :
    parseBinding " abs\u3000=1=1" = .ok ("abs", .scalar 1) ∧
      evaluate "abs" (Environment.empty.withBuiltins.withVariable "abs" (.scalar 1)) =
        .ok (.scalar 1) := by
  have h : parseBinding " abs\u3000=1=1" = .ok ("abs", .scalar 1) := by decide +kernel
  exact ⟨h, (parseBinding_usable.2 _ _ _).2 h _⟩

end CommandLine

end Formula
