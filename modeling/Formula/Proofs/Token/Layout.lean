import Formula.Proofs.Token.Adjacency
import Formula.Proofs.Token.Scanning

/-!
# Layouts

A source is written from tokens with blanks between them, each token in one of its
spellings. Tokens that may stand side by side need no blanks: the scan that takes the
longest piece finds every one of them again.
-/

namespace Formula

open Text

/-- The text, which begins at a byte offset, is written from the tokens. -/
inductive Token.Written (allowed : List String) : Nat → List Token → List Char → Prop
  | nil (offset : Nat) {blank : List Char} : (∀ c ∈ blank, isBlank c = true) →
      Token.Written allowed offset [] blank
  | cons (offset : Nat) {blank text rest : List Char} {k : Token.Kind} {ts : List Token} :
      (∀ c ∈ blank, isBlank c = true) → text ∈ k.spellings allowed →
      Token.Written allowed (offset + byteLength (blank ++ text)) ts rest →
      Token.Written allowed offset (⟨k, offset + byteLength blank⟩ :: ts) (blank ++ text ++ rest)

variable {allowed : List String}

namespace Token.Written

theorem blank_cons {c : Char} (hc : isBlank c = true) {offset : Nat} {ts : List Token}
    {cs : List Char} (h : Written allowed (offset + c.utf8Size) ts cs) :
    Written allowed offset ts (c :: cs) := by
  cases h with
  | nil _ hb => exact .nil offset (List.forall_mem_cons.mpr ⟨hc, hb⟩)
  | @cons _ blank text rest k ts hb ht h =>
    have ho : offset + byteLength (c :: blank) = offset + c.utf8Size + byteLength blank := by
      rw [byteLength_cons]
      omega
    rw [← ho, ← List.cons_append, ← List.cons_append]
    refine .cons offset (List.forall_mem_cons.mpr ⟨hc, hb⟩) ht ?_
    rw [byteLength_append, ← Nat.add_assoc] at h ⊢
    rwa [ho]

end Token.Written

theorem ofLexemes_written {x : Expected} {offset : Nat} {cs : List Char} {ts : List Token}
    (h : Token.ofLexemes allowed x (Lexeme.split offset cs) = .ok ts) :
    Token.Written allowed offset ts cs := by
  induction offset, cs using Lexeme.split.induct generalizing x ts with
  | case1 offset =>
    rw [Lexeme.split] at h
    cases h
    exact .nil offset (List.forall_mem_nil _)
  | case2 offset c cs hc ih =>
    rw [Lexeme.split, if_pos hc] at h
    exact (ih h).blank_cons hc
  | case3 offset c cs hc ih =>
    rw [Lexeme.split, if_neg hc] at h
    obtain ⟨k, rest, hk, hr, rfl⟩ := Token.ofLexemes_cons.mp h
    have ht := scan_spelling (Token.Kind.ofNext_eq_ok.mp hk).1
    have hw := Token.Written.cons offset (List.forall_mem_nil _) ht (ih hr)
    rwa [List.nil_append, Lexeme.scan_text] at hw

theorem split_blanks {blank : List Char} (hb : ∀ c ∈ blank, isBlank c = true) (offset : Nat)
    (cs : List Char) :
    Lexeme.split offset (blank ++ cs) = Lexeme.split (offset + byteLength blank) cs := by
  induction blank generalizing offset with
  | nil => rfl
  | cons c blank ih =>
    obtain ⟨hc, hb⟩ := List.forall_mem_cons.mp hb
    rw [List.cons_append, Lexeme.split, if_pos hc, ih hb, byteLength_cons, Nat.add_assoc]

theorem Token.Written.head {offset : Nat} {ts : List Token} {cs : List Char}
    (h : Written allowed offset ts cs) {c : Char} (hc : c ∈ cs.head?) : isBlank c = true ∨
      ∃ t ∈ ts.head?, ∃ ds, c :: ds ∈ t.kind.spellings allowed := by
  cases h with
  | nil _ hb => exact .inl (hb c (List.mem_of_mem_head? hc))
  | @cons _ blank text rest k ts hb ht h =>
    cases blank with
    | cons d blank =>
      cases hc
      exact .inl (hb c List.mem_cons_self)
    | nil =>
      cases text with
      | nil => exact absurd ht (nil_not_spelling k)
      | cons d text =>
        cases hc
        exact .inr ⟨_, rfl, text, ht⟩

theorem Token.Written.endsBefore {offset : Nat} {ts : List Token} {rest : List Char}
    (h : Written allowed offset ts rest) {x : Expected} {k : Kind}
    (ha : (x.next k).Accepts ts) : k.EndsBefore rest := by
  intro c hc
  rcases h.head hc with hb | ⟨t, ht, ds, hd⟩
  · obtain ⟨hp, hn, hs⟩ := blank_ends hb
    cases k with
    | number v => exact hp
    | identifier n => exact hn
    | binary b =>
      cases b with
      | mul => exact hs
      | _ => trivial
    | _ => trivial
  · have hadm : (x.next k).admits t.kind = true := by
      cases ts with
      | nil => cases ht
      | cons u ts =>
        cases ht
        exact ha.1
    cases k with
    | number v => exact (follows_head (Expected.admits_call hadm) hd).1
    | identifier n => exact (follows_head hadm hd).2
    | binary b =>
      cases b with
      | mul => exact begins_head hadm hd
      | _ => trivial
    | _ => trivial

theorem Token.Written.ofLexemes {offset : Nat} {ts : List Token} {cs : List Char}
    (h : Written allowed offset ts cs) {x : Expected} (ha : x.Accepts ts) :
    Token.ofLexemes allowed x (Lexeme.split offset cs) = .ok ts := by
  induction h generalizing x with
  | nil offset hb =>
    have hs := split_blanks hb offset []
    rw [List.append_nil, Lexeme.split] at hs
    rw [hs]
    rfl
  | @cons offset blank text rest k ts hb ht h ih =>
    obtain ⟨hk, hr⟩ := ha
    -- what is written behind does not prolong the token, since it may follow it
    obtain ⟨c, cs, l, rfl, hscan, hl, hof⟩ := scan_of_spelling hk ht (h.endsBefore hr)
    have hc : ¬isBlank c = true := by
      rw [spelling_not_blank ht c List.mem_cons_self]
      exact Bool.false_ne_true
    rw [List.append_assoc, split_blanks hb, List.cons_append, Lexeme.split, if_neg hc, hscan, hl,
      Nat.add_assoc, ← byteLength_append]
    refine Token.ofLexemes_cons.mpr ⟨k, ts, ?_, ih hr, rfl⟩
    exact Token.Kind.ofNext_eq_ok.mpr ⟨hof, hk⟩

theorem Token.Written.tokenize {ts : List Token} {cs : List Char} (h : Written allowed 0 ts cs)
    (ha : Expected.operand.Accepts ts) : tokenize (String.ofList cs) allowed = .ok ts := by
  rw [tokenize_eq_ok, String.toList_ofList]
  exact ⟨h.ofLexemes ha, ha.complete⟩

theorem filter_blank {blank : List Char} (hb : ∀ c ∈ blank, isBlank c = true) :
    (blank.filter fun c => !isBlank c) = [] := by
  rw [List.filter_eq_nil_iff]
  intro c hc
  rw [hb c hc]
  exact Bool.false_ne_true

theorem filter_spelling {k : Token.Kind} {t : List Char} (ht : t ∈ k.spellings allowed) :
    (t.filter fun c => !isBlank c) = t := by
  rw [List.filter_eq_self]
  intro c hc
  rw [spelling_not_blank ht c hc]
  rfl

theorem Token.Written.compact {offset : Nat} {ts : List Token} {cs : List Char}
    (h : Written allowed offset ts cs) (start : Nat) :
    ∃ us, us.map Token.kind = ts.map Token.kind ∧
      Written allowed start us (cs.filter fun c => !isBlank c) := by
  induction h generalizing start with
  | nil offset hb =>
    rw [filter_blank hb]
    exact ⟨[], rfl, .nil start (List.forall_mem_nil _)⟩
  | @cons offset blank text rest k ts hb ht h ih =>
    obtain ⟨us, hus, hw⟩ := ih (start + byteLength ([] ++ text))
    refine ⟨⟨k, start + byteLength []⟩ :: us, congrArg (k :: ·) hus, ?_⟩
    rw [List.filter_append, List.filter_append, filter_blank hb, filter_spelling ht]
    exact .cons start (List.forall_mem_nil _) ht hw

/-- The tokens of a source are those that it is written from, if they may stand side by side and the
last one completes an operand. Then the source has the same tokens without its blanks. -/
theorem tokenize_eq_ok_iff_written (source : String) (allowed : List String) (ts : List Token) :
    (tokenize source allowed = .ok ts ↔
      Token.Written allowed 0 ts source.toList ∧ Token.WellFormed ts) ∧
    (tokenize source allowed = .ok ts →
      ∃ us, us.map Token.kind = ts.map Token.kind ∧
        tokenize (String.ofList (source.toList.filter fun c => !isBlank c)) allowed = .ok us) := by
  have written {cs : List Char} {us : List Token} (hw : Token.Written allowed 0 us cs)
      (ha : Expected.operand.Accepts us) : tokenize (String.ofList cs) allowed = .ok us := by
    rw [tokenize_eq_ok, String.toList_ofList]
    exact ⟨hw.ofLexemes ha, ha.complete⟩
  have found (h : tokenize source allowed = .ok ts) : Token.Written allowed 0 ts source.toList :=
    ofLexemes_written (tokenize_eq_ok.mp h).1
  refine ⟨⟨?_, ?_⟩, ?_⟩
  · intro h
    exact ⟨found h, (Expected.accepts_iff ts).mp (tokenize_accepts h)⟩
  · intro h
    have ht := written h.1 ((Expected.accepts_iff ts).mpr h.2)
    rwa [String.ofList_toList] at ht
  · intro h
    obtain ⟨us, hus, hw⟩ := (found h).compact 0
    exact ⟨us, hus, written hw (Expected.accepts_of_kinds hus (tokenize_accepts h))⟩

theorem tokenize_written_power :
    let ts : List Token := [⟨.number 2, 1⟩, ⟨.binary .sub, 3⟩, ⟨.number 0.5, 4⟩, ⟨.binary .pow, 6⟩,
      ⟨.identifier "x", 9⟩]
    Token.Written ["x"] 0 ts " 2 -.5** x".toList ∧ Token.WellFormed ts ∧
      ∃ us, us.map Token.kind = ts.map Token.kind ∧
        tokenize (String.ofList (" 2 -.5** x".toList.filter fun c => !isBlank c)) ["x"] =
          .ok us := by
  intro ts
  have h : tokenize " 2 -.5** x" ["x"] = .ok ts := by decide +kernel
  obtain ⟨hw, hf⟩ := (tokenize_eq_ok_iff_written " 2 -.5** x" ["x"] ts).1.mp h
  exact ⟨hw, hf, (tokenize_eq_ok_iff_written " 2 -.5** x" ["x"] ts).2 h⟩

end Formula
