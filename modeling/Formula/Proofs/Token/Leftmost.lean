import Formula.Proofs.Token.Munch

/-!
# The leftmost problem

A source is split by maximal munch, and its pieces are read from left to right. The
first piece that is no token behind those before it is reported, with what is wrong
with it, and nothing behind it matters. The text in front of it can always be
completed to a source that is accepted.
-/

namespace Formula

open Text

variable {allowed : List String}

/-- A sign is one between operands if the token before it completes one. Tokens are given from the
last one backwards. -/
def Token.Kind.Classified (before : List Kind) (k : Kind) : Prop :=
  match k with
  | .sign _ => ∀ last ∈ before.head?, last.Unfinished
  | .binary .add | .binary .sub => ∃ last ∈ before.head?, ¬last.Unfinished
  | _ => True

inductive Token.Read (allowed : List String) : List Kind → List Piece → List Token → Prop
  | nil (before : List Kind) : Read allowed before [] []
  | cons {before : List Kind} {p : Piece} {ps : List Piece} {k : Kind} {ts : List Token} :
      p.text ∈ k.spellings allowed → k.MayFollow before → Read allowed (k :: before) ps ts →
      Read allowed before (p :: ps) (⟨k, p.offset⟩ :: ts)

/-- What is wrong with a piece behind some tokens. Only a piece that spells a token can be one that
may not follow, so the other faults come first. -/
inductive Token.AtFault (allowed : List String) (before : List Kind) (text : List Char) :
    ParseFault → Prop
  | character {c : Char} : text = [c] → BeginsNone c →
      AtFault allowed before text (.unexpectedCharacter c)
  | number : text ∈ malformedText →
      AtFault allowed before text (.malformedNumber (String.ofList text))
  | name : text ∈ nameText → String.ofList text ∉ allowed →
      AtFault allowed before text (.unknownIdentifier (String.ofList text))
  | token {k : Kind} : text ∈ k.spellings allowed → k.Classified before → ¬k.MayFollow before →
      AtFault allowed before text (.unexpectedToken k)

def Token.FirstFault (allowed : List String) (ps : List Piece) (p : Piece) (fault : ParseFault) :
    Prop :=
  ∃ front ts back, ps = front ++ p :: back ∧ Read allowed [] front ts ∧
    AtFault allowed (ts.map Token.kind).reverse p.text fault

namespace Expected

theorem afterOperand_behind (before : List Token.Kind) :
    (behind before).afterOperand = before.head?.elim false Token.Kind.endsOperand := by
  cases before with
  | nil => rfl
  | cons k before => rw [← next_behind, afterOperand_next, List.head?_cons, Option.elim_some]

theorem afterAll_behind (before : List Token.Kind) (ts : List Token) :
    (behind before).afterAll ts = behind ((ts.map Token.kind).reverse ++ before) := by
  induction ts generalizing before with
  | nil => rfl
  | cons t ts ih =>
    rw [List.map_cons, List.reverse_cons, List.append_assoc, List.singleton_append, ← ih,
      ← next_behind]
    rfl

end Expected

namespace Token

namespace Kind

variable {before : List Kind} {l : Lexeme}

theorem forall_unfinished_iff :
    (∀ last ∈ before.head?, last.Unfinished) ↔ before.head?.elim false endsOperand = false := by
  cases before <;> simp [unfinished_iff]

theorem exists_finished_iff :
    (∃ last ∈ before.head?, ¬last.Unfinished) ↔ before.head?.elim false endsOperand = true := by
  cases before <;> simp [not_unfinished_iff]

theorem classified_of_mayFollow {k : Kind} (h : k.MayFollow before) : k.Classified before := by
  have ha := (Expected.admits_behind_iff before k).mpr h
  cases k with
  | sign s =>
    exact forall_unfinished_iff.mpr
      ((Expected.afterOperand_behind before).symm.trans (Expected.admits_sign ha))
  | binary b =>
    have hb := exists_finished_iff.mpr
      ((Expected.afterOperand_behind before).symm.trans (Expected.admits_binary ha))
    cases b <;> first | exact hb | trivial
  | _ => trivial

theorem classified_of_ofLexeme {k : Kind}
    (h : ofLexeme allowed (Expected.behind before).afterOperand l = .ok k) :
    k.Classified before := by
  rw [Expected.afterOperand_behind] at h
  cases l with
  | numeral n =>
    simp only [ofLexeme] at h
    split at h <;> cases h
    trivial
  | name cs =>
    simp only [ofLexeme] at h
    split at h <;> cases h
    trivial
  | mark m =>
    cases hb : before.head?.elim false endsOperand with
    | false =>
      rw [hb] at h
      cases h
      cases m <;> first | exact forall_unfinished_iff.mpr hb | trivial
    | true =>
      rw [hb] at h
      cases h
      cases m <;> first | exact exists_finished_iff.mpr hb | trivial
  | stray c => cases h

theorem spelling_of_ofLexeme (hl : l.Proper) {after : Bool} {k : Kind}
    (h : ofLexeme allowed after l = .ok k) : l.text ∈ k.spellings allowed := by
  obtain ⟨c, cs, -, hs⟩ := hl.scan_self
  have hscan : (Lexeme.scan c cs).1 = l := congrArg Prod.fst hs
  rw [← hscan] at h ⊢
  exact scan_spelling h

theorem ofLexeme_of_spelling (hl : l.Proper) {k : Kind} (ht : l.text ∈ k.spellings allowed)
    (hc : k.Classified before) :
    ofLexeme allowed (Expected.behind before).afterOperand l = .ok k := by
  rcases spelling_cases ht with ⟨n, hn, hw, he, rfl⟩ | ⟨hname, ha, rfl⟩ | ⟨m, after, he, rfl⟩
  · obtain ⟨c, cs, hne, -⟩ := Numeral.text_head hn hw
    have hp : (Lexeme.numeral n).Proper := ⟨hn, hne ▸ List.cons_ne_nil c cs⟩
    obtain rfl := hl.eq_of_text hp he.symm
    exact if_pos hw
  · have hp : (Lexeme.name l.text).Proper := hname
    rw [hl.eq_of_text hp rfl]
    exact if_pos ha
  · obtain rfl := hl.eq_of_text (m := .mark m) trivial he.symm
    rw [Expected.afterOperand_behind, ofLexeme]
    cases m with
    | plus =>
      cases after with
      | false => rw [forall_unfinished_iff.mp hc]
      | true => rw [exists_finished_iff.mp hc]
    | minus =>
      cases after with
      | false => rw [forall_unfinished_iff.mp hc]
      | true => rw [exists_finished_iff.mp hc]
    | _ => rfl

theorem ofNext_eq_ok_iff_spelling (hl : l.Proper) {k : Kind} :
    ofNext allowed (Expected.behind before) l = .ok k ↔
      l.text ∈ k.spellings allowed ∧ k.MayFollow before := by
  rw [ofNext_eq_ok, Expected.admits_behind_iff]
  constructor
  · intro h
    exact ⟨spelling_of_ofLexeme hl h.1, h.2⟩
  · intro h
    exact ⟨ofLexeme_of_spelling hl h.1 (classified_of_mayFollow h.2), h.2⟩

theorem atFault_of_ofLexeme (hl : l.Proper) {after : Bool} {fault : ParseFault}
    (h : ofLexeme allowed after l = .error fault) : AtFault allowed before l.text fault := by
  cases l with
  | numeral n =>
    simp only [ofLexeme] at h
    split at h <;> cases h
    rename_i hw
    exact .number (mem_malformedText.mpr ⟨n, hl.1, Bool.eq_false_iff.mpr hw, hl.2, rfl⟩)
  | name cs =>
    simp only [ofLexeme] at h
    split at h <;> cases h
    rename_i ha
    exact .name hl ha
  | mark m => cases h
  | stray c =>
    cases h
    exact .character rfl hl

theorem ofNext_eq_error_iff (hl : l.Proper) {fault : ParseFault} :
    ofNext allowed (Expected.behind before) l = .error fault ↔
      AtFault allowed before l.text fault := by
  constructor
  · intro h
    rcases ofNext_error h with hf | ⟨k, hk, rfl⟩
    · exact atFault_of_ofLexeme hl hf
    · have hs := spelling_of_ofLexeme hl hk
      refine .token hs (classified_of_ofLexeme hk) fun hm => ?_
      rw [(ofNext_eq_ok_iff_spelling hl).mpr ⟨hs, hm⟩] at h
      cases h
  · intro h
    generalize ht : l.text = text at h
    cases h with
    | @character c hc hb =>
      obtain rfl := hl.eq_of_text (m := .stray c) hb (ht.trans hc)
      rfl
    | number hm =>
      obtain ⟨n, hn, hw, hne, rfl⟩ := mem_malformedText.mp hm
      obtain rfl := hl.eq_of_text (m := .numeral n) ⟨hn, hne⟩ ht
      rw [ofNext, ofLexeme, if_neg (Bool.eq_false_iff.mp hw)]
    | name hn ha =>
      obtain rfl := hl.eq_of_text (m := .name text) hn ht
      rw [ofNext, ofLexeme, if_neg ha]
    | @token k hs hc hm =>
      have hadmits : ¬(Expected.behind before).admits k = true := fun ha =>
        hm ((Expected.admits_behind_iff before k).mp ha)
      rw [ofNext, ofLexeme_of_spelling hl (ht ▸ hs) hc]
      exact if_neg hadmits

end Kind

theorem ofLexemes_eq_ok_iff_read (before : List Kind) {ls : List PlacedLexeme}
    (hls : ∀ l ∈ ls, l.lexeme.Proper) {ts : List Token} :
    ofLexemes allowed (Expected.behind before) ls = .ok ts ↔
      Read allowed before (ls.map PlacedLexeme.piece) ts := by
  induction ls generalizing before ts with
  | nil =>
    constructor
    · intro h
      cases h
      exact .nil before
    · intro h
      cases h
      rfl
  | cons l ls ih =>
    obtain ⟨hl, hls⟩ := List.forall_mem_cons.mp hls
    rw [ofLexemes_cons, List.map_cons]
    constructor
    · intro h
      obtain ⟨k, rest, hk, hr, rfl⟩ := h
      obtain ⟨hs, hm⟩ := (Kind.ofNext_eq_ok_iff_spelling hl).mp hk
      rw [Expected.next_behind] at hr
      exact .cons (p := l.piece) hs hm ((ih _ hls).mp hr)
    · intro h
      cases h with
      | @cons _ _ _ k ts hs hm hr =>
        refine ⟨k, ts, (Kind.ofNext_eq_ok_iff_spelling hl).mpr ⟨hs, hm⟩, ?_, rfl⟩
        rw [Expected.next_behind]
        exact (ih _ hls).mpr hr

theorem ofLexemes_eq_error {x : Expected} {front back : List PlacedLexeme} {l : PlacedLexeme}
    {ts : List Token} {fault : ParseFault} (h : ofLexemes allowed x front = .ok ts)
    (hl : Kind.ofNext allowed (x.afterAll ts) l.lexeme = .error fault) :
    ofLexemes allowed x (front ++ l :: back) = .error ⟨fault, l.offset⟩ := by
  induction front generalizing x ts with
  | nil =>
    cases h
    rw [List.nil_append, ofLexemes, show Kind.ofNext allowed x l.lexeme = .error fault from hl]
  | cons f front ih =>
    obtain ⟨k, rest, hk, hr, rfl⟩ := ofLexemes_cons.mp h
    rw [List.cons_append, ofLexemes, hk]
    dsimp only
    rw [ih hr hl]
    rfl

end Token

theorem split_proper {start : Nat} {cs : List Char} {p : PlacedLexeme}
    (h : p ∈ Lexeme.split start cs) : p.lexeme.Proper := by
  obtain ⟨-, c, rest, -, -, hl⟩ := mem_split h
  rw [hl]
  exact Lexeme.scan_proper c rest

theorem firstFault_iff {cs : List Char} {p : Piece} {fault : ParseFault} :
    Token.FirstFault allowed ((Lexeme.split 0 cs).map PlacedLexeme.piece) p fault ↔
      ∃ front l back ts, Lexeme.split 0 cs = front ++ l :: back ∧ p = l.piece ∧
        Token.ofLexemes allowed .operand front = .ok ts ∧
        Token.Kind.ofNext allowed (Expected.operand.afterAll ts) l.lexeme = .error fault := by
  have hafter (ts : List Token) : Expected.operand.afterAll ts =
      Expected.behind (ts.map Token.kind).reverse := by
    rw [← List.append_nil (List.reverse _), ← Expected.afterAll_behind]
    rfl
  constructor
  · intro h
    obtain ⟨front, ts, back, hs, hr, hf⟩ := h
    obtain ⟨ls, ms, hsplit, rfl, hm⟩ := List.map_eq_append_iff.mp hs
    obtain ⟨l, ms, rfl, rfl, rfl⟩ := List.map_eq_cons_iff.mp hm
    have hproper : ∀ m ∈ ls ++ l :: ms, m.lexeme.Proper := fun m hm => split_proper (hsplit ▸ hm)
    obtain ⟨hls, hms⟩ := List.forall_mem_append.mp hproper
    have hl := hms l List.mem_cons_self
    refine ⟨ls, l, ms, ts, hsplit, rfl, (Token.ofLexemes_eq_ok_iff_read [] hls).mpr hr, ?_⟩
    rw [hafter]
    exact (Token.Kind.ofNext_eq_error_iff hl).mpr hf
  · intro h
    obtain ⟨front, l, back, ts, hsplit, rfl, hr, hf⟩ := h
    have hproper : ∀ m ∈ front ++ l :: back, m.lexeme.Proper := fun m hm =>
      split_proper (hsplit ▸ hm)
    obtain ⟨hls, hms⟩ := List.forall_mem_append.mp hproper
    rw [hafter] at hf
    refine ⟨front.map PlacedLexeme.piece, ts, back.map PlacedLexeme.piece, ?_,
      (Token.ofLexemes_eq_ok_iff_read [] hls).mp hr,
      (Token.Kind.ofNext_eq_error_iff (hms l List.mem_cons_self)).mp hf⟩
    rw [hsplit, List.map_append, List.map_cons]

section Completion

theorem split_cut {start : Nat} {cs : List Char} {front back : List PlacedLexeme}
    {l : PlacedLexeme} (hs : Lexeme.split start cs = front ++ l :: back) {x : Expected}
    {ts : List Token} (ht : Token.ofLexemes allowed x front = .ok ts) :
    ∃ pre post, cs = pre ++ l.lexeme.text ++ post ∧ l.offset = start + byteLength pre ∧
      Token.Written allowed start ts pre := by
  induction start, cs using Lexeme.split.induct generalizing front x ts with
  | case1 start =>
    rw [Lexeme.split] at hs
    cases front <;> cases hs
  | case2 start c cs hc ih =>
    rw [Lexeme.split, if_pos hc] at hs
    obtain ⟨pre, post, rfl, ho, hw⟩ := ih hs ht
    refine ⟨c :: pre, post, rfl, ?_, hw.blank_cons hc⟩
    rw [ho, byteLength_cons, Nat.add_assoc]
  | case3 start c cs hc ih =>
    rw [Lexeme.split, if_neg hc] at hs
    cases front with
    | nil =>
      cases hs
      cases ht
      exact ⟨[], _, (Lexeme.scan_text c cs).symm, rfl, .nil start (List.forall_mem_nil _)⟩
    | cons f front =>
      obtain ⟨rfl, htail⟩ := List.cons.inj hs
      obtain ⟨k, rest, hk, hr, rfl⟩ := Token.ofLexemes_cons.mp ht
      obtain ⟨pre, post, he, ho, hw⟩ := ih htail hr
      have hspell := scan_spelling (Token.Kind.ofNext_eq_ok.mp hk).1
      refine ⟨(Lexeme.scan c cs).1.text ++ pre, post, ?_, ?_,
        .cons start (List.forall_mem_nil _) hspell hw⟩
      · rw [List.append_assoc, List.append_assoc, ← List.append_assoc pre, ← he,
          Lexeme.scan_text]
      · rw [ho, byteLength_append, Nat.add_assoc]

theorem Token.Written.blanks {blank cs : List Char} (hb : ∀ c ∈ blank, isBlank c = true)
    {offset : Nat} {ts : List Token} (h : Written allowed (offset + byteLength blank) ts cs) :
    Written allowed offset ts (blank ++ cs) := by
  induction blank generalizing offset with
  | nil => exact h
  | cons c blank ih =>
    obtain ⟨hc, hb⟩ := List.forall_mem_cons.mp hb
    rw [byteLength_cons, ← Nat.add_assoc] at h
    exact (ih hb h).blank_cons hc

theorem Token.Written.append {offset : Nat} {ts us : List Token} {cs ds : List Char}
    (h : Written allowed offset ts cs) (hu : Written allowed (offset + byteLength cs) us ds) :
    Written allowed offset (ts ++ us) (cs ++ ds) := by
  induction h with
  | nil offset hb => exact hu.blanks hb
  | @cons offset blank text rest k ts hb ht h ih =>
    rw [List.append_assoc, List.cons_append]
    rw [byteLength_append (blank ++ text), ← Nat.add_assoc] at hu
    exact .cons offset hb ht (ih hu)

theorem Token.accepts_append {x : Expected} {ls : List PlacedLexeme} {ts us : List Token}
    (h : ofLexemes allowed x ls = .ok ts) (hu : (x.afterAll ts).Accepts us) :
    x.Accepts (ts ++ us) := by
  induction ls generalizing x ts with
  | nil =>
    cases h
    exact hu
  | cons l ls ih =>
    obtain ⟨k, rest, hk, hr, rfl⟩ := ofLexemes_cons.mp h
    exact ⟨(Kind.ofNext_eq_ok.mp hk).2, ih hr hu⟩

theorem Expected.exists_completion (allowed : List String) (x : Expected) (offset : Nat) :
    ∃ us s, x.Accepts us ∧ Token.Written allowed offset us s := by
  cases hx : x.afterOperand with
  | true => exact ⟨[], [], hx, .nil offset (List.forall_mem_nil _)⟩
  | false =>
    have hn : (⟨['1'], none, none⟩ : Numeral).Shaped := by
      refine ⟨List.forall_mem_singleton.mpr rfl, ?_, ?_, fun h => absurd rfl h⟩
      · intro ds hds
        cases hds
      · intro e he
        cases he
    have ht := numeral_spelling allowed hn rfl
    have hw := Token.Written.cons offset (List.forall_mem_nil _) ht
      (.nil _ (List.forall_mem_nil _))
    have ha (v : Float) : x.admits (.number v) = true := by
      cases x <;> first | rfl | cases hx
    refine ⟨_, _, ?_, hw⟩
    exact ⟨ha _, rfl⟩

theorem exists_continuation {ls : List PlacedLexeme} {ts : List Token} {pre : List Char}
    (ht : Token.ofLexemes allowed .operand ls = .ok ts) (hw : Token.Written allowed 0 ts pre) :
    ∃ s us, tokenize (String.ofList (pre ++ s)) allowed = .ok us := by
  obtain ⟨us, s, hu, hs⟩ :=
    (Expected.operand.afterAll ts).exists_completion allowed (0 + byteLength pre)
  exact ⟨s, ts ++ us, (hw.append hs).tokenize (Token.accepts_append ht hu)⟩

end Completion

theorem split_eq_nil_iff {start : Nat} {cs : List Char} :
    Lexeme.split start cs = [] ↔ ∀ c ∈ cs, isBlank c = true := by
  refine ⟨split_eq_nil, fun hb => ?_⟩
  have hs := split_blanks hb start []
  rwa [List.append_nil, Lexeme.split] at hs

theorem tokenize_eq_empty_iff {source : String} :
    tokenize source allowed = .error ⟨.emptyExpression, byteLength source.toList⟩ ↔
      ∀ c ∈ source.toList, isBlank c = true := by
  refine ⟨blank_of_tokenize_empty, fun hb => ?_⟩
  rw [tokenize, split_eq_nil_iff.mpr hb]
  rfl

/-- A source is split by maximal munch in one way. If some piece is at fault behind pieces that are
tokens, then this is the error, and the text before it can be completed to a source that is
accepted. Otherwise all pieces are tokens, and only a source of blanks and one whose last token
is an operator, an opener or a comma are rejected. -/
theorem tokenize_leftmost (source : String) (allowed : List String) :
    ∃ ps, (∀ qs, Munched 0 source.toList qs ↔ qs = ps) ∧
      (∀ p fault, Token.FirstFault allowed ps p fault →
        tokenize source allowed = .error ⟨fault, p.offset⟩ ∧
        ∃ pre post s us, source.toList = pre ++ p.text ++ post ∧ byteLength pre = p.offset ∧
          tokenize (String.ofList (pre ++ s)) allowed = .ok us) ∧
      ((∃ p fault, Token.FirstFault allowed ps p fault) ∨ ∃ ts, Token.Read allowed [] ps ts) ∧
      (tokenize source allowed = .error ⟨.emptyExpression, byteLength source.toList⟩ ↔
        ∀ c ∈ source.toList, isBlank c = true) ∧
      ∀ ts, Token.Read allowed [] ps ts →
        (ts = [] ↔ ∀ c ∈ source.toList, isBlank c = true) ∧
        ∀ last ∈ ts.getLast?,
          (tokenize source allowed = .error ⟨.unexpectedEnd last.kind, last.offset⟩ ↔
            last.kind.Unfinished) ∧
          (tokenize source allowed = .ok ts ↔ ¬last.kind.Unfinished) := by
  have hproper : ∀ l ∈ Lexeme.split 0 source.toList, l.lexeme.Proper := fun l hl => split_proper hl
  have hread (ts : List Token) :
      Token.ofLexemes allowed .operand (Lexeme.split 0 source.toList) = .ok ts ↔
        Token.Read allowed [] ((Lexeme.split 0 source.toList).map PlacedLexeme.piece) ts :=
    Token.ofLexemes_eq_ok_iff_read [] hproper
  refine ⟨_, fun qs => munched_iff, fun p fault hf => ?_, ?_, tokenize_eq_empty_iff,
    fun ts hts => ⟨?_, fun last hlast => ?_⟩⟩
  · obtain ⟨front, l, back, ts, hs, rfl, hts, hl⟩ := firstFault_iff.mp hf
    obtain ⟨pre, post, hpre, ho, hw⟩ := split_cut hs hts
    obtain ⟨s, us, hus⟩ := exists_continuation hts hw
    refine ⟨?_, pre, post, s, us, hpre, (ho.trans (Nat.zero_add _)).symm, hus⟩
    rw [tokenize, hs, Token.ofLexemes_eq_error hts hl]
    rfl
  · cases h : Token.ofLexemes allowed .operand (Lexeme.split 0 source.toList) with
    | ok ts => exact .inr ⟨ts, (hread ts).mp h⟩
    | error e =>
      obtain ⟨front, l, back, ts, hs, hts, hl, -⟩ := Token.ofLexemes_error h
      exact .inl ⟨_, _, firstFault_iff.mpr ⟨front, l, back, ts, hs, rfl, hts, hl⟩⟩
  · have hnil : Lexeme.split 0 source.toList = [] ↔ ∀ c ∈ source.toList, isBlank c = true :=
      split_eq_nil_iff
    rw [← hnil]
    constructor
    · rintro rfl
      exact Token.ofLexemes_eq_nil ((hread []).mpr hts)
    · intro hs
      have h := (hread ts).mpr hts
      rw [hs] at h
      cases h
      rfl
  · have hend : tokenize source allowed = if last.kind.endsOperand then .ok ts
        else .error ⟨.unexpectedEnd last.kind, last.offset⟩ := by
      rw [tokenize, (hread ts).mpr hts]
      dsimp only
      rw [Token.checkEnd, Option.mem_def.mp hlast]
    rw [hend, Token.Kind.unfinished_iff]
    cases last.kind.endsOperand <;> simp

theorem tokenize_leftmost_argument :
    ∃ ps p, Munched 0 "f(2,)@".toList ps ∧
      Token.FirstFault ["f"] ps p (.unexpectedToken (.closing .paren)) ∧ p.offset = 4 ∧
      ∃ pre post s us, "f(2,)@".toList = pre ++ p.text ++ post ∧ byteLength pre = 4 ∧
        tokenize (String.ofList (pre ++ s)) ["f"] = .ok us := by
  have h : tokenize "f(2,)@" ["f"] = .error ⟨.unexpectedToken (.closing .paren), 4⟩ := by
    decide +kernel
  obtain ⟨ps, hps, hfault, htotal, hblank, hread⟩ := tokenize_leftmost "f(2,)@" ["f"]
  rcases htotal with ⟨p, fault, hf⟩ | ⟨ts, hts⟩
  · obtain ⟨he, pre, post, s, us, hsource, ho, hus⟩ := hfault p fault hf
    rw [h] at he
    simp only [Except.error.injEq, ParseError.mk.injEq] at he
    obtain ⟨rfl, hp⟩ := he
    exact ⟨ps, p, (hps ps).mpr rfl, hf, hp.symm, pre, post, s, us, hsource, ho.trans hp.symm, hus⟩
  · -- all pieces being tokens, the error would be one at the end
    obtain ⟨hempty, hlast⟩ := hread ts hts
    cases hl : ts.getLast? with
    | none =>
      have hb := hblank.mpr (hempty.mp (List.getLast?_eq_none_iff.mp hl))
      rw [h] at hb
      cases hb
    | some last =>
      obtain ⟨hend, hok⟩ := hlast last hl
      rw [h] at hend hok
      by_cases he : last.kind.Unfinished
      · cases hend.mpr he
      · cases hok.mpr he

end Formula
