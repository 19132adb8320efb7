import Formula.Proofs.Expr.Draft
import Formula.Proofs.Expr.Grammar

/-!
# Parsing

Reading tokens into drafts parses them: a tree is found exactly if it is stratified
and the tokens are its own. So no two trees of the grammar are written alike.
-/

namespace Formula

structure Draft where
  entries : List Entry
  operand : Option Expr

namespace Draft

open Entry

def empty : Draft := ⟨[], none⟩

def tokens (d : Draft) : List Token := written d.entries ++ d.operand.elim [] Expr.tokens

/-- A complete operand has no operator that another could be compared with. -/
structure Sound (d : Draft) : Prop where
  entries : Entry.Sound d.entries
  operand : ∀ e ∈ d.operand, e.Stratified ∧ e.root? = none

def close? (d : Delimiter) (closing : Nat) : List Entry × Expr → Option Draft
  | (.frame f :: below, e) => (f.close? d closing e).map fun t => ⟨below, some t⟩
  | _ => none

def add? (comma : Nat) : List Entry × Expr → Option Draft
  | (.frame f :: below, e) => (f.add? comma e).map fun g => ⟨.frame g :: below, none⟩
  | _ => none

def nullary? (closing : Nat) : List Entry → Option Draft
  | .frame f :: below => (f.nullary? closing).map fun t => ⟨below, some t⟩
  | _ => none

def call? (opening : Nat) (entries : List Entry) : Expr → Option Draft
  | .name n o => some ⟨.frame (.call n o opening []) :: entries, none⟩
  | _ => none

def waitFor (b : BinaryOp) (offset : Nat) (r : List Entry × Expr) : Draft :=
  ⟨.operator (.binary b offset r.2) :: r.1, none⟩

def read (t : Token) (d : Draft) : Option Draft :=
  match t.kind, d.operand with
  | .number x, none => some ⟨d.entries, some (.number x t.offset)⟩
  | .identifier n, none => some ⟨d.entries, some (.name n t.offset)⟩
  | .sign s, none => some ⟨.operator (.sign s t.offset) :: d.entries, none⟩
  | .opening .paren, none => some ⟨.frame (.group t.offset) :: d.entries, none⟩
  | .opening .bracket, none => some ⟨.frame (.vector t.offset []) :: d.entries, none⟩
  | .closing .paren, none => nullary? t.offset d.entries
  | .opening .paren, some e => call? t.offset d.entries e
  | .binary b, some e =>
    some (waitFor b t.offset (complete (Operator.binary b).shiftsOver d.entries e))
  | .closing c, some e => close? c t.offset (completeAll d.entries e)
  | .comma, some e => add? t.offset (completeAll d.entries e)
  | _, _ => none

def finish (d : Draft) : Option Expr :=
  match d.operand with
  | none => none
  | some e =>
    match completeAll d.entries e with
    | ([], t) => some t
    | _ => none

def parse : List Token → Draft → Option Expr
  | [], d => d.finish
  | t :: ts, d => (d.read t).bind (parse ts)

end Draft

def Expr.parse? (ts : List Token) : Option Expr := Draft.parse ts .empty

namespace Draft

open Entry

theorem Sound.complete {d : Draft} (hd : d.Sound) {e : Expr} (he : d.operand = some e)
    (stop : Operator → Bool) :
    Entry.Sound (complete stop d.entries e).1 ∧ (complete stop d.entries e).2.Stratified := by
  obtain ⟨hs, hr⟩ := hd.operand e he
  refine complete_sound hd.entries hs ?_
  intro p _
  rw [Expr.fitsOperand_iff, hr]
  intro r hr
  cases hr

theorem close?_sound {d : Delimiter} {c : Nat} {r : List Entry × Expr} {d' : Draft}
    (hr : Entry.Sound r.1) (he : r.2.Stratified) (h : close? d c r = some d') :
    d'.Sound ∧ d'.tokens = written r.1 ++ r.2.tokens ++ [⟨.closing d, c⟩] := by
  unfold close? at h
  split at h
  · rename_i f below e
    obtain ⟨t, ht, rfl⟩ := Option.map_eq_some_iff.mp h
    refine ⟨⟨hr.2, ?_⟩, ?_⟩
    · intro u hu
      cases hu
      exact Opened.close?_stratified hr.1 he ht
    · simp [tokens, written, Entry.tokens, Opened.close?_tokens ht]
  · cases h

theorem add?_sound {c : Nat} {r : List Entry × Expr} {d' : Draft} (hr : Entry.Sound r.1)
    (he : r.2.Stratified) (h : add? c r = some d') :
    d'.Sound ∧ d'.tokens = written r.1 ++ r.2.tokens ++ [⟨.comma, c⟩] := by
  unfold add? at h
  split at h
  · rename_i f below e
    obtain ⟨g, hg, rfl⟩ := Option.map_eq_some_iff.mp h
    refine ⟨⟨⟨?_, hr.2⟩, ?_⟩, ?_⟩
    · rw [Opened.add?_items hg]
      intro b hb
      rcases List.mem_cons.mp hb with rfl | hb
      · exact he
      · exact hr.1 b hb
    · intro t ht
      cases ht
    · simp [tokens, written, Entry.tokens, Opened.add?_tokens hg]
  · cases h

theorem nullary?_sound {c : Nat} {entries : List Entry} {d' : Draft} (hs : Entry.Sound entries)
    (h : nullary? c entries = some d') :
    d'.Sound ∧ d'.tokens = written entries ++ [⟨.closing .paren, c⟩] := by
  unfold nullary? at h
  split at h
  · rename_i f below
    obtain ⟨t, ht, rfl⟩ := Option.map_eq_some_iff.mp h
    obtain ⟨htok, hst⟩ := Opened.nullary?_tokens ht
    refine ⟨⟨hs.2, ?_⟩, ?_⟩
    · intro u hu
      cases hu
      exact hst
    · simp [tokens, written, Entry.tokens, htok]
  · cases h

theorem waitFor_sound {d : Draft} (hd : d.Sound) {e : Expr} (he : d.operand = some e)
    (b : BinaryOp) (o : Nat) :
    (waitFor b o (complete (Operator.binary b).shiftsOver d.entries e)).Sound := by
  obtain ⟨hs, hr⟩ := hd.complete he (Operator.binary b).shiftsOver
  have hl : (Entry.complete (Operator.binary b).shiftsOver d.entries e).2.fitsLeft b := by
    rw [Expr.fitsLeft_iff]
    refine complete_root? d.entries ?_
    rw [(hd.operand e he).2]
    intro r hr
    cases hr
  refine ⟨⟨⟨hr, hl⟩, complete_stop d.entries e, hs⟩, ?_⟩
  intro t ht
  cases ht

theorem waitFor_tokens (b : BinaryOp) (o : Nat) (stop : Operator → Bool) (entries : List Entry)
    (e : Expr) :
    (waitFor b o (complete stop entries e)).tokens =
      written entries ++ e.tokens ++ [⟨.binary b, o⟩] := by
  rw [← complete_written stop]
  simp [tokens, waitFor, written, Entry.tokens, Waiting.tokens]

section Reading

variable {entries : List Entry} {d' : Draft}

theorem sound_none (hs : Entry.Sound entries) : Sound ⟨entries, none⟩ := ⟨hs, nofun⟩

theorem sound_some (hs : Entry.Sound entries) {e : Expr} (he : e.Stratified)
    (hr : e.root? = none) : Sound ⟨entries, some e⟩ := by
  refine ⟨hs, ?_⟩
  intro u hu
  cases hu
  exact ⟨he, hr⟩

theorem sound_opened (hs : Entry.Sound entries) {f : Opened} (hf : f.items = []) :
    Sound ⟨.frame f :: entries, none⟩ := by
  refine sound_none ⟨?_, hs⟩
  rw [hf]
  exact List.forall_mem_nil _

theorem call?_sound (hs : Entry.Sound entries) {p : Nat} {e : Expr}
    (h : call? p entries e = some d') :
    d'.Sound ∧ d'.tokens = written entries ++ e.tokens ++ [⟨.opening .paren, p⟩] := by
  cases e <;> cases h
  refine ⟨sound_opened hs rfl, ?_⟩
  simp [tokens, written, Entry.tokens, Opened.tokens, Before.tokens, Expr.tokens]

theorem read_none_sound (hs : Entry.Sound entries) {t : Token}
    (h : read t ⟨entries, none⟩ = some d') : d'.Sound ∧ d'.tokens = written entries ++ [t] := by
  obtain ⟨k, o⟩ := t
  cases k with
  | number x =>
    cases h
    exact ⟨sound_some hs trivial rfl, rfl⟩
  | identifier n =>
    cases h
    exact ⟨sound_some hs trivial rfl, rfl⟩
  | sign s =>
    cases h
    have hshift : (Operator.sign s).ShiftsOnto (top? entries) :=
      fun p _ => Operator.sign_shiftsOver s p
    refine ⟨sound_none ⟨trivial, hshift, hs⟩, ?_⟩
    simp [tokens, written, Entry.tokens, Waiting.tokens]
  | opening c =>
    cases c with
    | paren =>
      cases h
      refine ⟨sound_opened hs rfl, ?_⟩
      simp [tokens, written, Entry.tokens, Opened.tokens]
    | bracket =>
      cases h
      refine ⟨sound_opened hs rfl, ?_⟩
      simp [tokens, written, Entry.tokens, Opened.tokens, Before.tokens]
  | closing c =>
    cases c with
    | paren => exact nullary?_sound hs h
    | bracket => cases h
  | binary b => cases h
  | comma => cases h

theorem read_some_sound {e : Expr} (hd : Sound ⟨entries, some e⟩) {t : Token}
    (h : read t ⟨entries, some e⟩ = some d') :
    d'.Sound ∧ d'.tokens = written entries ++ e.tokens ++ [t] := by
  obtain ⟨k, o⟩ := t
  cases k with
  | binary b =>
    cases h
    exact ⟨waitFor_sound hd rfl b o, waitFor_tokens b o _ entries e⟩
  | opening c =>
    cases c with
    | paren => exact call?_sound hd.entries h
    | bracket => cases h
  | closing c =>
    obtain ⟨hs, hr⟩ := hd.complete rfl fun _ => false
    have hc : close? c o (completeAll entries e) = some d' := by cases c <;> exact h
    have := close?_sound hs hr hc
    rwa [complete_written] at this
  | comma =>
    obtain ⟨hs, hr⟩ := hd.complete rfl fun _ => false
    have := add?_sound hs hr h
    rwa [complete_written] at this
  | number x => cases h
  | identifier n => cases h
  | sign s => cases h

end Reading

theorem read_sound {t : Token} {d d' : Draft} (hd : d.Sound) (h : d.read t = some d') :
    d'.Sound ∧ d'.tokens = d.tokens ++ [t] := by
  obtain ⟨entries, operand⟩ := d
  cases operand with
  | none =>
    obtain ⟨hs, ht⟩ := read_none_sound hd.entries h
    exact ⟨hs, ht.trans (congrArg (· ++ [t]) (List.append_nil _).symm)⟩
  | some e => exact read_some_sound hd h

theorem finish_sound {d : Draft} (hd : d.Sound) {t : Expr} (h : d.finish = some t) :
    t.Stratified ∧ t.tokens = d.tokens := by
  obtain ⟨entries, operand⟩ := d
  cases operand with
  | none => cases h
  | some e =>
    obtain ⟨hs, hr⟩ := hd.complete rfl fun _ => false
    have hw := complete_written (fun _ => false) entries e
    simp only [finish] at h
    split at h
    · rename_i u hu
      cases h
      rw [completeAll] at hu
      rw [hu] at hr hw
      exact ⟨hr, hw⟩
    · cases h

theorem parse_cons {t : Token} {d d' : Draft} (h : d.read t = some d') (ts : List Token) :
    parse (t :: ts) d = parse ts d' := by
  rw [parse, h]
  rfl

theorem parse_sound {ts : List Token} {d : Draft} (hd : d.Sound) {t : Expr}
    (h : parse ts d = some t) : t.Stratified ∧ t.tokens = d.tokens ++ ts := by
  induction ts generalizing d with
  | nil => simpa using finish_sound hd h
  | cons u ts ih =>
    obtain ⟨d', hr, h⟩ := Option.bind_eq_some_iff.mp h
    obtain ⟨hd', ht⟩ := read_sound hd hr
    have := ih hd' h
    rwa [ht, List.append_assoc, List.singleton_append] at this

theorem parse_operator {w : Waiting} {ts : List Token} (h : Completes w.op ts)
    (entries : List Entry) (e : Expr) :
    parse ts ⟨.operator w :: entries, some e⟩ = parse ts ⟨entries, some (w.fill e)⟩ := by
  cases ts with
  | nil => rfl
  | cons t ts =>
    obtain ⟨k, o⟩ := t
    cases k with
    | binary b =>
      have hc : complete (Operator.binary b).shiftsOver (.operator w :: entries) e =
          complete (Operator.binary b).shiftsOver entries (w.fill e) :=
        if_neg (Bool.not_eq_true _ ▸ h)
      simp only [parse, read, hc]
    | closing c => cases c <;> rfl
    | comma => rfl
    | _ => cases h

theorem parse_closing {d : Delimiter} {c : Nat} {e t : Expr} {f : Opened}
    (h : f.close? d c e = some t) (ts : List Token) (below : List Entry) :
    parse (⟨.closing d, c⟩ :: ts) ⟨.frame f :: below, some e⟩ = parse ts ⟨below, some t⟩ := by
  have hr : read ⟨.closing d, c⟩ ⟨.frame f :: below, some e⟩ =
      (f.close? d c e).map fun t => ⟨below, some t⟩ := by cases d <;> rfl
  rw [h] at hr
  exact parse_cons hr ts

theorem parse_comma {c : Nat} {e : Expr} {f g : Opened} (h : f.add? c e = some g)
    (ts : List Token) (below : List Entry) :
    parse (⟨.comma, c⟩ :: ts) ⟨.frame f :: below, some e⟩ = parse ts ⟨.frame g :: below, none⟩ := by
  have hr : read ⟨.comma, c⟩ ⟨.frame f :: below, some e⟩ =
      (f.add? c e).map fun g => ⟨.frame g :: below, none⟩ := rfl
  rw [h] at hr
  exact parse_cons hr ts

theorem parse_binary {b : BinaryOp} {entries : List Entry}
    (h : (Operator.binary b).ShiftsOnto (top? entries)) (o : Nat) (l : Expr) (ts : List Token) :
    parse (⟨.binary b, o⟩ :: ts) ⟨entries, some l⟩ =
      parse ts ⟨.operator (.binary b o l) :: entries, none⟩ := by
  have hc : complete (Operator.binary b).shiftsOver entries l = (entries, l) :=
    complete_of_stop h l
  simp only [parse, read, hc]
  rfl

mutual

theorem parse_tokens {e : Expr} (he : e.Stratified) {entries : List Entry}
    (hp : e.FitsUnder (top? entries)) {ts : List Token} (hts : e.EndsBefore ts) :
    parse (e.tokens ++ ts) ⟨entries, none⟩ = parse ts ⟨entries, some e⟩ := by
  match e with
  | .number x o => rfl
  | .name n o => rfl
  | .nullary n o p c => rfl
  | .call n o p args c =>
    have hi : args.Stratified := he
    rw [Expr.tokens]
    simp only [List.cons_append, List.append_assoc, List.nil_append]
    exact parse_items hi (f := .call n o p) (g := fun is => .call n o p is c) (fun _ _ _ => rfl)
      (fun _ _ => rfl) [] entries ts
  | .group p e c =>
    have hf : e.FitsUnder (top? (.frame (.group p) :: entries)) := e.fitsUnder_none
    rw [Expr.tokens]
    simp only [List.cons_append, List.append_assoc, List.nil_append]
    exact (parse_tokens (e := e) he hf (e.endsBefore_closing .paren c ts)).trans
      (parse_closing rfl ts entries)
  | .vector p items c =>
    have hi : items.Stratified := he
    rw [Expr.tokens]
    simp only [List.cons_append, List.append_assoc, List.nil_append]
    exact parse_items hi (f := .vector p) (g := fun is => .vector p is c) (fun _ _ _ => rfl)
      (fun _ _ => rfl) [] entries ts
  | .sign s o e =>
    have hc : Completes (Waiting.sign s o).op ts := hts.completes rfl
    have hf : e.FitsUnder (top? (.operator (.sign s o) :: entries)) := by
      intro p hp
      cases hp
      exact he.1
    rw [Expr.tokens, List.cons_append]
    exact (parse_tokens he.2 hf (hc.endsBefore he.1)).trans (parse_operator hc entries e)
  | .binary b o l r =>
    obtain ⟨hl, hr, hl', hr'⟩ := he
    have hc : Completes (Waiting.binary b o l).op ts := hts.completes rfl
    have he : l.EndsBefore (⟨.binary b, o⟩ :: (r.tokens ++ ts)) := hl
    have hf : r.FitsUnder (top? (.operator (.binary b o l) :: entries)) := by
      intro p hp
      cases hp
      exact hr
    rw [Expr.tokens, List.append_assoc, List.cons_append, parse_tokens hl' (hp.left hl) he,
      parse_binary (hp.shiftsOnto rfl), parse_tokens hr' hf (hc.endsBefore hr),
      parse_operator hc entries r]
    rfl

/-- Items are collected in an opened delimiter `f`, which becomes the tree `g` when it is closed. -/
theorem parse_items {items : Items} (hi : items.Stratified) {f : Before → Opened}
    {d : Delimiter} {c : Nat} {g : Items → Expr}
    (ha : ∀ before comma e, (f before).add? comma e = some (f ((e, comma) :: before)))
    (hc : ∀ before e, (f before).close? d c e = some (g (before.build (.one e))))
    (before : Before) (entries : List Entry) (ts : List Token) :
    parse (items.tokens ++ ⟨.closing d, c⟩ :: ts) ⟨.frame (f before) :: entries, none⟩ =
      parse ts ⟨entries, some (g (before.build items))⟩ := by
  match items with
  | .one e =>
    have hf : e.FitsUnder (top? (.frame (f before) :: entries)) := e.fitsUnder_none
    rw [Items.tokens, parse_tokens (e := e) hi hf (e.endsBefore_closing d c ts),
      parse_closing (hc before e)]
  | .more e comma rest =>
    have hf : e.FitsUnder (top? (.frame (f before) :: entries)) := e.fitsUnder_none
    rw [Items.tokens, List.append_assoc, List.cons_append,
      parse_tokens hi.1 hf (e.endsBefore_comma comma _), parse_comma (ha before comma e),
      parse_items hi.2 ha hc]
    rfl

end

end Draft

/-- A tree is parsed exactly from its own tokens. -/
theorem Expr.parse?_eq_some_iff {ts : List Token} {t : Expr} :
    Expr.parse? ts = some t ↔ t.Stratified ∧ t.tokens = ts := by
  constructor
  · intro h
    have he : Draft.empty.Sound := by
      refine ⟨trivial, ?_⟩
      intro e he
      cases he
    exact Draft.parse_sound he h
  · rintro ⟨ht, rfl⟩
    have hp : t.FitsUnder (Entry.top? []) := t.fitsUnder_none
    have hts : t.EndsBefore [] := trivial
    have h := Draft.parse_tokens ht hp hts
    rw [List.append_nil] at h
    exact h

theorem Expr.tokens_injective {t u : Expr} (ht : t.Stratified) (hu : u.Stratified)
    (h : t.tokens = u.tokens) : t = u := by
  have h₁ := Expr.parse?_eq_some_iff.mpr ⟨ht, rfl⟩
  have h₂ := Expr.parse?_eq_some_iff.mpr ⟨hu, h.symm⟩
  rw [h₁] at h₂
  exact Option.some.inj h₂

end Formula
