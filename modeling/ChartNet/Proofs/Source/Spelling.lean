import ChartNet.Proofs.Source.Written

/-!
# Spelling

A text **spells** an expression if, whatever ends it, it is cut into lexemes that are read as a
phrase with this meaning. The rules below put spellings together as the printer puts texts together;
which form a part has to be read in decides where the printer needs parentheses.
-/

namespace ChartNet

open Token (Lexeme Cuts Ends endings lex IsWord wordKind)
open Phrase (Heads Fits Chains Whole Items)

/-! ### Texts and tokens -/

/-- A text is **cut** into lexemes in front of everything that ends it, and starts with none of the
characters that would change what comes before. -/
structure Writes (text : String) (ls : List Lexeme) : Prop where
  starts : ∃ c cs, text.toList = c :: cs ∧ Text.isBlank c = false ∧ c ≠ '='
  cuts : ∀ {cs ls'}, Ends cs → Cuts cs ls' → Cuts (text.toList ++ cs) (ls ++ ls')

/-- A text is cut into lexemes whose tokens have a property. -/
def SpellsThat (text : String) (R : List Token → Prop) : Prop :=
  ∃ ls, Writes text ls ∧ ∀ ts : List Token, ts.map lex = ls → R ts

/-- A text **spells** an expression in a form. -/
def Spells (form : List Token → Phrase → Prop) (text : String) (e : Expr) : Prop :=
  SpellsThat text fun ts => ∃ p, form ts p ∧ p.meaning = .ok (.plain e)

/-- A text spells an expression as a **head**, before names are resolved. -/
def SpellsHead (text : String) (e : Expr) : Prop :=
  SpellsThat text fun ts => ∃ p, Heads ts p ∧ p.raw = .ok (.plain e)

theorem ends_cons {c : Char} (h : c ∈ endings) (cs : List Char) : Ends (c :: cs) := by
  intro d hd
  obtain rfl := Option.some.inj (Option.mem_def.1 hd)
  exact h

/-- A blank before a text changes nothing. -/
theorem Writes.blank {text : String} {ls ls' : List Lexeme} {cs : List Char} (h : Writes text ls)
    (hcs : Ends cs) (hcuts : Cuts cs ls') : Cuts (' ' :: (text.toList ++ cs)) (ls ++ ls') := by
  obtain ⟨c, cs', htext, hc, -⟩ := h.starts
  have hall := h.cuts hcs hcuts
  rw [htext, List.cons_append] at hall ⊢
  exact hall.blank hc

theorem Spells.mono {form form' : List Token → Phrase → Prop} {text : String} {e : Expr}
    (h : Spells form text e) (hform : ∀ ts p, form ts p → form' ts p) : Spells form' text e := by
  obtain ⟨ls, hwrites, hread⟩ := h
  refine ⟨ls, hwrites, fun ts hts => ?_⟩
  obtain ⟨p, hp, hmeaning⟩ := hread ts hts
  exact ⟨p, hform ts p hp, hmeaning⟩

/-! ### Meanings -/

namespace Phrase

/-- What a phrase means is resolved. -/
theorem resolve_of_meaning {p : Phrase} {e : Expr} (h : p.meaning = .ok (.plain e)) (q : Phrase) :
    resolve q (.plain e) = .ok (.plain e) := by
  obtain ⟨m, -, hresolve⟩ := Result.bind_eq_ok.1 h
  by_cases hident : ∃ n, e = .ident n
  · obtain ⟨n, rfl⟩ := hident
    unfold resolve at hresolve
    split at hresolve
    · split at hresolve
      · cases hresolve
      · rename_i hconstant
        split at hresolve
        · cases hresolve
        · rename_i hrejected
          cases hresolve
          simp only [resolve, hconstant, if_neg hrejected]
    · rename_i hnot
      cases hresolve
      exact absurd rfl (hnot n)
  · exact resolve_plain q fun n hn => hident ⟨n, hn⟩

theorem operand_of_meaning {p : Phrase} {e : Expr} (h : p.meaning = .ok (.plain e)) :
    operand p (raw p) = .ok e := by
  have hwhole : whole p (raw p) = .ok (.plain e) := h
  simp [operand, hwhole, bind, Except.bind, plainOnly]

/-- What a phrase means is what it means before names are resolved, resolved. -/
theorem meaning_of_raw {p : Phrase} {a e : Expr} (h : p.raw = .ok (.plain a))
    (hresolve : ∀ q, resolve q (.plain a) = .ok (.plain e)) : p.meaning = .ok (.plain e) := by
  simp [meaning, whole, h, bind, Except.bind, hresolve p]

theorem meaning_binary {t : Token} {op : BinaryOp} {l r : Phrase} {a b : Expr}
    (ht : t.kind.binaryOp? = some op) (hl : l.meaning = .ok (.plain a))
    (hr : r.meaning = .ok (.plain b)) :
    (Phrase.binary t l r).meaning = .ok (.plain (.binary op a b)) := by
  refine meaning_of_raw ?_ fun q => resolve_plain q nofun
  have hl' : whole l (raw l) = .ok (.plain a) := hl
  have hr' : whole r (raw r) = .ok (.plain b) := hr
  have hlo := operand_of_meaning hl
  have hro := operand_of_meaning hr
  rw [raw]
  split
  · rename_i hequality
    -- the two comparisons for equality have a rule of their own
    rw [hl', hr']
    cases hkind : t.kind <;> rw [hkind] at ht hequality <;> cases hequality <;> cases ht <;>
      simp [bind, Except.bind, compare, hkind]
  · rw [hlo, hro]
    simp [bind, Except.bind, ht, pure, Except.pure]

theorem meaning_conditional {t a b : Phrase} {test whenTrue whenFalse : Expr}
    (ht : t.meaning = .ok (.plain test)) (ha : a.meaning = .ok (.plain whenTrue))
    (hb : b.meaning = .ok (.plain whenFalse)) :
    (Phrase.conditional t a b).meaning = .ok (.plain (.ite test whenTrue whenFalse)) := by
  refine meaning_of_raw ?_ fun q => resolve_plain q nofun
  rw [raw, operand_of_meaning ht, operand_of_meaning ha, operand_of_meaning hb]
  rfl

theorem meaning_not {t : Token} {p : Phrase} {e : Expr} (ht : t.kind = .bang)
    (hp : p.meaning = .ok (.plain e)) : (Phrase.unary t p).meaning = .ok (.plain (.not e)) := by
  refine meaning_of_raw ?_ fun q => resolve_plain q nofun
  rw [raw, operand_of_meaning hp]
  simp [bind, Except.bind, applyUnary, ht, pure, Except.pure]

theorem meaning_minus {t : Token} {p : Phrase} {kind : NumKind} {x : Float} (ht : t.kind = .minus)
    (hp : p.meaning = .ok (.plain (.lit (.num kind x)))) :
    (Phrase.unary t p).meaning = .ok (.plain (.lit (.num kind (-x)))) := by
  refine meaning_of_raw ?_ fun q => resolve_plain q nofun
  rw [raw, operand_of_meaning hp]
  simp [bind, Except.bind, applyUnary, ht, Expr.negate, pure, Except.pure]

theorem raw_index {t : Token} {b i : Phrase} {a e : Expr} (hb : b.raw = .ok (.plain a))
    (ha : a.chain? ≠ none) (hi : i.meaning = .ok (.plain e)) :
    (Phrase.index b t i).raw = .ok (.plain (.access a e)) := by
  rw [raw, hb, operand_of_meaning hi]
  simp [bind, Except.bind, headOf, plainOnly, ha, pure, Except.pure]

end Phrase

/-! ### Rules -/

theorem SpellsHead.spells {text : String} {a e : Expr} (h : SpellsHead text a)
    (hresolve : ∀ q, Phrase.resolve q (.plain a) = .ok (.plain e)) : Spells (Fits 0) text e := by
  obtain ⟨ls, hwrites, hread⟩ := h
  refine ⟨ls, hwrites, fun ts hts => ?_⟩
  obtain ⟨p, hp, hraw⟩ := hread ts hts
  exact ⟨p, hp.fits, Phrase.meaning_of_raw hraw hresolve⟩

/-- A text goes on with one that starts with an ending. -/
theorem SpellsThat.append {a b : String} {R R' : List Token → Prop} (ha : SpellsThat a R)
    (hb : SpellsThat b R') (hend : ∀ cs, Ends (b.toList ++ cs)) :
    SpellsThat (a ++ b) fun ts => ∃ ts₁ ts₂, ts = ts₁ ++ ts₂ ∧ R ts₁ ∧ R' ts₂ := by
  obtain ⟨ls, hwrites, hread⟩ := ha
  obtain ⟨ls', hwrites', hread'⟩ := hb
  refine ⟨ls ++ ls', ⟨?_, ?_⟩, ?_⟩
  · obtain ⟨c, cs, htext, hc⟩ := hwrites.starts
    exact ⟨c, cs ++ b.toList, by simp [htext], hc⟩
  · intro cs ls'' hcs hcuts
    have hall := hwrites.cuts (hend cs) (hwrites'.cuts hcs hcuts)
    simpa using hall
  · intro ts hts
    obtain ⟨ts₁, ts₂, rfl, h₁, h₂⟩ := List.map_eq_append_iff.1 hts
    exact ⟨ts₁, ts₂, rfl, hread ts₁ h₁, hread' ts₂ h₂⟩

/-- The two kinds of **brackets**, with the tokens that open and close. -/
inductive Brackets : String → TokenKind → String → TokenKind → Prop
  | round : Brackets "(" .leftParen ")" .rightParen
  | square : Brackets "[" .leftBracket "]" .rightBracket

namespace Brackets

variable {opening closing text : String} {left right : TokenKind} {R : List Token → Prop}

theorem ends (h : Brackets opening left closing right) (cs : List Char) :
    Ends (opening.toList ++ cs) ∧ Ends (closing.toList ++ cs) := by
  cases h <;> exact ⟨ends_cons (by decide) cs, ends_cons (by decide) cs⟩

private theorem cuts (h : Brackets opening left closing right) {cs : List Char} {ls : List Lexeme}
    (hcuts : Cuts cs ls) : Cuts (opening.toList ++ cs) ((left, opening) :: ls) ∧
      Cuts (closing.toList ++ cs) ((right, closing) :: ls) := by
  cases h with
  | round => exact ⟨hcuts.mark (by decide), hcuts.mark (by decide)⟩
  | square => exact ⟨hcuts.mark (by decide), hcuts.mark (by decide)⟩

private theorem starts (h : Brackets opening left closing right) :
    ∃ c, opening.toList = [c] ∧ Text.isBlank c = false ∧ c ≠ '=' := by
  cases h with
  | round => exact ⟨'(', rfl, by decide, by decide⟩
  | square => exact ⟨'[', rfl, by decide, by decide⟩

/-- Brackets with nothing between them. -/
theorem spells_nil (h : Brackets opening left closing right) :
    SpellsThat (opening ++ closing) fun ts =>
      ∃ t t', ts = [t, t'] ∧ t.kind = left ∧ t'.kind = right := by
  refine ⟨[(left, opening), (right, closing)], ⟨?_, ?_⟩, ?_⟩
  · obtain ⟨c, hopening, hc⟩ := h.starts
    exact ⟨c, closing.toList, by simp [hopening], hc⟩
  · intro cs ls' _ hcuts
    have hall := (h.cuts (h.cuts hcuts).2).1
    simpa using hall
  · intro ts hts
    obtain ⟨t, ts', rfl, ht, hts'⟩ := List.map_eq_cons_iff.1 hts
    obtain ⟨t', ts'', rfl, ht', hnil⟩ := List.map_eq_cons_iff.1 hts'
    obtain rfl := List.map_eq_nil_iff.1 hnil
    exact ⟨t, t', rfl, congrArg Prod.fst ht, congrArg Prod.fst ht'⟩

/-- Brackets around a text. -/
theorem spells (h : Brackets opening left closing right) (htext : SpellsThat text R) :
    SpellsThat (opening ++ text ++ closing) fun ts =>
      ∃ t ts' t', ts = t :: ts' ++ [t'] ∧ t.kind = left ∧ R ts' ∧ t'.kind = right := by
  obtain ⟨ls, hwrites, hread⟩ := htext
  refine ⟨(left, opening) :: (ls ++ [(right, closing)]), ⟨?_, ?_⟩, ?_⟩
  · obtain ⟨c, hopening, hc⟩ := h.starts
    exact ⟨c, text.toList ++ closing.toList, by simp [hopening], hc⟩
  · intro cs ls' _ hcuts
    have hall := (h.cuts (hwrites.cuts (h.ends cs).2 (h.cuts hcuts).2)).1
    simpa using hall
  · intro ts hts
    obtain ⟨t, ts', rfl, ht, hts'⟩ := List.map_eq_cons_iff.1 hts
    obtain ⟨tsᵢ, ts'', rfl, hinner, hts''⟩ := List.map_eq_append_iff.1 hts'
    obtain ⟨t', ts''', rfl, ht', hnil⟩ := List.map_eq_cons_iff.1 hts''
    obtain rfl := List.map_eq_nil_iff.1 hnil
    exact ⟨t, tsᵢ, t', by simp, congrArg Prod.fst ht, hread tsᵢ hinner, congrArg Prod.fst ht'⟩

/-- Brackets after another text. -/
theorem append {base : String} {R' : List Token → Prop} (h : Brackets opening left closing right)
    (hbase : SpellsThat base R') (htext : SpellsThat (opening ++ text) R) :
    SpellsThat (base ++ (opening ++ text)) fun ts => ∃ ts₁ ts₂, ts = ts₁ ++ ts₂ ∧ R' ts₁ ∧ R ts₂ :=
  hbase.append htext fun cs => by simpa using (h.ends (text.toList ++ cs)).1

end Brackets

theorem SpellsThat.mono {text : String} {R R' : List Token → Prop} (h : SpellsThat text R)
    (himp : ∀ ts, R ts → R' ts) : SpellsThat text R' := by
  obtain ⟨ls, hwrites, hread⟩ := h
  exact ⟨ls, hwrites, fun ts hts => himp ts (hread ts hts)⟩

/-- Parentheses make a head of everything. -/
theorem Spells.group {text : String} {e : Expr} (h : Spells Whole text e) :
    Spells (Fits 0) ("(" ++ text ++ ")") e := by
  refine (Brackets.round.spells h).mono ?_
  rintro _ ⟨t, ts, t', rfl, ht, ⟨p, hp, hmeaning⟩, ht'⟩
  refine ⟨.group t p, (hp.group ht ht').fits, ?_⟩
  refine Phrase.meaning_of_raw ?_ (Phrase.resolve_of_meaning hmeaning)
  rw [Phrase.raw]
  exact hmeaning

/-- An operator joins a chain of its level with an operand of a tighter one. -/
theorem Spells.operator {op : BinaryOp} {n k : Nat} {symbol left right : String} {a b : Expr}
    (hop : op.infixForm? = some (n, symbol)) (hk : 8 - n = k + 1) (hleft : Spells (Chains k) left a)
    (hright : Spells (Fits k) right b) :
    Spells (Chains k) (left ++ " " ++ symbol ++ " " ++ right) (.binary op a b) := by
  obtain ⟨ls, hwrites, hread⟩ := hleft
  obtain ⟨ls', hwrites', hread'⟩ := hright
  obtain ⟨kind, hkind, hbinary, hcut⟩ := Token.cuts_infix hop
  rw [hk] at hbinary
  refine ⟨ls ++ (kind, symbol) :: ls', ⟨?_, ?_⟩, ?_⟩
  · obtain ⟨c, cs, htext, hc⟩ := hwrites.starts
    exact ⟨c, cs ++ ' ' :: (symbol.toList ++ ' ' :: right.toList), by simp [htext], hc⟩
  · intro cs ls'' hcs hcuts
    have hall := hwrites.cuts (ends_cons (by decide) _) (hcut (hwrites'.blank hcs hcuts))
    simpa using hall
  · intro ts hts
    obtain ⟨tsₗ, ts', rfl, hl, hts'⟩ := List.map_eq_append_iff.1 hts
    obtain ⟨t, tsᵣ, rfl, ht, hr⟩ := List.map_eq_cons_iff.1 hts'
    obtain ⟨p, hp, hmeaning⟩ := hread tsₗ hl
    obtain ⟨q, hq, hmeaning'⟩ := hread' tsᵣ hr
    have htkind : t.kind = kind := congrArg Prod.fst ht
    exact ⟨.binary t p q, hp.binary (htkind ▸ hbinary) hq,
      Phrase.meaning_binary (htkind ▸ hkind) hmeaning hmeaning'⟩

/-- A unary operator stands before an operand of the tightest level. -/
private theorem Spells.unary {text : String} {a e : Expr} (c : Char) (kind : TokenKind)
    (hkind : Phrase.isUnary kind = true) (hc : Text.isBlank c = false ∧ c ≠ '=')
    (hcuts : ∀ {cs ls}, (∀ d ∈ cs.head?, d ≠ '=') → Cuts cs ls →
      Cuts (c :: cs) ((kind, String.singleton c) :: ls))
    (hmeaning : ∀ t p, t.kind = kind → p.meaning = .ok (.plain a) →
      (Phrase.unary t p).meaning = .ok (.plain e))
    (h : Spells (Fits 0) text a) : Spells (Fits 0) (String.singleton c ++ text) e := by
  obtain ⟨ls, hwrites, hread⟩ := h
  refine ⟨(kind, String.singleton c) :: ls, ⟨⟨c, text.toList, by simp, hc⟩, ?_⟩, ?_⟩
  · intro cs ls' hcs hrest
    obtain ⟨d, ds, htext, -, hd⟩ := hwrites.starts
    have hall := hcuts (fun d' hd' => by
      rw [htext] at hd'
      exact Option.some.inj (Option.mem_def.1 hd') ▸ hd) (hwrites.cuts hcs hrest)
    simpa using hall
  · intro ts hts
    obtain ⟨t, ts', rfl, ht, hts'⟩ := List.map_eq_cons_iff.1 hts
    obtain ⟨p, hp, hmeaning'⟩ := hread ts' hts'
    have hkind' : t.kind = kind := congrArg Prod.fst ht
    exact ⟨.unary t p, hp.unary (hkind' ▸ hkind), hmeaning t p hkind' hmeaning'⟩

theorem Spells.negation {text : String} {e : Expr} (h : Spells (Fits 0) text e) :
    Spells (Fits 0) ("!" ++ text) (.not e) :=
  h.unary '!' .bang rfl (by decide) (fun hcs hcuts => hcuts.bang hcs) fun _ _ ht hp =>
    Phrase.meaning_not ht hp

theorem Spells.minus {text : String} {kind : NumKind} {x : Float}
    (h : Spells (Fits 0) text (.lit (.num kind x))) :
    Spells (Fits 0) ("-" ++ text) (.lit (.num kind (-x))) :=
  h.unary '-' .minus rfl (by decide) (fun _ hcuts => hcuts.mark (by decide)) fun _ _ ht hp =>
    Phrase.meaning_minus ht hp

theorem Spells.conditional {test left right : String} {t a b : Expr}
    (htest : Spells (Fits 6) test t) (hleft : Spells Whole left a) (hright : Spells Whole right b) :
    Spells Whole (test ++ " ? " ++ left ++ " : " ++ right) (.ite t a b) := by
  obtain ⟨ls, hwrites, hread⟩ := htest
  obtain ⟨ls₁, hwrites₁, hread₁⟩ := hleft
  obtain ⟨ls₂, hwrites₂, hread₂⟩ := hright
  refine ⟨ls ++ (.question, "?") :: (ls₁ ++ (.colon, ":") :: ls₂), ⟨?_, ?_⟩, ?_⟩
  · obtain ⟨c, cs, htext, hc⟩ := hwrites.starts
    exact ⟨c, cs ++ " ? ".toList ++ left.toList ++ " : ".toList ++ right.toList,
      by simp [htext], hc⟩
  · intro cs ls' hcs hcuts
    have hcolon : Cuts (' ' :: ':' :: _) ((.colon, ":") :: _) :=
      ((hwrites₂.blank hcs hcuts).mark (by decide)).blank (by decide)
    have hquestion : Cuts (' ' :: '?' :: _) ((.question, "?") :: _) :=
      ((hwrites₁.blank (ends_cons (by decide) _) hcolon).mark (by decide)).blank (by decide)
    have hall := hwrites.cuts (ends_cons (by decide) _) hquestion
    simpa using hall
  · intro ts hts
    obtain ⟨tsₜ, ts', rfl, ht, hts'⟩ := List.map_eq_append_iff.1 hts
    obtain ⟨q, ts', rfl, hq, hts'⟩ := List.map_eq_cons_iff.1 hts'
    obtain ⟨tsₗ, ts', rfl, hl, hts'⟩ := List.map_eq_append_iff.1 hts'
    obtain ⟨c, tsᵣ, rfl, hc, hr⟩ := List.map_eq_cons_iff.1 hts'
    obtain ⟨p, hp, hmeaning⟩ := hread tsₜ ht
    obtain ⟨p₁, hp₁, hmeaning₁⟩ := hread₁ tsₗ hl
    obtain ⟨p₂, hp₂, hmeaning₂⟩ := hread₂ tsᵣ hr
    refine ⟨.conditional p p₁ p₂, ?_, Phrase.meaning_conditional hmeaning hmeaning₁ hmeaning₂⟩
    have hwhole := Whole.conditional hp (congrArg Prod.fst hq) hp₁ (congrArg Prod.fst hc) hp₂
    simpa using hwhole

/-- An index follows a head. -/
theorem SpellsHead.access {base position : String} {a i : Expr} (hbase : SpellsHead base a)
    (hchain : a.chain? ≠ none) (hposition : Spells Whole position i) :
    SpellsHead (base ++ "[" ++ position ++ "]") (.access a i) := by
  have hindex := Brackets.square.spells hposition
  rw [String.append_assoc] at hindex
  rw [String.append_assoc, String.append_assoc]
  refine (Brackets.square.append hbase hindex).mono ?_
  rintro _ ⟨ts, _, rfl, ⟨p, hp, hraw⟩, t, tsᵢ, t', rfl, ht, ⟨q, hq, hmeaning⟩, ht'⟩
  refine ⟨.index p t q, ?_, Phrase.raw_index hraw hchain hmeaning⟩
  have hheads := hp.index ht hq ht'
  simpa using hheads

/-! ### Names and literals -/

/-- A name is spelled as a head. In front of anything that does not continue its last word. -/
private theorem IsName.spells {n : String} (hn : IsName n) :
    ∃ ls : List Lexeme, (∃ c cs, n.toList = c :: cs ∧ Token.startsWord c = true) ∧
      (∀ {cs ls'}, (∀ c ∈ cs.head?, Token.continuesWord c = false) → Cuts cs ls' →
        Cuts (n.toList ++ cs) (ls ++ ls')) ∧
      ∀ ts : List Token, ts.map lex = ls → ∃ p, Heads ts p ∧ p.raw = .ok (.plain (.ident n)) := by
  induction hn with
  | @word w hw hkind =>
    refine ⟨[(.word, w)], ?_, ?_, ?_⟩
    · cases hlist : w.toList with
      | nil =>
        rw [hlist] at hw
        exact hw.elim
      | cons c cs =>
        rw [hlist] at hw
        exact ⟨c, cs, rfl, hw.1⟩
    · intro cs ls' hcs hcuts
      have hall := hcuts.word hw hcs
      rwa [hkind, String.ofList_toList] at hall
    · intro ts hts
      obtain ⟨t, ts', rfl, ht, hnil⟩ := List.map_eq_cons_iff.1 hts
      obtain rfl := List.map_eq_nil_iff.1 hnil
      obtain ⟨hkind', htext⟩ := Prod.mk.inj ht
      exact ⟨.name t, Phrase.heads_name hkind', by rw [Phrase.raw, htext]⟩
  | @member n w _ hw hkind hlength ih =>
    obtain ⟨ls, ⟨c, cs, hstart, hc⟩, hcuts, hread⟩ := ih
    refine ⟨ls ++ [(.dot, "."), (.word, w)],
      ⟨c, cs ++ '.' :: w.toList, by simp [hstart], hc⟩, ?_, ?_⟩
    · intro cs ls' hcs hrest
      have hword := hrest.word hw hcs
      rw [hkind, String.ofList_toList] at hword
      -- the point is no part of a number, since a word follows it
      have hdigit : ∀ c ∈ (w.toList ++ cs).head?, c.isDigit = false := by
        cases hlist : w.toList with
        | nil =>
          rw [hlist] at hw
          exact hw.elim
        | cons d ds =>
          rw [hlist] at hw
          rintro e ⟨⟩
          exact Token.isDigit_of_startsWord hw.1
      have hall := hcuts (fun c hc => by
        obtain rfl := Option.some.inj (Option.mem_def.1 hc)
        decide) (hword.dot hdigit)
      simpa using hall
    · intro ts hts
      obtain ⟨tsₕ, ts', rfl, hh, hts'⟩ := List.map_eq_append_iff.1 hts
      obtain ⟨t, ts', rfl, ht, hts'⟩ := List.map_eq_cons_iff.1 hts'
      obtain ⟨t', ts', rfl, ht', hnil⟩ := List.map_eq_cons_iff.1 hts'
      obtain rfl := List.map_eq_nil_iff.1 hnil
      obtain ⟨p, hp, hraw⟩ := hread tsₕ hh
      obtain ⟨hkind', htext⟩ := Prod.mk.inj ht'
      refine ⟨.member p t', hp.member (congrArg Prod.fst ht) hkind', ?_⟩
      rw [Phrase.raw, hraw]
      simp [bind, Except.bind, Phrase.headOf, Phrase.plainOnly, Phrase.memberOf, htext, hlength,
        pure, Except.pure]

theorem IsName.spellsHead {n : String} (hn : IsName n) : SpellsHead n (.ident n) := by
  obtain ⟨ls, ⟨c, cs, hstart, hc⟩, hcuts, hread⟩ := hn.spells
  refine ⟨ls, ⟨⟨c, cs, hstart, Token.isBlank_of_startsWord hc, ?_⟩, ?_⟩, hread⟩
  · rintro rfl
    exact absurd hc (by decide)
  · exact fun hcs => hcuts hcs.continuesWord

/-- A token that is a phrase by itself is spelled as a head. -/
theorem spellsHead_token {text : String} {e : Expr} (kind : TokenKind)
    (hstarts : ∃ c cs, text.toList = c :: cs ∧ Text.isBlank c = false ∧ c ≠ '=')
    (hcuts : ∀ {cs ls}, Ends cs → Cuts cs ls → Cuts (text.toList ++ cs) ((kind, text) :: ls))
    (hread : ∀ t : Token, lex t = (kind, text) → ∃ p, Heads [t] p ∧ p.raw = .ok (.plain e)) :
    SpellsHead text e := by
  refine ⟨[(kind, text)], ⟨hstarts, hcuts⟩, fun ts hts => ?_⟩
  obtain ⟨t, ts', rfl, ht, hnil⟩ := List.map_eq_cons_iff.1 hts
  obtain rfl := List.map_eq_nil_iff.1 hnil
  exact hread t ht

theorem spellsHead_true : SpellsHead "true" (.bool true) := by
  refine spellsHead_token .trueWord ⟨'t', ['r', 'u', 'e'], rfl, by decide, by decide⟩
    (fun hcs hcuts => ?_)
    fun t ht => ⟨.truth t true, Phrase.heads_true (congrArg Prod.fst ht), rfl⟩
  exact hcuts.word (w := "true".toList) (by decide) hcs.continuesWord

theorem spellsHead_false : SpellsHead "false" (.bool false) := by
  refine spellsHead_token .falseWord ⟨'f', ['a', 'l', 's', 'e'], rfl, by decide, by decide⟩
    (fun hcs hcuts => ?_) fun t ht =>
      ⟨.truth t false, Phrase.heads_false (congrArg Prod.fst ht), rfl⟩
  exact hcuts.word (w := "false".toList) (by decide) hcs.continuesWord

/-- The constant that a constant is **shown** as: what is inherited has the name of `π`. -/
def NamedConstant.shown : NamedConstant → NamedConstant
  | .e => .e
  | .pi | .inherited _ => .pi

/-- A constant is spelled as its name. -/
theorem spells_constant (c : NamedConstant) :
    Spells (Fits 0) c.name (.lit (.constant c.shown)) := by
  have hnames : IsQualified "Math.E" ∧ IsQualified "Math.PI" := by decide +kernel
  cases c with
  | e => exact hnames.1.isName.spellsHead.spells fun q => rfl
  | pi | inherited m => exact hnames.2.isName.spellsHead.spells fun q => rfl

end ChartNet
