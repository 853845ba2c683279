import ChartNet.Proofs.Number.Printing
import ChartNet.Proofs.Source.Spelling

/-!
# Calls and literals

Calls and list literals are spelled by brackets around **items** with commas between them. A number
is spelled by its text, since numerals read back; only the sign of a zero is lost. The text of an
array value shows the kind of its numbers by each of them, so a list without numbers shows none.
-/

namespace ChartNet

open Phrase (Fits Whole Items)

/-! ### Texts with commas between them -/

/-- Texts with commas between them spell items. -/
theorem spellsThat_intercalate {α : Type} {good : Phrase → α → Prop} {texts : List String}
    {as : List α}
    (h : List.Forall₂ (fun text a => SpellsThat text fun ts => ∃ p, Whole ts p ∧ good p a) texts as)
    (hne : as ≠ []) : SpellsThat (", ".intercalate texts) fun ts =>
      ∃ ps, Items ts ps ∧ List.Forall₂ good ps as := by
  induction h with
  | nil => exact absurd rfl hne
  | @cons text a texts as htext hrest ih =>
    cases hrest with
    | nil =>
      rw [String.intercalate_singleton]
      refine htext.mono ?_
      rintro ts ⟨p, hp, hgood⟩
      exact ⟨[p], .one hp, .cons hgood .nil⟩
    | @cons text' a' texts as htext' hrest =>
      obtain ⟨ls, hwrites, hread⟩ := htext
      obtain ⟨ls', hwrites', hread'⟩ := ih (by simp)
      rw [String.intercalate_cons_cons]
      refine ⟨ls ++ (.comma, ",") :: ls', ⟨?_, ?_⟩, ?_⟩
      · obtain ⟨c, cs, hstart, hc⟩ := hwrites.starts
        exact ⟨c, cs ++ ", ".toList ++ (", ".intercalate (text' :: texts)).toList, by simp [hstart],
          hc⟩
      · intro cs ls'' hcs hcuts
        have hcomma : Token.Cuts (',' :: _) ((.comma, ",") :: _) :=
          (hwrites'.blank hcs hcuts).mark (by decide)
        have hall := hwrites.cuts (ends_cons (by decide) _) hcomma
        simpa using hall
      · intro ts hts
        obtain ⟨ts₁, ts', rfl, h₁, hts'⟩ := List.map_eq_append_iff.1 hts
        obtain ⟨t, ts₂, rfl, ht, h₂⟩ := List.map_eq_cons_iff.1 hts'
        obtain ⟨p, hp, hgood⟩ := hread ts₁ h₁
        obtain ⟨ps, hps, hall⟩ := hread' ts₂ h₂
        exact ⟨p :: ps, .cons hp (congrArg Prod.fst ht) hps, .cons hgood hall⟩

/-! ### Calls -/

/-- The operands of phrases are what they mean. -/
private theorem rawOperands_eq {ps : List Phrase} {es : List Expr}
    (h : List.Forall₂ (fun p e => p.meaning = .ok (.plain e)) ps es) :
    Phrase.rawOperands ps = .ok es := by
  induction h with
  | nil => rfl
  | cons hp _ ih =>
    rw [Phrase.rawOperands, Phrase.operand_of_meaning hp, ih]
    rfl

/-- A name with arguments is a call. -/
theorem SpellsHead.call {name : String} {texts : List String} {args : List Expr} {e : Expr}
    (hname : IsName name) (hargs : List.Forall₂ (Spells Whole) texts args) (hne : args ≠ [])
    (hcall : ∀ place, buildCall name args place = .ok e) :
    SpellsHead (name ++ "(" ++ ", ".intercalate texts ++ ")") e := by
  have hitems := Brackets.round.spells (spellsThat_intercalate hargs hne)
  rw [String.append_assoc] at hitems
  rw [String.append_assoc, String.append_assoc]
  refine (Brackets.round.append hname.spellsHead hitems).mono ?_
  rintro _ ⟨ts, _, rfl, ⟨p, hp, hraw⟩, t, tsᵢ, t', rfl, ht, ⟨ps, hps, hmeanings⟩, ht'⟩
  refine ⟨.call p t ps, ?_, ?_⟩
  · have hheads := hp.call ht hps ht'
    simpa using hheads
  · rw [Phrase.raw, hraw]
    simp [Phrase.headOf, Phrase.plainOnly, rawOperands_eq hmeanings, hcall, bind, Except.bind, pure,
      Except.pure]

/-- The uniform distribution is spelled as a call without arguments. -/
theorem spells_random : SpellsHead (randomName ++ "()") (.uniform 0 1) := by
  have hname : IsQualified randomName := by decide +kernel
  refine (Brackets.round.append hname.isName.spellsHead Brackets.round.spells_nil).mono ?_
  rintro _ ⟨ts, _, rfl, ⟨p, hp, hraw⟩, t, t', rfl, ht, ht'⟩
  refine ⟨.call p t [], hp.call_nil ht ht', ?_⟩
  have huniform : Expr.mkUniform 0 1 = .ok (.uniform 0 1) := if_pos (by decide +kernel)
  rw [Phrase.raw, hraw]
  simp [Phrase.headOf, Phrase.plainOnly, Phrase.rawOperands, buildCall, huniform, bind, Except.bind,
    pure, Except.pure]

/-- The operands of an operator are as many as its roles. -/
theorem Opcode.length_of_apply? {op : Opcode} {args : List Expr} {e : Expr}
    (h : op.apply? args = some e) : args.length = op.roles.length := by
  unfold Opcode.apply? at h
  split at h <;> first | rfl | cases h

/-- **A call of a function with operands for its operator gives the operator expression.** -/
theorem buildCall_eq {f : Function} {args : List Expr} {e : Expr} (hf : f ∈ functions)
    (happly : f.op.apply? args = some e)
    (hnames : ∀ p ∈ f.op.roles.zip args, p.1 ∈ f.nameRoles → p.2.isIdent = true)
    (place : Option Place) : buildCall f.name args place = .ok e := by
  have hnodup : (functions.map (·.name)).Nodup := by decide +kernel
  have hrandom : ∀ f ∈ functions, f.name ≠ randomName := by decide +kernel
  have hfind : functions.find? (·.name == f.name) = some f := by
    obtain ⟨g, hg⟩ := Option.isSome_iff_exists.1
      (List.find?_isSome.2 ⟨f, hf, by simp⟩ : (functions.find? (·.name == f.name)).isSome = true)
    have hname : g.name = f.name := by simpa using List.find?_some hg
    rw [hg, List.inj_on_of_nodup_map hnodup (List.mem_of_find?_eq_some hg) hf hname]
  have hlength := Opcode.length_of_apply? happly
  have hplain : (f.op.roles.zip args).find?
      (fun p => f.nameRoles.contains p.1 && !p.2.isIdent) = none := by
    rw [List.find?_eq_none]
    intro p hp
    simpa using hnames p hp
  rw [buildCall, if_neg (hrandom f hf), hfind]
  simp only [hlength, if_true, hplain, happly]
  cases f.defaultLast <;> simp

/-! ### Numbers -/

/-- A numeral is a number token that stands for its value. -/
private theorem spellsHead_numeral {kind : NumKind} {cs front fraction exponent : List Char}
    (h : Token.IsNumeral cs front fraction exponent)
    (hkind : kind = .real ↔ fraction ≠ [] ∨ exponent ≠ []) :
    SpellsHead (String.ofList cs) (.lit (.num kind (Number.ofNumeral cs))) := by
  refine spellsHead_token .number ?_ (fun hcs hcuts => ?_) fun t ht => ?_
  · obtain ⟨c, cs', hcs⟩ := List.exists_cons_of_ne_nil h.front.1
    have hc : c.isDigit = true := h.front.2 c (by simp [hcs])
    refine ⟨c, cs' ++ fraction ++ exponent, by simp [h.eq, hcs], Token.isBlank_of_isDigit hc, ?_⟩
    rintro rfl
    exact absurd hc (by decide)
  · have hall := hcuts.numeral h hcs
    simpa using hall
  · obtain ⟨htkind, htext⟩ := Prod.mk.inj ht
    refine ⟨.number t, Phrase.heads_number htkind, ?_⟩
    have hiff := Number.any_point_iff h (p := fun c => c == '.' || c == 'e' || c == 'E') rfl rfl
      fun c hc => by simp [Number.ne_of_isDigit hc]
    rw [Phrase.raw, Token.numberValue, htext, String.toList_ofList]
    cases kind with
    | real => rw [if_pos (hiff.2 (hkind.1 rfl))]; rfl
    | int => rw [if_neg (fun hany => absurd (hkind.2 (hiff.1 hany)) nofun)]; rfl

/-- **A printable number is spelled by its text**, and a zero loses its sign. -/
theorem spells_number {kind : NumKind} {x : Float} (h : kind.Printable x) (hint : kind.Holds x) :
    Spells (Fits 0) (kind.print x) (.lit (.num kind (Number.unsignedZero x))) := by
  obtain ⟨cs, front, fraction, exponent, hnumeral, hkind, hprint, hread⟩ :=
    NumKind.print_spec h hint
  have hspells : Spells (Fits 0) (String.ofList cs) (.lit (.num kind (Number.ofNumeral cs))) :=
    (spellsHead_numeral hnumeral hkind).spells fun q => rfl
  rw [hprint, ← hread]
  split
  · exact hspells.minus
  · rw [String.empty_append]
    exact hspells

/-! ### Array values -/

mutual

/-- An element whose zeros have no sign. -/
def Element.unsignedZeros : Element → Element
  | .num x => .num (Number.unsignedZero x)
  | .list items => .list (unsignedZerosOf items)

/-- Elements whose zeros have no sign. -/
def Element.unsignedZerosOf : List Element → List Element
  | [] => []
  | el :: els => el.unsignedZeros :: unsignedZerosOf els

end

theorem Element.unsignedZerosOf_eq_map (els : List Element) :
    unsignedZerosOf els = els.map unsignedZeros := by
  induction els with
  | nil => rfl
  | cons el els ih => rw [unsignedZerosOf, ih, List.map_cons]

/-- The kind that the text of an element shows: without numbers it shows none. -/
def Element.shownKind (base : NumKind) (el : Element) : NumKind :=
  if el.numbers = [] then .int else base

/-- A text spells an element of a list literal. -/
def SpellsElement (text : String) (x : NumKind × Element) : Prop :=
  SpellsThat text fun ts => ∃ p, Whole ts p ∧ ∃ m, p.meaning = .ok m ∧ Phrase.elementOf p m = .ok x

/-- The elements of phrases, in order. -/
private theorem rawElements_eq {ps : List Phrase} {xs : List (NumKind × Element)}
    (h : List.Forall₂ (fun p x => ∃ m, p.meaning = .ok m ∧ Phrase.elementOf p m = .ok x) ps xs) :
    Phrase.rawElements ps = .ok xs := by
  induction h with
  | nil => rfl
  | cons hp _ ih =>
    obtain ⟨m, hm, hel⟩ := hp
    have hwhole : Phrase.whole _ (Phrase.raw _) = .ok m := hm
    rw [Phrase.rawElements, hwhole, ih]
    simp [hel, bind, Except.bind, pure, Except.pure]

/-- The kinds that elements show join to the kind that their list shows. -/
private theorem foldl_shownKind (base : NumKind) (els : List Element) (kind : NumKind) :
    (els.map fun el => (el.shownKind base, el.unsignedZeros)).foldl (fun k x => k.join x.1) kind =
      kind.join (Element.shownKind base (.list els)) := by
  induction els generalizing kind with
  | nil => cases kind <;> simp [Element.shownKind, Element.numbers, Element.numbersOf, NumKind.join]
  | cons el els ih =>
    rw [List.map_cons, List.foldl_cons, ih]
    simp only [Element.shownKind, Element.numbers, Element.numbersOf, List.append_eq_nil_iff]
    by_cases hel : el.numbers = [] <;> by_cases hels : Element.numbersOf els = [] <;>
      cases kind <;> cases base <;> simp [hel, hels, NumKind.join]

/-- A list literal is spelled by brackets around its elements. -/
theorem spells_list {texts : List String} {xs : List (NumKind × Element)}
    (h : List.Forall₂ SpellsElement texts xs) :
    SpellsThat ("[" ++ ", ".intercalate texts ++ "]") fun ts => ∃ p, Whole ts p ∧
      p.meaning = .ok (.literal .list ⟨xs.foldl (fun k x => k.join x.1) .int, xs.map (·.2)⟩) := by
  have hmeaning {t : Token} {ps : List Phrase}
      (hps : List.Forall₂ (fun p x => ∃ m, p.meaning = .ok m ∧
        Phrase.elementOf p m = .ok x) ps xs) :
      (Phrase.list t ps).meaning =
        .ok (.literal .list ⟨xs.foldl (fun k x => k.join x.1) .int, xs.map (·.2)⟩) := by
    rw [Phrase.meaning, Phrase.raw, rawElements_eq hps]
    rfl
  by_cases hne : xs = []
  · subst hne
    cases h
    refine (Brackets.square.spells_nil).mono ?_
    rintro _ ⟨t, t', rfl, ht, ht'⟩
    exact ⟨.list t [], ((Phrase.heads_list_nil ht ht').fits.mono (by decide)).whole, hmeaning .nil⟩
  · refine (Brackets.square.spells (spellsThat_intercalate h hne)).mono ?_
    rintro _ ⟨t, ts, t', rfl, ht, ⟨ps, hitems, hps⟩, ht'⟩
    exact ⟨.list t ps, ((hitems.list ht ht').fits.mono (by decide)).whole, hmeaning hps⟩

/-- A list literal shows the kind of its numbers. -/
private theorem spells_elements {texts : List String} {base : NumKind} {els : List Element}
    (h : List.Forall₂ SpellsElement texts (els.map
      fun el => (el.shownKind base, el.unsignedZeros))) :
    SpellsThat ("[" ++ ", ".intercalate texts ++ "]") fun ts => ∃ p, Whole ts p ∧ p.meaning =
      .ok (.literal .list ⟨Element.shownKind base (.list els), Element.unsignedZerosOf els⟩) := by
  refine (spells_list h).mono ?_
  rintro ts ⟨p, hp, hmeaning⟩
  refine ⟨p, hp, hmeaning.trans ?_⟩
  rw [foldl_shownKind, Element.unsignedZerosOf_eq_map]
  cases Element.shownKind base (.list els) <;> simp [NumKind.join]

mutual

/-- **An element is spelled by its text.** -/
theorem spellsElement_print (base : NumKind) : ∀ el : Element,
    (∀ x ∈ el.numbers, base.Printable x ∧ base.Holds x) →
      SpellsElement (el.print base) (el.shownKind base, el.unsignedZeros)
  | .num x, h => by
    obtain ⟨hprintable, hholds⟩ := h x (by simp [Element.numbers])
    refine SpellsThat.mono (spells_number hprintable hholds) ?_
    rintro ts ⟨p, hp, hmeaning⟩
    refine ⟨p, (hp.mono (by decide)).whole, _, hmeaning, ?_⟩
    simp [Phrase.elementOf, Element.shownKind, Element.numbers, Element.unsignedZeros]
  | .list items, h => by
    refine (spells_elements (spellsElement_printAll base items h)).mono ?_
    rintro ts ⟨p, hp, hmeaning⟩
    exact ⟨p, hp, _, hmeaning, by rw [Phrase.elementOf, Element.unsignedZeros]⟩

/-- Elements are spelled by their texts. -/
theorem spellsElement_printAll (base : NumKind) : ∀ els : List Element,
    (∀ x ∈ Element.numbersOf els, base.Printable x ∧ base.Holds x) →
      List.Forall₂ SpellsElement (Element.printAll base els)
        (els.map fun el => (el.shownKind base, el.unsignedZeros))
  | [], _ => .nil
  | el :: els, h => by
    rw [Element.numbersOf, List.forall_mem_append] at h
    exact .cons (spellsElement_print base el h.1) (spellsElement_printAll base els h.2)

end

/-- **An array value is spelled by its text.** -/
theorem spells_array {v : ArrayValue} (hv : v.Written)
    (hprintable : ∀ x ∈ Element.numbersOf v.elements, v.base.Printable x) :
    SpellsThat (Element.print v.base (.list v.elements)) fun ts => ∃ p, Whole ts p ∧
      p.meaning = .ok (.literal .list ⟨v.base, Element.unsignedZerosOf v.elements⟩) := by
  have hshown : Element.shownKind v.base (.list v.elements) = v.base := by
    rw [Element.shownKind, Element.numbers]
    split
    · rename_i hnone
      cases hbase : v.base with
      | int => rfl
      | real => exact absurd hnone (hv.real hbase)
    · rfl
  have hspells := spells_elements (spellsElement_printAll v.base v.elements fun x hx =>
    ⟨hprintable x hx, hv.holds x hx⟩)
  rw [hshown] at hspells
  rw [Element.print]
  exact hspells

end ChartNet
