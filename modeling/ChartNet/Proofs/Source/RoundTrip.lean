import ChartNet.Proofs.Expr.Kinds
import ChartNet.Proofs.Source.Literals

/-!
# Printing and parsing

**Parsing inverts printing.** An expression that a text means is printed, and its own text means the
same again. Three things keep this from holding of all expressions: a text shows neither the sign of
a zero nor numbers that are not finite, ints beyond `10 ^ 21` are written with an exponent, which
makes them reals, and members that the table of constants inherits are read as constants, but
printed as `π`.

The printer puts an operand into parentheses by comparing **levels**. The level of an expression
says in which form its text is read by itself, and the comparison says when that form is enough for
its place.
-/

namespace ChartNet

open Phrase (Fits Chains Whole)

/-! ### Levels -/

/-- The **form** that the text of an expression of a level is read in. -/
def Form (n : Nat) : List Token → Phrase → Prop :=
  if n ≤ 1 then Whole else if n < 8 then Chains (7 - n) else Fits 0

section Levels

variable {n m : Nat} {ts : List Token} {p : Phrase} {text : String} {e : Expr}

/-- What is of a tighter level than `m` is an operand of the level. -/
theorem Form.fits (h : Form n ts p) (hm : 1 ≤ m) (hm' : m ≤ 7) (hlt : m < n) :
    Fits (7 - m) ts p := by
  rw [Form, if_neg (by omega)] at h
  split at h
  · exact h.fits.mono (by omega)
  · exact h.mono (by omega)

/-- What is not of a looser level than `m` starts a chain of the level. -/
theorem Form.chains (h : Form n ts p) (hm : 2 ≤ m) (hm' : m ≤ 7) (hle : m ≤ n) :
    Chains (7 - m) ts p := by
  rcases Nat.eq_or_lt_of_le hle with rfl | hlt
  · rwa [Form, if_neg (by omega), if_pos (by omega)] at h
  · exact (h.fits (by omega) hm' hlt).chains

theorem Form.whole (h : Form n ts p) : Whole ts p := by
  by_cases hn : n ≤ 1
  · rwa [Form, if_pos hn] at h
  · exact (h.fits (m := 1) (by decide) (by decide) (by omega)).whole

theorem Spells.whole (h : Spells (Form n) text e) : Spells Whole text e :=
  h.mono fun _ _ => Form.whole

/-- Parentheses where they are needed make an operand. -/
theorem Spells.operand (h : Spells (Form n) text e) (hm : 1 ≤ m) (hm' : m ≤ 7) :
    Spells (Fits (7 - m)) (parenthesized (n ≤ m) text) e := by
  by_cases hn : n ≤ m
  · rw [parenthesized, if_pos (decide_eq_true hn)]
    exact h.whole.group.mono fun _ _ hp => hp.mono (by omega)
  · rw [parenthesized, if_neg (by simpa using hn)]
    exact h.mono fun _ _ hp => hp.fits hm hm' (by omega)

/-- Parentheses where they are needed make the left end of a chain. -/
theorem Spells.chain (h : Spells (Form n) text e) (hm : 2 ≤ m) (hm' : m ≤ 7) :
    Spells (Chains (7 - m)) (parenthesized (n < m) text) e := by
  by_cases hn : n < m
  · rw [parenthesized, if_pos (decide_eq_true hn)]
    exact h.whole.group.mono fun _ _ hp => (hp.mono (by omega)).chains
  · rw [parenthesized, if_neg (by simpa using hn)]
    exact h.mono fun _ _ hp => hp.chains hm hm' (by omega)

end Levels

/-! ### Numbers in expressions -/

namespace Expr

/-- The **numbers** in an expression, with their kinds. -/
def numbers : Expr → List (NumKind × Float)
  | lit (.num kind x) => [(kind, x)]
  | array v => (Element.numbersOf v.elements).map (v.base, ·)
  | unary _ a => a.numbers
  | binary _ a b => a.numbers ++ b.numbers
  | ternary _ a b c => a.numbers ++ b.numbers ++ c.numbers
  | quaternary _ a b c d => a.numbers ++ b.numbers ++ c.numbers ++ d.numbers
  | _ => []

/-- The expression whose zeros have no sign. -/
def unsignedZeros : Expr → Expr
  | lit (.num kind x) => lit (.num kind (Number.unsignedZero x))
  | array v => array ⟨v.base, Element.unsignedZerosOf v.elements⟩
  | unary op a => unary op a.unsignedZeros
  | binary op a b => binary op a.unsignedZeros b.unsignedZeros
  | ternary op a b c => ternary op a.unsignedZeros b.unsignedZeros c.unsignedZeros
  | quaternary op a b c d =>
    quaternary op a.unsignedZeros b.unsignedZeros c.unsignedZeros d.unsignedZeros
  | e => e

/-- What the text of an expression **shows** of it: its zeros have no sign, and constants are as
their names show them. -/
def shown : Expr → Expr
  | lit (.num kind x) => lit (.num kind (Number.unsignedZero x))
  | lit (.constant c) => lit (.constant c.shown)
  | array v => array ⟨v.base, Element.unsignedZerosOf v.elements⟩
  | unary op a => unary op a.shown
  | binary op a b => binary op a.shown b.shown
  | ternary op a b c => ternary op a.shown b.shown c.shown
  | quaternary op a b c d =>
    quaternary op a.shown b.shown c.shown d.shown
  | e => e

/-- Only expressions that are declared are shown as they are, up to the signs of zeros. -/
theorem shown_eq_unsignedZeros {e : Expr} : e.shown = e.unsignedZeros ↔ e.Declared := by
  induction e with
  | ident n | uniform l u | array v => exact iff_of_true rfl trivial
  | lit v =>
    cases v with
    | bool b | num k x => exact iff_of_true rfl trivial
    | constant c => cases c <;> simp [shown, unsignedZeros, NamedConstant.shown, Declared,
        Literal.Declared, NamedConstant.Declared]
  | unary op a iha => simp [shown, unsignedZeros, Declared, iha]
  | binary op a b iha ihb => simp [shown, unsignedZeros, Declared, iha, ihb]
  | ternary op a b c iha ihb ihc => simp [shown, unsignedZeros, Declared, iha, ihb, ihc]
  | quaternary op a b c d iha ihb ihc ihd =>
    simp [shown, unsignedZeros, Declared, iha, ihb, ihc, ihd]

/-- An expression is **printable** if its numbers are. -/
def Printable (e : Expr) : Prop := ∀ p ∈ e.numbers, p.1.Printable p.2

instance (e : Expr) : Decidable e.Printable :=
  inferInstanceAs (Decidable (∀ p ∈ e.numbers, p.1.Printable p.2))

end Expr

/-! ### Calls -/

theorem Expr.isIdent_shown (e : Expr) : e.shown.isIdent = e.isIdent := by
  cases e with
  | lit v => cases v <;> rfl
  | _ => rfl

theorem Opcode.apply?_shown {op : Opcode} {args : List Expr} {e : Expr}
    (h : op.apply? args = some e) :
    op.apply? (args.map Expr.shown) = some e.shown := by
  unfold Opcode.apply? at h
  split at h <;> cases h <;> rfl

/-- The operands of a printable operator expression are printable. -/
theorem Expr.Printable.of_apply? {op : Opcode} {args : List Expr} {e : Expr} (he : e.Printable)
    (h : op.apply? args = some e) : ∀ a ∈ args, a.Printable := by
  intro a ha x hx
  refine he x ?_
  unfold Opcode.apply? at h
  split at h <;> cases h <;> simp only [List.mem_cons, List.not_mem_nil, or_false] at ha <;>
    simp only [Expr.numbers, List.mem_append] <;> aesop

/-- The operator of a function is printed as a call of it. -/
theorem print_of_apply? {f : Function} {args : List Expr} {texts : List String} {e : Expr}
    (hf : f ∈ functions) (happly : f.op.apply? args = some e)
    (hprint : List.Forall₂ (fun a t => a.print = .ok t) args texts) :
    e.print = .ok (f.name ++ "(" ++ ", ".intercalate texts ++ ")") ∧ e.level = atomLevel := by
  have hname : ∀ f ∈ functions, f.op.functionName? = some f.name := by decide +kernel
  have hfunction := hname f hf
  generalize f.op = op at happly hfunction
  unfold Opcode.apply? at happly
  split at happly
  · rename_i op a
    cases happly
    obtain _ | ⟨ha, _ | _⟩ := hprint
    cases op <;> first
      | cases hfunction
      | exact ⟨by simp [Expr.print, ha, Opcode.printCall, hfunction, bind, Except.bind], rfl⟩
  · rename_i op a b
    cases happly
    obtain _ | ⟨ha, _ | ⟨hb, _ | _⟩⟩ := hprint
    cases op <;> first
      | cases hfunction
      | exact ⟨by simp [Expr.print, BinaryOp.infixForm?, ha, hb, Opcode.printCall, hfunction, bind,
          Except.bind], rfl⟩
  · rename_i op a b c
    cases happly
    obtain _ | ⟨ha, _ | ⟨hb, _ | ⟨hc, _ | _⟩⟩⟩ := hprint
    cases op <;> first
      | cases hfunction
      | exact ⟨by simp [Expr.print, ha, hb, hc, Opcode.printCall, hfunction, bind,
        Except.bind], rfl⟩
  · rename_i op a b c d
    cases happly
    obtain _ | ⟨ha, _ | ⟨hb, _ | ⟨hc, _ | ⟨hd, _ | _⟩⟩⟩⟩ := hprint
    exact ⟨by simp [Expr.print, ha, hb, hc, hd, Opcode.printCall, hfunction, bind,
      Except.bind], rfl⟩
  · cases happly

/-! ### Printing -/

/-- A text **spells** an expression for a use: a path as a head, a value in the form of its
level. -/
def SpellsFor (text : String) (e : Expr) : Use → Prop
  | .path => SpellsHead text e.shown ∧ e.shown.chain? ≠ none ∧ e.level = atomLevel
  | .value => Spells (Form e.level) text e.shown

/-- What is spelled as an operand of the tightest level has the form of a tight level. -/
theorem Spells.form {n : Nat} {text : String} {e : Expr} (h : Spells (Fits 0) text e) (hn : 8 ≤ n) :
    Spells (Form n) text e := by
  rwa [Form, if_neg (by omega), if_neg (by omega)]

/-- A head that is not a name is a value. -/
theorem SpellsHead.form {n : Nat} {text : String} {e : Expr} (h : SpellsHead text e)
    (hident : ∀ x, e ≠ .ident x) (hn : 8 ≤ n) : Spells (Form n) text e :=
  (h.spells fun q => Phrase.resolve_plain q hident).form hn

private theorem eight_le_atomLevel : 8 ≤ atomLevel := by decide

private theorem spellsFor_literal {v : Literal} (hv : v.Written) (hp : (Expr.lit v).Printable) :
    SpellsFor v.print (.lit v) .value := by
  cases v with
  | bool b =>
    cases b with
    | false => exact spellsHead_false.form nofun eight_le_atomLevel
    | true => exact spellsHead_true.form nofun eight_le_atomLevel
  | num kind x =>
    have hlevel : 8 ≤ (Expr.lit (.num kind x)).level := by
      rw [Expr.level]
      split <;> decide
    exact (spells_number (hp (kind, x) (List.mem_singleton.2 rfl)) hv).form hlevel
  | constant c => exact (spells_constant c).form eight_le_atomLevel

/-- The level of an infix operator is that of chains. -/
theorem BinaryOp.level_infixForm? {op : BinaryOp} {n : Nat} {symbol : String}
    (hop : op.infixForm? = some (n, symbol)) : 2 ≤ n ∧ n ≤ 7 := by
  cases op <;> cases hop <;> decide

/-- Operands that are printed have texts. -/
private theorem exists_texts {args : List Expr}
    (h : ∀ a ∈ args, ∃ text, a.print = .ok text ∧ Spells Whole text a.shown) :
    ∃ texts, List.Forall₂ (fun a t => a.print = .ok t) args texts ∧
      List.Forall₂ (Spells Whole) texts (args.map Expr.shown) := by
  induction args with
  | nil => exact ⟨[], .nil, .nil⟩
  | cons a as ih =>
    rw [List.forall_mem_cons] at h
    obtain ⟨text, htext, hspells⟩ := h.1
    obtain ⟨texts, htexts, hall⟩ := ih h.2
    exact ⟨text :: texts, .cons htext htexts, .cons hspells hall⟩

/-- A call is spelled by the name of its function and its operands. -/
private theorem spells_call {f : Function} {args : List Expr} {texts : List String} {e : Expr}
    (hf : f ∈ functions) (happly : f.op.apply? args = some e)
    (hnames : ∀ p ∈ f.op.roles.zip args, p.1 ∈ f.nameRoles → p.2.isIdent = true)
    (hargs : List.Forall₂ (Spells Whole) texts (args.map Expr.shown)) :
    Spells (Form atomLevel) (f.name ++ "(" ++ ", ".intercalate texts ++ ")") e.shown := by
  have hname : ∀ f ∈ functions, IsQualified f.name := by decide +kernel
  have happly' := Opcode.apply?_shown happly
  have hne : args.map Expr.shown ≠ [] := by
    have hroles : f.op.roles ≠ [] := by cases f.op <;> simp [Opcode.roles]
    rw [Ne, List.map_eq_nil_iff, ← List.length_eq_zero_iff, Opcode.length_of_apply? happly,
      List.length_eq_zero_iff]
    exact hroles
  have hnames' : ∀ p ∈ f.op.roles.zip (args.map Expr.shown), p.1 ∈ f.nameRoles →
      p.2.isIdent = true := by
    rw [List.zip_map_right]
    intro p hp hrole
    obtain ⟨q, hq, rfl⟩ := List.mem_map.1 hp
    exact (Expr.isIdent_shown q.2).trans (hnames q hq hrole)
  refine (SpellsHead.call (hname f hf).isName hargs hne (buildCall_eq hf happly' hnames')).form ?_
    (by decide)
  intro x hx
  have hchain := Expr.chain?_of_apply hf happly'
  rw [hx] at hchain
  cases hchain

/-- **What can be written is spelled by its text.** -/
theorem Expr.Written.print {use : Use} {e : Expr} (h : e.Written use) (hp : e.Printable) :
    ∃ text, e.print = .ok text ∧ SpellsFor text e use := by
  induction h with
  | path hn => exact ⟨_, rfl, hn.spellsHead, Option.some_ne_none _, rfl⟩
  | @name n hn hvalue =>
    have hresolve (q : Phrase) : q.resolve (.plain (.ident n)) = .ok (.plain (.ident n)) := by
      simp only [Phrase.resolve, hvalue.1, hvalue.2, Bool.false_eq_true, if_false]
    exact ⟨_, rfl, (hn.spellsHead.spells hresolve).form eight_le_atomLevel⟩
  | @access use a i _ _ iha ihi =>
    have hparts := hp.of_apply? (rfl : Opcode.apply? (.binary .access) [a, i] = _)
    obtain ⟨base, hbase, hhead, hchain, hlevel⟩ := iha (hparts a (by simp))
    obtain ⟨position, hposition, hspells⟩ := ihi (hparts i (by simp))
    have hprint : (Expr.access a i).print = .ok (base ++ "[" ++ position ++ "]") := by
      simp [Expr.access, Expr.print, BinaryOp.infixForm?, hbase, hposition, hlevel, parenthesized,
        bind, Except.bind, pure, Except.pure]
    have hspells' := hhead.access hchain hspells.whole
    refine ⟨_, hprint, ?_⟩
    cases use with
    | path => exact ⟨hspells', by simpa [Expr.access, shown, chain?] using hchain, rfl⟩
    | value => exact hspells'.form (fun _ => Expr.noConfusion) eight_le_atomLevel
  | literal hv => exact ⟨_, rfl, spellsFor_literal hv hp⟩
  | random =>
    exact ⟨_, if_pos (by decide +kernel),
    spells_random.form (fun _ => Expr.noConfusion) eight_le_atomLevel⟩
  | @negation a _ iha =>
    obtain ⟨text, htext, hspells⟩ := iha hp
    have hneeded : decide (a.level < unaryLevel) = decide (a.level ≤ 7) :=
      decide_eq_decide.2 Nat.lt_succ_iff
    have hprint : (Expr.not a).print = .ok ("!" ++ parenthesized (a.level ≤ 7) text) := by
      simp [Expr.not, Expr.print, htext, hneeded, bind, Except.bind, pure, Except.pure]
    exact ⟨_, hprint, (hspells.operand (by decide) le_rfl).negation.form le_rfl⟩
  | @operator op n symbol a b hop _ _ iha ihb =>
    have hparts := hp.of_apply? (rfl : Opcode.apply? (.binary op) [a, b] = _)
    obtain ⟨left, hleft, hspells⟩ := iha (hparts a (by simp))
    obtain ⟨right, hright, hspells'⟩ := ihb (hparts b (by simp))
    obtain ⟨hlow, hhigh⟩ := BinaryOp.level_infixForm? hop
    have hprint : (Expr.binary op a b).print = .ok (parenthesized (a.level < n) left ++ " " ++
        symbol ++ " " ++ parenthesized (b.level ≤ n) right) := by
      simp [Expr.print, hop, hleft, hright, bind, Except.bind, pure, Except.pure]
    have hlevel : (Expr.binary op a b).level = n := by simp [Expr.level, hop]
    refine ⟨_, hprint, ?_⟩
    have hchain := Spells.operator hop (by omega) (hspells.chain hlow hhigh)
      (hspells'.operand (by omega) hhigh)
    rw [SpellsFor, hlevel, Form, if_neg (by omega), if_pos (by omega)]
    exact hchain
  | @call f args e hf happly hnames hargs ih =>
    have hparts := hp.of_apply? happly
    obtain ⟨texts, hprint, hspells⟩ := exists_texts fun a ha => by
      obtain ⟨text, htext, hspells⟩ := ih a ha (hparts a ha)
      exact ⟨text, htext, hspells.whole⟩
    obtain ⟨hprint, hlevel⟩ := print_of_apply? hf happly hprint
    refine ⟨_, hprint, ?_⟩
    rw [SpellsFor, hlevel]
    exact spells_call hf happly hnames hspells
  | @conditional t a b _ _ _ iht iha ihb =>
    have hparts := hp.of_apply? (rfl : Opcode.apply? (.ternary .ite) [t, a, b] = _)
    obtain ⟨test, htest, hspells⟩ := iht (hparts t (by simp))
    obtain ⟨left, hleft, hspells₁⟩ := iha (hparts a (by simp))
    obtain ⟨right, hright, hspells₂⟩ := ihb (hparts b (by simp))
    have hprint : (Expr.ite t a b).print = .ok (parenthesized (t.level ≤ conditionalLevel) test ++
        " ? " ++ left ++ " : " ++ right) := by
      simp [Expr.ite, Expr.print, htest, hleft, hright, bind, Except.bind, pure, Except.pure]
    refine ⟨_, hprint, ?_⟩
    exact (hspells.operand le_rfl (by decide)).conditional hspells₁.whole hspells₂.whole

/-! ### Reading back -/

namespace Source

/-- A text that is spelled is read as what it spells. -/
theorem read_of_spells {text : String} {m : Meaning}
    (h : SpellsThat text fun ts => ∃ p, Whole ts p ∧ p.meaning = .ok m) :
    read text = .ok ⟨text, m⟩ := by
  obtain ⟨ls, hwrites, hread⟩ := h
  have hcuts := hwrites.cuts (by simp [Token.Ends]) Token.cuts_nil
  rw [List.append_nil, List.append_nil] at hcuts
  obtain ⟨hjunk, htokens⟩ := hcuts {}
  obtain ⟨p, hp, hmeaning⟩ := hread _ htokens
  have hphrase : Phrase.ofText text = .ok p := by
    simp only [Phrase.ofText, Token.cut, hjunk, List.isEmpty_nil, if_true, hp.parse]
    rfl
  rw [read, hphrase]
  simp [hmeaning, Except.map]

/-- **Parsing inverts printing up to inherited constants.** An expression that a text means is
printed if its numbers are printable, and its text means what it shows of the expression. This is
the expression itself, up to the signs of zeros, exactly if it is declared: the name of an inherited
member is read as a constant, which is printed as `π`. -/
theorem parse_print {text : String} {e : Expr} (h : parse text = .ok e) (hp : e.Printable) :
    ∃ text', e.print = .ok text' ∧ parse text' = .ok e.shown ∧
      (parse text' = .ok e.unsignedZeros ↔ e.Declared) := by
  suffices hread : ∃ text', e.print = .ok text' ∧ parse text' = .ok e.shown by
    obtain ⟨text', hprint, hparse⟩ := hread
    refine ⟨text', hprint, hparse, ?_⟩
    rw [hparse, Except.ok.injEq, Expr.shown_eq_unsignedZeros]
  rcases written_of_parse h with hwritten | ⟨v, rfl, hwritten⟩
  · obtain ⟨text', hprint, hspells⟩ := hwritten.print hp
    have hread := read_of_spells hspells.whole
    refine ⟨text', hprint, ?_⟩
    simp [parse, hread, bind, Except.bind, pure, Except.pure, Meaning.expr, Expr.withEvent]
  · have hprintable : ∀ x ∈ Element.numbersOf v.elements, v.base.Printable x := fun x hx =>
      hp (v.base, x) (List.mem_map_of_mem hx)
    have hread := read_of_spells (spells_array hwritten hprintable)
    refine ⟨_, rfl, ?_⟩
    simp [parse, hread, bind, Except.bind, pure, Except.pure, Meaning.expr,
      Expr.withEvent, Expr.shown]

/-- Nested operators are read back as they are, but for the sign of a zero. The name `toString`
means a constant, which is read back as `π`. -/
theorem parse_print_of_nested :
    (∃ e, parse "(a - (b + -0)) * 2.0 < 1 ? !(c == [-3]) : !x[i]" = .ok e ∧ e.Printable ∧
      ∃ text', e.print = .ok text' ∧ parse text' = .ok e.unsignedZeros) ∧
    ∃ e, parse "toString" = .ok e ∧ e.Printable ∧
      ∃ text', e.print = .ok text' ∧ parse text' = .ok (.lit (.constant .pi)) ∧
        parse text' ≠ .ok e.unsignedZeros := by
  let e : Expr := .ite
    (.binary .lt (.binary .mul (.binary .sub (.ident "a") (.binary .add (.ident "b") (.int (-0))))
      (.real 2)) (.int 1))
    (.not (.and (.eq (.ident "c.d1_len") (.nat 1))
      (.eq (.access (.ident "c") (.nat 0)) (.int (-3)))))
    (.not (.access (.ident "x") (.ident "i")))
  have hparse : parse "(a - (b + -0)) * 2.0 < 1 ? !(c == [-3]) : !x[i]" = .ok e :=
    Result.eq_ok_of_toOption (by decide +kernel)
  have hprintable : e.Printable := by decide +kernel
  have hdeclared : e.Declared := by decide +kernel
  let text : Expr := .lit (.constant (.inherited .text))
  have hparse' : parse "toString" = .ok text := Result.eq_ok_of_toOption (by decide +kernel)
  have hprintable' : text.Printable := by decide +kernel
  obtain ⟨text₁, hprint₁, -, hback₁⟩ := parse_print hparse hprintable
  obtain ⟨text₂, hprint₂, hshown, hback₂⟩ := parse_print hparse' hprintable'
  exact ⟨⟨e, hparse, hprintable, text₁, hprint₁, hback₁.2 hdeclared⟩,
    text, hparse', hprintable', text₂, hprint₂, hshown, fun h => hback₂.1 h⟩

end Source

end ChartNet
