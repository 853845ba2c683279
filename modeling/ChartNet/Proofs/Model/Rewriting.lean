import ChartNet.Proofs.Expr.Acceptance
import ChartNet.Proofs.Macro.NormalForm
import ChartNet.Proofs.Model.Formulas
import ChartNet.Proofs.Source.RoundTrip

/-!
# Rewriting properties

An operand of a property is expression text or an expression in JSON, and is written in JSON with
its macros expanded. What is written has one form: reading it gives the expanded operand with the
kinds that its numbers need, and this is written in the same way, whatever the constants are
(`Expr.IsOperand.stable`). Names need care, as a text in JSON is a name inside of an expression and
expression text as a whole operand. No macro expands to a name, so a name that is written as a whole
operand was read from a text, and then the name itself is a text that means it.

A text can also mean a member that the table of constants inherits. It cannot be written, so a
property with such an operand is written in a form that is refused; all others are stable
(`Property.toJson_stable`).
-/

namespace ChartNet

/-! ### What text means -/

theorem Number.isWhole_of_noFraction {x : Float} (h : NoFraction x) (hx : x.isFinite = true) :
    isWhole x = true := by
  rw [isFinite_eq, Option.isSome_iff_exists] at hx
  obtain ⟨d, hd⟩ := hx
  simpa only [isWhole, hd] using h d hd

theorem NumKind.Holds.fits {k : NumKind} {x : Float} (h : k.Holds x) (hx : x.isFinite = true) :
    k.Fits x :=
  fun hint => Number.isWhole_of_noFraction (h hint) hx

/-- An expression that can be written as text is tagged correctly, if its numbers are finite. -/
theorem Expr.Written.tagged {use : Use} {e : Expr} (h : e.Written use)
    (hfinite : ∀ x ∈ e.values, x.isFinite = true) : e.Tagged := by
  induction h with
  | path hn => trivial
  | name hn hvalue => trivial
  | access _ _ iha ihi =>
    obtain ⟨ha, hi⟩ := List.forall_mem_append.1 hfinite
    exact ⟨iha ha, ihi hi⟩
  | @literal v hv =>
    cases v with
    | num k x => exact NumKind.Holds.fits hv (hfinite x (by simp [values, Literal.values]))
    | bool b => trivial
    | constant c => trivial
  | random => exact show (0 : Float) ≤ 1 by decide +kernel
  | negation _ iha => exact iha hfinite
  | operator _ _ _ iha ihb =>
    obtain ⟨ha, hb⟩ := List.forall_mem_append.1 hfinite
    exact ⟨iha ha, ihb hb⟩
  | call _ happly _ _ ih =>
    unfold Opcode.apply? at happly
    split at happly
    all_goals cases happly
    all_goals simp_all [values, Tagged, or_imp, forall_and]
  | conditional _ _ _ iht iha ihb =>
    obtain ⟨hta, hb⟩ := List.forall_mem_append.1 hfinite
    obtain ⟨ht, ha⟩ := List.forall_mem_append.1 hta
    exact ⟨iht ht, iha ha, ihb hb⟩

/-- A name that a text means is a text that means it. -/
theorem Source.parse_ident {text n : String} (h : parse text = .ok (.ident n)) :
    parse n = .ok (.ident n) := by
  rcases written_of_parse h with hwritten | ⟨v, hv, -⟩
  · obtain ⟨text', hprint, hspells⟩ := hwritten.print (by simp [Expr.Printable, Expr.numbers])
    cases hprint
    have hread := read_of_spells hspells.whole
    simp [parse, hread, bind, Except.bind, pure, Except.pure, Meaning.expr, Expr.withEvent,
      Expr.shown]
  · cases hv

/-! ### Operands -/

/-- What is combined over walls is no name, if neither a combination nor the end is one. -/
theorem Macro.overWalls_ne_ident {count : Nat} {term : Nat → Expr} {combine : Expr → Expr → Expr}
    {base : Expr} {n : String} (hcombine : ∀ a b, combine a b ≠ .ident n)
    (hbase : base ≠ .ident n) :
    overWalls count term combine base ≠ .ident n := by
  unfold overWalls
  cases List.range count with
  | nil => exact hbase
  | cons i is => exact hcombine _ _

namespace Expr

variable {constants : Constants} {path : String} {j : Json} {e : Expr}

open Macro in
/-- **No macro expands to a name.** -/
theorem eq_ident_of_expand {n : String} (h : e.expand constants = .ok (.ident n)) :
    e = .ident n := by
  cases e with
  | ident m =>
    cases h
    rfl
  | lit v | uniform l u | array v => cases h
  | unary op a =>
    obtain ⟨a', -, hok⟩ := expand_unary_eq_ok.1 h
    cases op <;> cases hok
  | binary op a b =>
    obtain ⟨robot, -, barrier, count, -, -, -, -, ⟨-, hident⟩ | ⟨-, hident⟩⟩ |
        ⟨-, -, a', b', -, -, hok⟩ :=
      expand_binary_eq_ok.1 h
    · cases barrier with
      | boundaries =>
        exact absurd hident (overWalls_ne_ident (fun _ _ h => by cases h) fun h => by cases h)
      | all | obstacles => cases hident
    · cases barrier with
      | boundaries =>
        exact absurd hident (overWalls_ne_ident (fun _ _ h => by cases h) fun h => by cases h)
      | all | obstacles => cases hident
    · cases op <;> cases hok
  | ternary op a b c =>
    obtain ⟨-, robot, b', c', -, -, -, hok⟩ | ⟨-, a', b', c', -, -, -, hok⟩ :=
      expand_ternary_eq_ok.1 h
    · cases hok
    · cases hok
  | quaternary op a b c d =>
    obtain ⟨a', b', c', d', -, -, -, -, hok⟩ := expand_quaternary_eq_ok.1 h
    cases op <;> cases hok

/-- Kinds do not make macros. -/
theorem Primitive.retagged (h : e.Primitive) : e.retagged.Primitive := by
  induction e with
  | ident _ | lit _ | uniform _ _ | array _ => rfl
  | unary op a iha =>
    obtain ⟨hop, ha⟩ := primitive_unary.1 h
    exact primitive_unary.2 ⟨hop, iha ha⟩
  | binary op a b iha ihb =>
    obtain ⟨hop, ha, hb⟩ := primitive_binary.1 h
    exact primitive_binary.2 ⟨hop, iha ha, ihb hb⟩
  | ternary op a b c iha ihb ihc =>
    obtain ⟨hop, ha, hb, hc⟩ := primitive_ternary.1 h
    exact primitive_ternary.2 ⟨hop, iha ha, ihb hb, ihc hc⟩
  | quaternary op a b c d => exact absurd h not_primitive_quaternary

/-- An expression can stand as a whole **operand**: it is well-formed, and if it is a name, the name
is a text that means it. -/
structure IsOperand (e : Expr) : Prop where
  wellFormed : e.WellFormed
  name : ∀ n, e = .ident n → Source.parse n = .ok (.ident n)

/-- Only a text in JSON is read as a name. -/
theorem eq_str_of_ofOperand {n : String} (h : ofOperand path j = .ok (.ident n)) : j = .str n := by
  cases j with
  | str m =>
    rw [ofOperand] at h
    cases h
    rfl
  | bool b | arr items | null =>
    rw [ofOperand] at h
    cases h
  | num x =>
    rw [ofOperand, ofNumber] at h
    split at h <;> cases h
  -- no object is read as a name, whatever its operator is
  | obj members =>
    by_cases hop : ∃ s, Json.lookup "op" members = some (.str s)
    · obtain ⟨s, hop⟩ := hop
      cases ho : Opcode.ofCode? s with
      | none =>
        rw [ofOperand] at h
        simp [hop, ho] at h
      | some o =>
        cases o with
        | elements =>
          obtain ⟨_, -, _, _, -, -, heq⟩ := (ofOperand_elements hop ho).1 h
          cases heq
        | unary o =>
          obtain ⟨_, -, -, heq⟩ := (ofOperand_unary hop ho).1 h
          cases heq
        | binary o =>
          obtain ⟨_, -, _, -, -, heq⟩ := (ofOperand_binary hop ho).1 h
          cases heq
        | ternary o =>
          obtain ⟨_, -, _, -, _, -, -, heq⟩ := (ofOperand_ternary hop ho).1 h
          cases heq
        | quaternary o =>
          obtain ⟨_, -, _, -, _, -, _, -, -, heq⟩ := (ofOperand_quaternary hop ho).1 h
          cases heq
    · rw [ofOperand] at h
      split at h
      · rename_i s hs
        exact absurd ⟨s, hs⟩ hop
      · split at h
        · cases h
        · obtain ⟨-, heq⟩ := mkUniform_eq_ok.1 h
          cases heq
        · cases h

/-- **What is read as an operand** can stand as one, if its constants are declared and its numbers
finite. -/
theorem isOperand_of_operandExpr (h : operandExpr path j = .ok e) (hdeclared : e.Declared)
    (hfinite : ∀ x ∈ e.values, x.isFinite = true) : e.IsOperand := by
  by_cases hj : ∃ s, j = .str s
  · obtain ⟨s, rfl⟩ := hj
    have hparse : Source.parse s = .ok e := h
    refine ⟨⟨?_, hdeclared, hfinite⟩, fun n hn => Source.parse_ident (hn ▸ hparse)⟩
    rcases Source.written_of_parse hparse with hwritten | ⟨v, rfl, hwritten⟩
    · exact hwritten.tagged hfinite
    · exact fun x hx => (hwritten.holds x hx).fits (hfinite x hx)
  · have hread : ofOperand path j = .ok e := by
      cases j with
      | str s => exact absurd ⟨s, rfl⟩ hj
      | _ => exact ofOperand_of_ofJson h
    refine ⟨⟨(of_ofOperand hread).tagged, hdeclared, hfinite⟩, fun n hn => ?_⟩
    exact absurd ⟨n, eq_str_of_ofOperand (hn ▸ hread)⟩ hj

/-- An operand that is written is read with the kinds that its numbers need. -/
theorem IsOperand.operandExpr_toJson (h : e.IsOperand) (path : String) :
    operandExpr path e.toJson = .ok e.retagged := by
  have hread := ofJson_toJson h.wellFormed.tagged h.wellFormed.declared path
  cases e with
  | ident n => exact h.name n rfl
  | lit v =>
    cases v with
    | constant c =>
      rw [toJson, Literal.toJson, NamedConstant.toJson_of_declared h.wellFormed.declared] at hread ⊢
      exact hread
    | bool _ | num _ _ => exact hread
  | _ => exact hread

/-- **Operands are stable**: what is written for one is read as its expansion with the kinds that
its numbers need, and this is written in the same way. -/
theorem IsOperand.stable (he : e.IsOperand) (h : e.expandedJson constants = .ok j) :
    ∃ d, e.expand constants = .ok d ∧ j.HasForm ∧ (∀ path, operandExpr path j = .ok d.retagged) ∧
      ∀ constants', d.retagged.expandedJson constants' = .ok j := by
  obtain ⟨d, hd, hj⟩ := Result.bind_eq_ok.1 h
  cases hj
  have hoperand : d.IsOperand := by
    refine ⟨wellFormed_of_expand he.wellFormed hd, fun n hn => he.name n ?_⟩
    exact eq_ident_of_expand (hn ▸ hd)
  have hprimitive := (primitive_of_expand hd).retagged
  refine ⟨d, hd, hasForm_toJson hoperand.wellFormed.declared, hoperand.operandExpr_toJson,
    fun constants' => ?_⟩
  rw [expandedJson, hprimitive.expand_eq, ← toJson_retagged d]
  rfl

/-- What is written for an operand is admitted exactly if the constants in it are declared. -/
theorem admitted_of_expandedJson (h : e.expandedJson constants = .ok j) :
    j.Admitted ↔ e.Declared := by
  obtain ⟨d, hd, hj⟩ := Result.bind_eq_ok.1 h
  cases hj
  rw [admitted_toJson, declared_of_expand hd]

end Expr

/-! ### Properties -/

/-- A value that stands within another one is not nested deeper. -/
theorem Json.Within.depth_le {v w : Json} (h : v.Within w) : v.depth ≤ w.depth := by
  induction h with
  | self => exact le_rfl
  | item hx _ ih => exact (ih.trans (depth_le_depthItems hx)).trans (Nat.le_succ _)
  | member hm _ ih => exact (ih.trans (depth_le_depthMembers hm)).trans (Nat.le_succ _)

/-- A member that has a value stands within what is written for the members. -/
theorem Json.within_fields {members : List (String × Option Json)} {name : String} {v w : Json}
    (h : (name, some v) ∈ members) (hw : w.Within v) : w.Within (.fields members) :=
  .member (m := (name, v)) (mem_fields.2 h) hw

/-- Operands stand within what is written for a formula. -/
theorem PathFormula.within_written {f : PathFormula Json} {a : Json} (ha : a ∈ f.operands) :
    a.Within f.written := by
  rcases List.mem_append.1 ha with ha | ha
  · have hpath : ∃ name, (name, some a) ∈ f.members := by
      cases hp : f.path with
      | unary op b =>
        obtain rfl : a = b := by simpa [hp, Path.operands] using ha
        exact ⟨"exp", by simp [members, hp, Path.members]⟩
      | binary op b c =>
        simp only [hp, Path.operands, List.mem_cons, List.not_mem_nil, or_false] at ha
        rcases ha with rfl | rfl
        · exact ⟨"left", by simp [members, hp, Path.members]⟩
        · exact ⟨"right", by simp [members, hp, Path.members]⟩
    obtain ⟨name, hname⟩ := hpath
    exact Json.within_fields hname .self
  · obtain ⟨b, hb, ha⟩ := List.mem_flatMap.1 ha
    have hbounds : ("step-bounds", some b.written) ∈ f.members := by
      simp [members, Option.mem_toList.1 hb]
    refine Json.within_fields hbounds ?_
    rcases List.mem_append.1 ha with ha | ha
    · have hlower : ("lower", some a) ∈ [("lower", b.lower), ("upper", b.upper)] := by
        simp [Option.mem_toList.1 ha]
      exact Json.within_fields hlower .self
    · have hupper : ("upper", some a) ∈ [("lower", b.lower), ("upper", b.upper)] := by
        simp [Option.mem_toList.1 ha]
      exact Json.within_fields hupper .self

/-- Operands stand within what is written for a property. -/
theorem PropertyOver.within_written {p : PropertyOver Json} {a : Json}
    (ha : a ∈ p.formula.operands) :
    a.Within p.written := by
  have hmember {members : List (String × Json)} {name : String} {v : Json} (hv : a.Within v)
      (h : (name, v) ∈ members) : a.Within (.obj members) := .member (m := (name, v)) h hv
  have hvalues : a.Within (.obj [("op", .str p.extremum.name), ("exp", p.formula.written)]) :=
    hmember (PathFormula.within_written ha) (List.mem_cons_of_mem _ List.mem_cons_self)
  exact hmember
    (hmember hvalues (List.mem_cons_of_mem _ (List.mem_cons_of_mem _ List.mem_cons_self)))
    (List.mem_cons_of_mem _ List.mem_cons_self)

/-- What is written for a property is its formula over written operands. -/
theorem Property.toJson_eq_ok {constants : Constants} {p : Property} {j : Json} :
    p.toJson constants = .ok j ↔ ∃ g : PathFormula Json,
      PathFormula.Rel (fun a e => e.expandedJson constants = .ok a) g p.formula ∧
        j = PropertyOver.written ⟨p.name, p.filter, p.extremum, g⟩ := by
  constructor
  · intro h
    obtain ⟨formula, hformula, heq⟩ := Result.bind_eq_ok.1 h
    obtain ⟨g, hg, rfl⟩ := PathFormula.toJson_eq_ok.1 hformula
    cases heq
    exact ⟨g, hg, rfl⟩
  · rintro ⟨g, hg, rfl⟩
    exact Result.bind_eq_ok.2 ⟨_, PathFormula.toJson_eq_ok.2 ⟨g, hg, rfl⟩, rfl⟩

/-- A property is **read** from a value that has the form of one and whose operands are read. -/
theorem Property.ofJson_eq_ok {j : Json} {p : Property} :
    Property.ofJson j = .ok p ↔ ∃ g : PathFormula Json,
      propertySchema (exprSchema j.depth) [] (some j) = .valid ⟨p.name, p.filter, p.extremum, g⟩ ∧
        g.readOperands p.name = .ok p.formula := by
  rw [ofJson, Schema.read]
  cases propertySchema (exprSchema j.depth) [] (some j) with
  | valid q =>
    simp only [Verdict.toExcept, Result.bind_eq_ok]
    constructor
    · rintro ⟨formula, hformula, ⟨⟩⟩
      exact ⟨q.formula, rfl, hformula⟩
    · rintro ⟨g, ⟨⟩, hg⟩
      exact ⟨_, hg, rfl⟩
  | flawed q issues | refused issues =>
    constructor
    · intro h
      simp only [Verdict.toExcept] at h
      cases hissue : issues.head? <;> simp [hissue, failModel] at h
    · rintro ⟨g, ⟨⟩, -⟩

section Stability

variable {j written : Json} {p : Property} {constants : Constants}

/-- What is written for a property is refused if a constant in one of its operands is not
declared. -/
theorem Property.declared_of_written {p' : Property} (hwrite : p.toJson constants = .ok written)
    (hread : Property.ofJson written = .ok p') : ∀ e ∈ p.formula.operands, e.Declared := by
  obtain ⟨g, hg, rfl⟩ := toJson_eq_ok.1 hwrite
  obtain ⟨g', hschema, -⟩ := ofJson_eq_ok.1 hread
  intro e he
  obtain ⟨a, ha, hae⟩ := hg.of_mem e he
  obtain ⟨path, b, hb⟩ := valid_of_propertySchema hschema a ha
  exact (Expr.admitted_of_expandedJson hae).1 (admitted_of_exprSchema hb)

/-- What is written for a property is read as the same property over expanded operands, if all
constants in it are declared. -/
theorem Property.ofJson_written (hread : Property.ofJson j = .ok p)
    (hfinite : ∀ e ∈ p.formula.operands, ∀ x ∈ e.values, x.isFinite = true)
    (hdeclared : ∀ e ∈ p.formula.operands, e.Declared) (hwrite : p.toJson constants = .ok written) :
    ∃ p' : Property, Property.ofJson written = .ok p' ∧
      (p'.name, p'.filter, p'.extremum) = (p.name, p.filter, p.extremum) ∧
      PathFormula.Rel (fun e e' => ∃ d, e.expand constants = .ok d ∧ e' = d.retagged)
        p.formula p'.formula ∧
      ∀ constants', p'.toJson constants' = .ok written := by
  obtain ⟨f, hschema, hf⟩ := ofJson_eq_ok.1 hread
  obtain ⟨hname, hproper⟩ := of_propertySchema hschema
  obtain ⟨g, hg, rfl⟩ := toJson_eq_ok.1 hwrite
  have hrel := PathFormula.rel_of_readOperands hf
  have hoperands : ∀ e ∈ p.formula.operands, e.IsOperand := by
    intro e he
    obtain ⟨a, -, path, ha⟩ := hrel.of_mem e he
    exact Expr.isOperand_of_operandExpr ha (hdeclared e he) (hfinite e he)
  -- The formula that is read back, over the operands that are read from what was written.
  obtain ⟨k, hgk, hpk⟩ := hg.exists_rel
    (S := fun a e => (∀ path, operandExpr path a = .ok e) ∧ a.HasForm ∧
      ∀ constants', e.expandedJson constants' = .ok a)
    (T := fun e e' => ∃ d, e.expand constants = .ok d ∧ e' = d.retagged) fun a e he ha => by
      obtain ⟨d, hd, hform, hread, hwrite⟩ := (hoperands e he).stable ha
      exact ⟨_, ⟨hread, hform, hwrite⟩, d, hd, rfl⟩
  have hvalid : ∀ a ∈ g.operands, ∀ path,
      exprSchema (PropertyOver.written ⟨p.name, p.filter, p.extremum, g⟩).depth path (some a) =
        .valid a := by
    intro a ha path
    obtain ⟨e, -, -, hform, -⟩ := hgk.swap.of_mem a ha
    exact exprSchema_valid hform (PropertyOver.within_written ha).depth_le path
  refine ⟨⟨p.name, p.filter, p.extremum, k⟩, ?_, rfl, hpk, fun constants' => ?_⟩
  · have hproper' : g.IsProper := hg.swap.isProper (hrel.isProper hproper)
    refine ofJson_eq_ok.2 ⟨g, propertySchema_written hname hproper' hvalid, ?_⟩
    exact PathFormula.readOperands_of_rel (hgk.mono fun _ _ h => h.1) p.name
  · exact toJson_eq_ok.2 ⟨g, hgk.mono fun _ _ h => h.2.2 constants', rfl⟩

/-- **Properties are stable under rewriting** exactly if the constants in their operands are
declared. What is written for a property that was read is read again precisely then, and it is read
as the same property over expanded operands with the kinds that their numbers need, which is written
in the same way, whatever the constants are. -/
theorem Property.toJson_stable (hread : Property.ofJson j = .ok p)
    (hfinite : ∀ e ∈ p.formula.operands, ∀ x ∈ e.values, x.isFinite = true)
    (hwrite : p.toJson constants = .ok written) :
    ((∃ p', Property.ofJson written = .ok p') ↔ ∀ e ∈ p.formula.operands, e.Declared) ∧
      ∀ p' : Property, Property.ofJson written = .ok p' →
        (p'.name, p'.filter, p'.extremum) = (p.name, p.filter, p.extremum) ∧
        PathFormula.Rel (fun e e' => ∃ d, e.expand constants = .ok d ∧ e' = d.retagged)
          p.formula p'.formula ∧
        ∀ constants', p'.toJson constants' = .ok written := by
  refine ⟨⟨fun ⟨p', h⟩ => declared_of_written hwrite h, fun h => ?_⟩, fun p' h => ?_⟩
  · exact (ofJson_written hread hfinite h hwrite).imp fun _ h => h.1
  · obtain ⟨q, hq, hstable⟩ := ofJson_written hread hfinite (declared_of_written hwrite h) hwrite
    cases h.symm.trans hq
    exact hstable

end Stability

/-- A name in text, another spelling of an opcode, a macro, a comment and a bound in text are
written in their fixed form, which is read as another property. The name `toString` is written as an
object without members, which is refused. -/
theorem Property.toJson_stable_of_until :
    let property (formula : List (String × Json)) : Json :=
      .obj [("name", .str "near"),
        ("expression", .obj [("op", .str "filter"), ("fun", .str "max"),
          ("values", .obj [("op", .str "Pmin"), ("exp", .obj formula)]),
          ("states", .obj [("op", .str "initial")])])]
    let operator (op : String) (a b : Json) : Json :=
      .obj [("op", .str op), ("left", a), ("right", b)]
    let macros : Json := .obj [("op", .str "to_m"), ("exp", .str "y")]
    let input := property [("op", .str "U"), ("left", .str " running "),
      ("right", operator "and" (.str "x") (operator "<" macros (.num 5))),
      ("step-bounds", .obj [("upper", .str "2 + 3")]), ("comment", .str "home")]
    let written := property [("comment", .str "home"), ("op", .str "U"), ("left", .str "running"),
      ("right",
        operator "∧" (.str "x") (operator "<" (operator "*" (.str "y") (.num 0.01)) (.num 5))),
      ("step-bounds", .obj [("upper", operator "+" (.num 2) (.num 3))])]
    let lost := property [("op", .str "F"), ("exp", .obj [])]
    (∃ p p' : Property, Property.ofJson input = .ok p ∧ p.toJson [] = .ok written ∧
      Property.ofJson written = .ok p' ∧ p ≠ p' ∧ ∀ constants, p'.toJson constants = .ok written) ∧
    ∃ p : Property,
      Property.ofJson (property [("op", .str "F"), ("exp", .str "toString")]) = .ok p ∧
      p.toJson [] = .ok lost ∧ ¬∃ p', Property.ofJson lost = .ok p' := by
  intro property operator macros input written lost
  have hwritten {input written : Json} {declared : Bool}
      (h : ((Property.ofJson input).toOption.any fun p =>
        decide ((∀ e ∈ p.formula.operands, ∀ x ∈ e.values, x.isFinite = true) ∧
          decide (∀ e ∈ p.formula.operands, e.Declared) = declared ∧
          (p.toJson []).toOption = some written)) = true) :
      ∃ p, Property.ofJson input = .ok p ∧ p.toJson [] = .ok written ∧
        (∀ e ∈ p.formula.operands, ∀ x ∈ e.values, x.isFinite = true) ∧
        decide (∀ e ∈ p.formula.operands, e.Declared) = declared := by
    obtain ⟨p, hread, hp⟩ := Result.exists_of_any h
    obtain ⟨hfinite, hdeclared, hwritten⟩ := of_decide_eq_true hp
    exact ⟨p, hread, Result.eq_ok_of_toOption hwritten, hfinite, hdeclared⟩
  constructor
  · obtain ⟨p, hread, hwrite, hfinite, hdeclared⟩ :=
      @hwritten input written true (by decide +kernel)
    obtain ⟨hiff, hstable⟩ := toJson_stable hread hfinite hwrite
    obtain ⟨p', hread'⟩ := hiff.2 (of_decide_eq_true hdeclared)
    have hne : (Property.ofJson input).toOption ≠ (Property.ofJson written).toOption := by
      decide +kernel
    rw [hread, hread'] at hne
    exact ⟨p, p', hread, hwrite, hread', fun h => hne (congrArg some h), (hstable p' hread').2.2⟩
  · obtain ⟨p, hread, hwrite, hfinite, hdeclared⟩ :=
      @hwritten (property [("op", .str "F"), ("exp", .str "toString")]) lost false
        (by decide +kernel)
    obtain ⟨hiff, -⟩ := toJson_stable hread hfinite hwrite
    exact ⟨p, hread, hwrite, fun h => of_decide_eq_false hdeclared (hiff.1 h)⟩

end ChartNet
