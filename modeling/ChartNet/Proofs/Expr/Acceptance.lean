import ChartNet.Proofs.Assoc
import ChartNet.Proofs.Expr.RoundTrip
import ChartNet.Proofs.Schema.Validity

/-!
# Which JSON values are expressions

Reading an expression goes in two steps, and each refuses values. The schema asks for the right
kinds at all depths; what it lets pass is `Admitted`. Then operands are read by their roles, and
elements of array values by a reader of their own. `Json.IsExpression` is the grammar of what both
steps accept, and says nothing about how it is read. It has a parameter: what members an array value
inside of another one may have besides its opcode and its elements. There the two readers differ:
that of operands refuses all other members, and that of elements does not look at them, so that they
only need to be admitted (`Expr.exists_ofJson_iff`).
-/

namespace ChartNet

/-! ### Opcodes -/

/-- A text **spells** an entry of the operator table: it is the opcode or an alias. -/
def Opcode.Spells (s : String) (o : Opcode) : Prop :=
  s = o.code ∨ (s, o) ∈ aliases

theorem Opcode.ofCode?_eq_some {s : String} {o : Opcode} : ofCode? s = some o ↔ o.Spells s := by
  constructor
  · intro h
    unfold ofCode? at h
    split at h
    · rename_i o' hfind
      cases h
      have hcode : o.code = s := by simpa using List.find?_some hfind
      exact .inl hcode.symm
    · obtain ⟨a, hfind, rfl⟩ := Option.map_eq_some_iff.1 h
      obtain rfl : a.1 = s := by simpa using List.find?_some hfind
      exact .inr (List.mem_of_find?_eq_some hfind)
  · have halias : ∀ a ∈ aliases, ofCode? a.1 = some a.2 := by decide
    rintro (rfl | h)
    · exact ofCode?_code o
    · exact halias (s, o) h

/-- Only the opcode of array values spells their entry. -/
theorem Opcode.eq_of_spells_elements {s : String} (h : elements.Spells s) : s = "av" := by
  have halias : ∀ a ∈ aliases, a.2 ≠ elements := by decide
  exact h.resolve_right fun hmem => halias _ hmem rfl

/-- No operand has the role of the opcode. -/
theorem Opcode.ne_of_mem_roles {o : Opcode} {role : String} (h : role ∈ o.roles) : role ≠ "op" := by
  rintro rfl
  cases o with
  | elements | unary | quaternary => simp [roles] at h
  | binary op => exact (List.nodup_cons.1 op.nodup_roles).1 h
  | ternary op => exact (List.nodup_cons.1 op.nodup_roles).1 h

/-! ### What the schema lets pass -/

namespace Json

/-- A JSON value is **admitted** as an operand: it is a text, a number, a truth value, a constant, a
distribution, an object with an opcode whose other members are admitted, or a list of such
values. -/
inductive Admitted : Json → Prop
  | text (s : String) : Admitted (.str s)
  | number (x : Float) : Admitted (.num x)
  | truth (b : Bool) : Admitted (.bool b)
  | constant {members : List (String × Json)} {c : NamedConstant} (hc : c.Declared)
    (hconstant : lookup "constant" members = some (.str c.symbol))
    (honly : ∀ m ∈ members, m.1 = "constant") : Admitted (.obj members)
  | uniform {members : List (String × Json)} (l u : Float)
    (hname : lookup "distribution" members = some (.str "Uniform"))
    (hargs : lookup "args" members = some (.arr [.num l, .num u]))
    (honly : ∀ m ∈ members, m.1 = "distribution" ∨ m.1 = "args") : Admitted (.obj members)
  | operator {members : List (String × Json)} {s : String}
    (hop : lookup "op" members = some (.str s))
    (h : ∀ m ∈ members, m.1 ≠ "op" → Admitted m.2) : Admitted (.obj members)
  | list {items : List Json} (h : ∀ x ∈ items, Admitted x) : Admitted (.arr items)

/-- A value with only some names has no value of another one. -/
theorem lookup_eq_none {members : List (String × Json)} {names : List String} {name : String}
    (honly : ∀ m ∈ members, m.1 ∈ names) (h : name ∉ names) : lookup name members = none := by
  refine Option.map_eq_none_iff.2 (List.find?_eq_none.2 fun m hm heq => h ?_)
  exact eq_of_beq heq ▸ honly m hm

/-- The members of an admitted object with an opcode are admitted, but for the opcode. -/
theorem Admitted.member {members : List (String × Json)} {s : String} {m : String × Json}
    (h : (obj members).Admitted) (hop : lookup "op" members = some (.str s)) (hm : m ∈ members)
    (hne : m.1 ≠ "op") : m.2.Admitted := by
  cases h with
  | constant _ _ honly => exact absurd (honly _ (mem_of_lookup hop)) (by simp)
  | uniform l u _ _ honly => exact absurd (honly _ (mem_of_lookup hop)) (by simp)
  | operator _ h => exact h m hm hne

/-- The items of an admitted list are admitted. -/
theorem Admitted.item {items : List Json} (h : (arr items).Admitted) : ∀ x ∈ items, x.Admitted := by
  cases h with
  | list h => exact h

end Json

section Form

open Schema

variable {operands : Schema Json} {path : List String} {members : List (String × Json)} {j a : Json}

/-- What passes the form of an expression is admitted, if its operands are. -/
theorem admitted_of_exprForm (hoperands : ∀ path j a,
    operands path (some j) = .valid a → j.Admitted)
    (h : exprForm operands path (some j) = .valid a) : j.Admitted := by
  obtain ⟨u, h, -⟩ := Verdict.map_eq_valid.1 h
  obtain ⟨s, hs, h⟩ := exists_of_choice_eq_valid h
  simp only [List.mem_cons, List.not_mem_nil, or_false] at hs
  -- the cases stand in the order of the schema, lists of operands last
  rcases hs with rfl | rfl | rfl | rfl | rfl | rfl | rfl
  · obtain ⟨s, hs, -⟩ := Verdict.map_eq_valid.1 h
    cases j <;> cases hs
    exact .text _
  · obtain ⟨x, hx, -⟩ := Verdict.map_eq_valid.1 h
    cases number_eq_valid.1 hx
    exact .number x
  · obtain ⟨b, hb, -⟩ := Verdict.map_eq_valid.1 h
    cases j <;> cases hb
    exact .truth _
  · obtain ⟨members, hj, hconstant, honly⟩ := strictObject_eq_valid.1 h
    cases hj
    obtain ⟨word, hword, hmem⟩ := mem_of_oneOf_eq_valid hconstant
    have hsymbol : ∃ c : NamedConstant, c.Declared ∧ word = c.symbol := by
      simp only [List.mem_cons, Prod.mk.injEq, List.not_mem_nil, or_false, and_true] at hmem
      rcases hmem with rfl | rfl
      · exact ⟨.e, trivial, rfl⟩
      · exact ⟨.pi, trivial, rfl⟩
    obtain ⟨c, hc, rfl⟩ := hsymbol
    exact .constant hc hword fun m hm => List.mem_singleton.1 (honly m hm)
  · obtain ⟨members, hj, hread, honly⟩ := strictObject_eq_valid.1 h
    cases hj
    obtain ⟨_, r, hfirst, hargs, -⟩ := read_seq_eq_valid.1 hread
    obtain ⟨u, hname, -⟩ := read_map_eq_valid.1 hfirst
    have honly : ∀ m ∈ members, m.1 ∈ ["distribution", "args"] := honly
    exact .uniform r.1 r.2 (exactly_eq_valid.1 hname) (pair_number_eq_valid.1 hargs)
      (by simpa using honly)
  · obtain ⟨r, hr, -⟩ := Verdict.map_eq_valid.1 h
    obtain ⟨members, hj, hop, hfurther⟩ := forall_of_openObject_eq_valid hr
    cases hj
    refine .operator (text_eq_valid.1 hop) fun m hm hne => ?_
    obtain ⟨path, b, hb⟩ := hfurther m hm (by simpa [field] using hne)
    exact hoperands path m.2 b hb
  · obtain ⟨bs, hbs, -⟩ := Verdict.map_eq_valid.1 h
    obtain ⟨js, hj, hitems⟩ := forall₂_of_list_eq_valid hbs
    cases hj
    refine .list fun x hx => ?_
    obtain ⟨b, -, path, hb⟩ := exists_of_mem_forall₂ hitems.flip hx
    exact hoperands path x b hb

/-- **What the schema lets pass is admitted.** -/
theorem admitted_of_exprSchema {n : Nat} (h : exprSchema n path (some j) = .valid a) :
    j.Admitted := by
  induction n generalizing path j a with
  | zero => exact admitted_of_exprForm (fun _ _ _ hv => by cases hv) h
  | succ n ih => exact admitted_of_exprForm (fun _ _ _ hv => ih hv) h

theorem exprForm_constant {c : NamedConstant} (hc : c.Declared)
    (hconstant : Json.lookup "constant" members = some (.str c.symbol))
    (honly : ∀ m ∈ members, m.1 = "constant") :
    exprForm operands path (some (.obj members)) = .valid (.obj members) := by
  have hread : (field "constant" (oneOf [("e", ()), ("π", ())])).read path members = .valid () := by
    simp only [field, hconstant]
    cases c with
    | e | pi => rfl
    | inherited m => exact hc.elim
  have hstrict :=
    strictObject_eq_valid.2 ⟨members, rfl, hread, fun m hm => by simp [honly m hm, field]⟩
  exact choice_valid (by simp) hstrict _

theorem exprForm_uniform (l u : Float)
    (hname : Json.lookup "distribution" members = some (.str "Uniform"))
    (hargs : Json.lookup "args" members = some (.arr [.num l, .num u]))
    (honly : ∀ m ∈ members, m.1 = "distribution" ∨ m.1 = "args") :
    exprForm operands path (some (.obj members)) = .valid (.obj members) := by
  have hread : ((fun _ _ => ()) <$> field "distribution" (exactly "Uniform")
      <*> field "args" (pair (number []) (number []))).read path members = .valid () := by
    have hfirst : ((fun _ _ => ()) <$> field "distribution" (exactly "Uniform")).read path members =
        .valid fun _ : Float × Float => () :=
      read_map_eq_valid.2 ⟨(), exactly_eq_valid.2 hname, rfl⟩
    exact read_seq_eq_valid.2 ⟨_, (l, u), hfirst, pair_number_eq_valid.2 hargs, rfl⟩
  have hkeys : ∀ m ∈ members, m.1 ∈ ["distribution", "args"] := by simpa using honly
  have hstrict := strictObject_eq_valid.2 ⟨members, rfl, hread, hkeys⟩
  exact choice_valid (by simp) hstrict _

/-- **The schema lets pass what is admitted**, as it is. -/
theorem exprSchema_of_admitted (h : j.Admitted) {n : Nat} (hn : j.depth ≤ n) (path : List String) :
    exprSchema n path (some j) = .valid j := by
  induction h generalizing n path with
  | text s => cases n <;> rfl
  | number x => cases n <;> rfl
  | truth b => cases n <;> rfl
  | constant hc hconstant honly => cases n <;> exact exprForm_constant hc hconstant honly
  | uniform l u hname hargs honly => cases n <;> exact exprForm_uniform l u hname hargs honly
  | operator hop h ih =>
    cases n with
    | zero => simp [Json.depth] at hn
    | succ n =>
      simp only [Json.depth, Nat.add_le_add_iff_right] at hn
      exact exprForm_object hop fun m hm hkey path =>
        ⟨_, ih m hm hkey ((Json.depth_le_depthMembers hm).trans hn) path⟩
  | list h ih =>
    cases n with
    | zero => simp [Json.depth] at hn
    | succ n =>
      simp only [Json.depth, Nat.add_le_add_iff_right] at hn
      exact exprForm_list fun x hx path =>
        ⟨_, ih x hx ((Json.depth_le_depthItems hx).trans hn) path⟩

end Form

/-- **An expression is read** from a value that is admitted and whose operands are read. -/
theorem Expr.ofJson_eq_ok {path : String} {j : Json} {e : Expr} :
    ofJson j path = .ok e ↔ j.Admitted ∧ ofOperand path j = .ok e := by
  constructor
  · intro h
    refine ⟨?_, ofOperand_of_ofJson h⟩
    unfold ofJson Schema.read at h
    cases hv : exprSchema j.depth [] (some j) with
    | valid a => exact admitted_of_exprSchema hv
    | flawed a issues => cases issues <;> simp [hv, Verdict.toExcept, failModel] at h
    | refused issues => cases issues <;> simp [hv, Verdict.toExcept, failModel] at h
  · rintro ⟨hadmitted, h⟩
    simpa only [ofJson, Schema.read, exprSchema_of_admitted hadmitted le_rfl,
      Verdict.toExcept] using h

/-- **What is written for an expression is admitted** exactly if its constants are declared: nothing
is written for a function, and an object is no name of a constant. -/
theorem Expr.admitted_toJson {e : Expr} : e.toJson.Admitted ↔ e.Declared := by
  constructor
  · intro h
    induction e with
    | ident _ | uniform _ _ | array _ => trivial
    | lit v =>
      cases v with
      | bool _ | num _ _ => trivial
      | constant c =>
        cases c with
        | e | pi => trivial
        | inherited m => cases m <;> cases h <;> rename_i hmember _ <;> cases hmember
    | unary op a iha =>
      rw [toJson] at h
      exact iha (h.member rfl (m := ("exp", _)) (by simp) (by simp))
    | binary op a b iha ihb =>
      have hroles := op.nodup_roles
      rw [toJson] at h
      exact ⟨iha (h.member rfl (m := (op.roles.1, _)) (by simp) (by simp_all [eq_comm])),
        ihb (h.member rfl (m := (op.roles.2, _)) (by simp) (by simp_all [eq_comm]))⟩
    | ternary op a b c iha ihb ihc =>
      have hroles := op.nodup_roles
      rw [toJson] at h
      exact ⟨iha (h.member rfl (m := (op.roles.1, _)) (by simp) (by simp_all [eq_comm])),
        ihb (h.member rfl (m := (op.roles.2.1, _)) (by simp) (by simp_all [eq_comm])),
        ihc (h.member rfl (m := (op.roles.2.2, _)) (by simp) (by simp_all [eq_comm]))⟩
    | quaternary op a b c d iha ihb ihc ihd =>
      rw [toJson] at h
      exact ⟨iha (h.member rfl (m := ("x1", _)) (by simp) (by simp)),
        ihb (h.member rfl (m := ("y1", _)) (by simp) (by simp)),
        ihc (h.member rfl (m := ("x2", _)) (by simp) (by simp)),
        ihd (h.member rfl (m := ("y2", _)) (by simp) (by simp))⟩
  · exact fun h => admitted_of_exprSchema (exprSchema_valid (hasForm_toJson h) le_rfl [])

/-! ### The grammar -/

namespace Json

/-- What is asked of the members of an object holds **throughout** a value if each object in it
meets it. -/
def Throughout (P : List (String × Json) → Prop) (j : Json) : Prop :=
  ∀ members, (obj members).Within j → P members

section Throughout

variable {P : List (String × Json) → Prop}

@[simp] theorem throughout_num (x : Float) : (num x).Throughout P := by
  intro members h
  cases h

@[simp] theorem throughout_str (s : String) : (str s).Throughout P := by
  intro members h
  cases h

@[simp] theorem throughout_arr {items : List Json} :
    (arr items).Throughout P ↔ ∀ j ∈ items, j.Throughout P := by
  constructor
  · exact fun h j hj members hwithin => h members (.item hj hwithin)
  · intro h members hwithin
    cases hwithin with
    | item hj hwithin => exact h _ hj members hwithin

@[simp] theorem throughout_obj {members : List (String × Json)} :
    (obj members).Throughout P ↔ P members ∧ ∀ m ∈ members, m.2.Throughout P := by
  constructor
  · exact fun h => ⟨h members .self, fun m hm inner hwithin => h inner (.member hm hwithin)⟩
  · rintro ⟨hself, h⟩ inner hwithin
    cases hwithin with
    | self => exact hself
    | member hm hwithin => exact h _ hm inner hwithin

end Throughout

/-- The names of members are **distinct**, as they are in every object. -/
def DistinctNames (members : List (String × Json)) : Prop :=
  (members.map (·.1)).Nodup

/-- An array value is **bare** if it has nothing but its elements. -/
def BareArray (members : List (String × Json)) : Prop :=
  lookup "op" members = some (.str "av") → OnlyRoles members ["elements"]

variable {further further' : Json → Prop} {j : Json}

/-- A JSON value is an **element** of an array value: a number, or a nested list of elements,
written plainly or as an array value, whose further members are as they may be. -/
inductive IsElement (further : Json → Prop) : Json → Prop
  | number (x : Float) : IsElement further (.num x)
  | list {items : List Json} (h : ∀ x ∈ items, IsElement further x) : IsElement further (.arr items)
  | array {members : List (String × Json)} {items : List Json}
    (hop : lookup "op" members = some (.str "av"))
    (helements : lookup "elements" members = some (.arr items))
    (hfurther : ∀ m ∈ members, m.1 = "op" ∨ m.1 = "elements" ∨ further m.2)
    (h : ∀ x ∈ items, IsElement further x) : IsElement further (.obj members)

/-- A JSON value is an **expression**: a text, a number, a truth value, a constant, a distribution
with its bounds in order, or an object with an opcode and exactly its operands, each of which is an
expression, but for the list of the elements of an array value. -/
inductive IsExpression (further : Json → Prop) : Json → Prop
  | text (s : String) : IsExpression further (.str s)
  | number (x : Float) : IsExpression further (.num x)
  | truth (b : Bool) : IsExpression further (.bool b)
  | constant {members : List (String × Json)} {c : NamedConstant} (hc : c.Declared)
    (hconstant : lookup "constant" members = some (.str c.symbol))
    (honly : ∀ m ∈ members, m.1 = "constant") : IsExpression further (.obj members)
  | uniform {members : List (String × Json)} {l u : Float} (horder : l ≤ u)
    (hname : lookup "distribution" members = some (.str "Uniform"))
    (hargs : lookup "args" members = some (.arr [.num l, .num u]))
    (honly : ∀ m ∈ members, m.1 = "distribution" ∨ m.1 = "args") :
      IsExpression further (.obj members)
  | array {members : List (String × Json)} {items : List Json}
    (hop : lookup "op" members = some (.str "av"))
    (helements : lookup "elements" members = some (.arr items))
    (honly : OnlyRoles members ["elements"])
    (h : ∀ x ∈ items, IsElement further x) : IsExpression further (.obj members)
  | operator {members : List (String × Json)} {s : String} {o : Opcode}
    (hop : lookup "op" members = some (.str s)) (hspells : o.Spells s) (hne : o ≠ .elements)
    (honly : OnlyRoles members o.roles)
    (hroles : ∀ role ∈ o.roles, (lookup role members).isSome)
    (h : ∀ role ∈ o.roles, ∀ v, lookup role members = some v → IsExpression further v) :
    IsExpression further (.obj members)

theorem IsElement.mono (h : j.IsElement further) (hsub : ∀ v, further v → further' v) :
    j.IsElement further' := by
  induction h with
  | number x => exact .number x
  | list _ ih => exact .list ih
  | array hop helements hfurther _ ih =>
    exact .array hop helements (fun m hm => (hfurther m hm).imp_right (·.imp_right (hsub _))) ih

theorem IsExpression.mono (h : j.IsExpression further) (hsub : ∀ v, further v → further' v) :
    j.IsExpression further' := by
  induction h with
  | text s => exact .text s
  | number x => exact .number x
  | truth b => exact .truth b
  | constant hc hconstant honly => exact .constant hc hconstant honly
  | uniform horder hname hargs honly => exact .uniform horder hname hargs honly
  | array hop helements honly h =>
    exact .array hop helements honly fun x hx => (h x hx).mono hsub
  | operator hop hspells hne honly hroles _ ih => exact .operator hop hspells hne honly hroles ih

/-- An expression with the opcode of array values is an array value. -/
theorem IsExpression.of_array {members : List (String × Json)}
    (h : (obj members).IsExpression further) (hop : lookup "op" members = some (.str "av")) :
    ∃ items, lookup "elements" members = some (.arr items) ∧ OnlyRoles members ["elements"] ∧
      ∀ x ∈ items, x.IsElement further := by
  cases h with
  | constant _ _ honly => exact absurd (honly _ (mem_of_lookup hop)) (by simp)
  | uniform _ _ _ honly => exact absurd (honly _ (mem_of_lookup hop)) (by simp)
  | array _ helements honly h => exact ⟨_, helements, honly, h⟩
  | operator hop' hspells hne =>
    cases hop.symm.trans hop'
    have ho := (Opcode.ofCode?_eq_some.2 hspells).symm.trans (Opcode.ofCode?_code .elements)
    exact absurd (Option.some.inj ho) hne

/-- Elements of a value whose array values are bare have no further members. -/
theorem IsElement.bare (h : j.IsElement further) (hbare : j.Throughout BareArray) :
    j.IsElement fun _ => False := by
  induction h with
  | number x => exact .number x
  | list _ ih => exact .list fun x hx => ih x hx (throughout_arr.1 hbare x hx)
  | array hop helements _ _ ih =>
    obtain ⟨hself, hmembers⟩ := throughout_obj.1 hbare
    have hitems := throughout_arr.1 (hmembers _ (mem_of_lookup helements))
    refine .array hop helements (fun m hm => ?_) fun x hx => ih x hx (hitems x hx)
    simpa using hself hop m hm

/-- Expressions of a value whose array values are bare have no further members. -/
theorem IsExpression.bare (h : j.IsExpression further) (hbare : j.Throughout BareArray) :
    j.IsExpression fun _ => False := by
  induction h with
  | text s => exact .text s
  | number x => exact .number x
  | truth b => exact .truth b
  | constant hc hconstant honly => exact .constant hc hconstant honly
  | uniform horder hname hargs honly => exact .uniform horder hname hargs honly
  | array hop helements honly h =>
    have hitems := throughout_arr.1 ((throughout_obj.1 hbare).2 _ (mem_of_lookup helements))
    exact .array hop helements honly fun x hx => (h x hx).bare (hitems x hx)
  | operator hop hspells hne honly hroles _ ih =>
    refine .operator hop hspells hne honly hroles fun role hrole v hv => ih role hrole v hv ?_
    exact (throughout_obj.1 hbare).2 _ (mem_of_lookup hv)

/-- Elements are admitted if their further members are. -/
theorem IsElement.admitted (h : j.IsElement Admitted) (hj : j.Throughout DistinctNames) :
    j.Admitted := by
  induction h with
  | number x => exact .number x
  | list _ ih => exact .list fun x hx => ih x hx (throughout_arr.1 hj x hx)
  | array hop helements hfurther _ ih =>
    obtain ⟨hnames, hmembers⟩ := throughout_obj.1 hj
    have hitems := throughout_arr.1 (hmembers _ (mem_of_lookup helements))
    refine .operator hop fun m hm hne => ?_
    rcases hfurther m hm with heq | heq | hadmitted
    · exact absurd heq hne
    · have hm := (lookup_eq_some hnames).2 (heq ▸ hm : ("elements", m.2) ∈ _)
      rw [← Option.some.inj (helements.symm.trans hm)]
      exact .list fun x hx => ih x hx (hitems x hx)
    · exact hadmitted

/-- Expressions are admitted. -/
theorem IsExpression.admitted (h : j.IsExpression Admitted) (hj : j.Throughout DistinctNames) :
    j.Admitted := by
  induction h with
  | text s => exact .text s
  | number x => exact .number x
  | truth b => exact .truth b
  | constant hc hconstant honly => exact .constant hc hconstant honly
  | uniform _ hname hargs honly => exact .uniform _ _ hname hargs honly
  | array hop helements honly h =>
    refine (IsElement.array hop helements (fun m hm => ?_) h).admitted hj
    exact (honly m hm).imp_right fun hmem => .inl (List.mem_singleton.1 hmem)
  | operator hop _ _ honly _ _ ih =>
    obtain ⟨hnames, hmembers⟩ := throughout_obj.1 hj
    refine .operator hop fun m hm hne => ?_
    exact ih m.1 ((honly m hm).resolve_left hne) m.2 ((lookup_eq_some hnames).2 hm) (hmembers m hm)

end Json

/-! ### Reading elements -/

namespace Element

variable {path : String} {i : Nat} {j : Json} {js : List Json}

/-- Elements are read one by one. -/
theorem exists_listOfJson (h : ∀ j ∈ js, ∀ path, ∃ r, ofJson path j = .ok r)
    (path : String) (i : Nat) :
    ∃ r, listOfJson path i js = .ok r := by
  induction js generalizing i with
  | nil => exact ⟨_, by rw [listOfJson]⟩
  | cons j js ih =>
    obtain ⟨hj, hjs⟩ := List.forall_mem_cons.1 h
    obtain ⟨r, hr⟩ := hj (path ++ "[" ++ Number.natText i ++ "]")
    obtain ⟨rs, hrs⟩ := ih hjs (i + 1)
    rw [listOfJson]
    exact ⟨_, Result.bind_eq_ok.2 ⟨r, hr, Result.bind_eq_ok.2 ⟨rs, hrs, rfl⟩⟩⟩

theorem exists_of_listOfJson {r : NumKind × List Element} (h : listOfJson path i js = .ok r) :
    ∀ j ∈ js, ∃ path r, ofJson path j = .ok r := by
  induction js generalizing i r with
  | nil => simp
  | cons j js ih =>
    rw [listOfJson] at h
    obtain ⟨first, hfirst, h⟩ := Result.bind_eq_ok.1 h
    obtain ⟨rest, hrest, -⟩ := Result.bind_eq_ok.1 h
    exact List.forall_mem_cons.2 ⟨⟨_, first, hfirst⟩, ih hrest⟩

/-- What is read as an element is one, if it is admitted. -/
theorem isElement_of_ofJson {r : NumKind × Element} (hj : j.Admitted) (h : ofJson path j = .ok r) :
    j.IsElement Json.Admitted := by
  -- members of an object are reached by a lookup, so the induction is on the size
  induction hn : sizeOf j using Nat.strong_induction_on generalizing j path r with
  | _ n ih =>
    subst hn
    have hlist {items : List Json} {r : NumKind × List Element} (hlt : sizeOf items < sizeOf j)
        (hitems : (Json.arr items).Admitted) (hr : listOfJson path 0 items = .ok r) :
        ∀ x ∈ items, x.IsElement Json.Admitted := by
      intro x hx
      obtain ⟨path, r, hxr⟩ := exists_of_listOfJson hr x hx
      exact ih _ ((List.sizeOf_lt_of_mem hx).trans hlt) (hitems.item x hx) hxr rfl
    cases j with
    | num x => exact .number x
    | arr items =>
      rw [ofJson] at h
      obtain ⟨r, hr, -⟩ := Result.map_eq_ok.1 h
      exact .list (hlist (by simp) hj hr)
    | obj members =>
      rw [ofJson] at h
      split at h
      · rename_i op items hop helements
        split at h
        · rename_i hav
          subst hav
          obtain ⟨r, hr, -⟩ := Result.map_eq_ok.1 h
          have hlt := Json.sizeOf_lt_of_lookup helements
          rw [Json.arr.sizeOf_spec] at hlt
          have hitems := hj.member hop (Json.mem_of_lookup helements) (by simp)
          refine .array hop helements (fun m hm => ?_) (hlist (by omega) hitems hr)
          by_cases hne : m.1 = "op"
          · exact .inl hne
          · exact .inr (.inr (hj.member hop hm hne))
        · cases h
      · cases h
    | null | bool | str =>
      rw [ofJson] at h
      · cases h
      all_goals simp

/-- Elements are read as such. -/
theorem exists_of_isElement {further : Json → Prop} (h : j.IsElement further) (path : String) :
    ∃ r, ofJson path j = .ok r := by
  induction h generalizing path with
  | number x => exact ⟨_, by rw [ofJson]⟩
  | list _ ih =>
    obtain ⟨r, hr⟩ := exists_listOfJson ih path 0
    exact ⟨_, by rw [ofJson, hr, Except.map]⟩
  | array hop helements _ _ ih =>
    obtain ⟨r, hr⟩ := exists_listOfJson ih path 0
    exact ⟨_, by rw [ofJson_obj path hop helements, hr, Except.map]⟩

end Element

/-! ### Reading operands -/

namespace Expr

variable {path s : String} {o : Opcode} {members : List (String × Json)} {e : Expr} {j : Json}

section Operator

variable (hop : Json.lookup "op" members = some (.str s)) (ho : Opcode.ofCode? s = some o)
  (hne : o ≠ .elements)

include hop ho hne

/-- An operator that is read has exactly its operands, and they are read. -/
theorem reads_of_operator (h : ofOperand path (.obj members) = .ok e) :
    OnlyRoles members o.roles ∧ ∀ role ∈ o.roles, ∃ path e, ReadsAt path role members e := by
  cases o with
  | elements => exact absurd rfl hne
  | unary o =>
    obtain ⟨a, ha, honly, -⟩ := (ofOperand_unary hop ho).1 h
    exact ⟨honly, by simpa [Opcode.roles] using ⟨_, a, ha⟩⟩
  | binary o =>
    obtain ⟨a, ha, b, hb, honly, -⟩ := (ofOperand_binary hop ho).1 h
    exact ⟨honly, by simpa [Opcode.roles] using And.intro ⟨_, a, ha⟩ ⟨_, b, hb⟩⟩
  | ternary o =>
    obtain ⟨a, ha, b, hb, c, hc, honly, -⟩ := (ofOperand_ternary hop ho).1 h
    exact ⟨honly, by simpa [Opcode.roles] using And.intro ⟨_, a, ha⟩ ⟨⟨_, b, hb⟩, ⟨_, c, hc⟩⟩⟩
  | quaternary o =>
    obtain ⟨a, ha, b, hb, c, hc, d, hd, honly, -⟩ := (ofOperand_quaternary hop ho).1 h
    exact ⟨honly, by
      simpa [Opcode.roles] using And.intro ⟨_, a, ha⟩ ⟨⟨_, b, hb⟩, ⟨_, c, hc⟩, ⟨_, d, hd⟩⟩⟩

/-- An operator with exactly its operands is read if they are. -/
theorem exists_of_operator (honly : OnlyRoles members o.roles)
    (h : ∀ role ∈ o.roles, ∀ path, ∃ e, ReadsAt path role members e) (path : String) :
    ∃ e, ofOperand path (.obj members) = .ok e := by
  cases o with
  | elements => exact absurd rfl hne
  | unary o =>
    obtain ⟨a, ha⟩ := h "exp" (by simp [Opcode.roles]) (path ++ ".exp")
    exact ⟨_, (ofOperand_unary hop ho).2 ⟨a, ha, honly, rfl⟩⟩
  | binary o =>
    obtain ⟨a, ha⟩ := h o.roles.1 (by simp [Opcode.roles]) (path ++ "." ++ o.roles.1)
    obtain ⟨b, hb⟩ := h o.roles.2 (by simp [Opcode.roles]) (path ++ "." ++ o.roles.2)
    exact ⟨_, (ofOperand_binary hop ho).2 ⟨a, ha, b, hb, honly, rfl⟩⟩
  | ternary o =>
    obtain ⟨a, ha⟩ := h o.roles.1 (by simp [Opcode.roles]) (path ++ "." ++ o.roles.1)
    obtain ⟨b, hb⟩ := h o.roles.2.1 (by simp [Opcode.roles]) (path ++ "." ++ o.roles.2.1)
    obtain ⟨c, hc⟩ := h o.roles.2.2 (by simp [Opcode.roles]) (path ++ "." ++ o.roles.2.2)
    exact ⟨_, (ofOperand_ternary hop ho).2 ⟨a, ha, b, hb, c, hc, honly, rfl⟩⟩
  | quaternary o =>
    obtain ⟨a, ha⟩ := h "x1" (by simp [Opcode.roles]) (path ++ ".x1")
    obtain ⟨b, hb⟩ := h "y1" (by simp [Opcode.roles]) (path ++ ".y1")
    obtain ⟨c, hc⟩ := h "x2" (by simp [Opcode.roles]) (path ++ ".x2")
    obtain ⟨d, hd⟩ := h "y2" (by simp [Opcode.roles]) (path ++ ".y2")
    exact ⟨_, (ofOperand_quaternary hop ho).2 ⟨a, ha, b, hb, c, hc, d, hd, honly, rfl⟩⟩

end Operator

theorem ofOperand_constant {c : NamedConstant} (hc : c.Declared)
    (hconstant : Json.lookup "constant" members = some (.str c.symbol))
    (honly : ∀ m ∈ members, m.1 = "constant") :
    ofOperand path (.obj members) = .ok (.lit (.constant c)) := by
  have hop : Json.lookup "op" members = none :=
    @Json.lookup_eq_none _ ["constant"] _ (by simpa using honly) (by decide)
  rw [ofOperand]
  simp only [hop, hconstant]
  cases c with
  | e | pi => rfl
  | inherited m => exact hc.elim

theorem ofOperand_uniform {l u : Float}
    (hargs : Json.lookup "args" members = some (.arr [.num l, .num u]))
    (honly : ∀ m ∈ members, m.1 = "distribution" ∨ m.1 = "args") :
    ofOperand path (.obj members) = mkUniform l u := by
  have hnone (name : String) (h : name ∉ ["distribution", "args"]) :
    Json.lookup name members = none :=
    Json.lookup_eq_none (by simpa using honly) h
  have hop := hnone "op" (by decide)
  have hconstant := hnone "constant" (by decide)
  rw [ofOperand]
  simp only [hop, hconstant, hargs]

/-- **What is read is an expression**, if it is admitted. -/
theorem isExpression_of_ofOperand (hj : j.Admitted) (h : ofOperand path j = .ok e) :
    j.IsExpression Json.Admitted := by
  -- the induction is on the size, as for items of arrays
  induction hn : sizeOf j using Nat.strong_induction_on generalizing j path e with
  | _ n ih =>
    subst hn
    cases hj with
    | text s => exact .text s
    | number x => exact .number x
    | truth b => exact .truth b
    | constant hc hconstant honly => exact .constant hc hconstant honly
    | uniform l u hname hargs honly =>
      rw [ofOperand_uniform hargs honly] at h
      exact .uniform (mkUniform_eq_ok.1 h).1 hname hargs honly
    | @operator members s hop hmembers =>
      have hj : (Json.obj members).Admitted := .operator hop hmembers
      cases ho : Opcode.ofCode? s with
      | none =>
        rw [ofOperand] at h
        simp [hop, ho] at h
      | some o =>
        by_cases hne : o = .elements
        · subst hne
          -- the items of an array literal have a reader of their own
          obtain ⟨items, hitems, k, els, hels, honly, -⟩ := (ofOperand_elements hop ho).1 h
          obtain rfl := Opcode.eq_of_spells_elements (Opcode.ofCode?_eq_some.1 ho)
          have hadmitted := hj.member hop (Json.mem_of_lookup hitems) (by simp)
          refine .array hop hitems honly fun x hx => ?_
          obtain ⟨path, r, hr⟩ := Element.exists_of_listOfJson hels x hx
          exact Element.isElement_of_ofJson (hadmitted.item x hx) hr
        · obtain ⟨honly, hroles⟩ := reads_of_operator hop ho hne h
          have hrole {role : String} (hrole : role ∈ o.roles) {v : Json}
              (hv : Json.lookup role members = some v) : v.IsExpression Json.Admitted := by
            obtain ⟨path, e, w, hw, he⟩ := hroles role hrole
            obtain rfl := Option.some.inj (hv.symm.trans hw)
            exact ih _ (Json.sizeOf_lt_of_lookup hv)
              (hj.member hop (Json.mem_of_lookup hv) (Opcode.ne_of_mem_roles hrole)) he rfl
          refine .operator hop (Opcode.ofCode?_eq_some.1 ho) hne honly (fun role hmem => ?_)
            fun role hmem v hv => hrole hmem hv
          obtain ⟨path, e, w, hw, -⟩ := hroles role hmem
          exact Option.isSome_iff_exists.2 ⟨w, hw⟩
    | list _ =>
      rw [ofOperand] at h
      cases h

/-- **Expressions are read.** -/
theorem exists_of_isExpression {further : Json → Prop} (h : j.IsExpression further)
    (path : String) :
    ∃ e, ofOperand path j = .ok e := by
  induction h generalizing path with
  | text s => exact ⟨_, by rw [ofOperand]⟩
  | number x => exact ⟨_, by rw [ofOperand]⟩
  | truth b => exact ⟨_, by rw [ofOperand]⟩
  | constant hc hconstant honly => exact ⟨_, ofOperand_constant hc hconstant honly⟩
  | uniform horder _ hargs honly =>
    exact ⟨_, (ofOperand_uniform hargs honly).trans (mkUniform_eq_ok.2 ⟨horder, rfl⟩)⟩
  | array hop helements honly h =>
    obtain ⟨r, hr⟩ := Element.exists_listOfJson (fun x hx => Element.exists_of_isElement (h x hx))
      (path ++ ".elements") 0
    exact ⟨_, (ofOperand_elements hop (Opcode.ofCode?_code .elements)).2
      ⟨_, helements, r.1, r.2, hr, honly, rfl⟩⟩
  | operator hop hspells hne honly hroles _ ih =>
    refine exists_of_operator hop (Opcode.ofCode?_eq_some.2 hspells) hne honly
      (fun role hrole path => ?_)
      path
    obtain ⟨v, hv⟩ := Option.isSome_iff_exists.1 (hroles role hrole)
    obtain ⟨e, he⟩ := ih role hrole v hv path
    exact ⟨e, v, hv, he⟩

/-- **Exactly the expressions are read**: a value whose objects have distinct names is read if it is
an expression, where an array value inside of another one may have any further members that are
admitted. If no array value in it has further members, it is read if it is an expression without
any. -/
theorem exists_ofJson_iff (j : Json) (hj : j.Throughout Json.DistinctNames) :
    ((∃ e, ofJson j = .ok e) ↔ j.IsExpression Json.Admitted) ∧
      (j.Throughout Json.BareArray →
        ((∃ e, ofJson j = .ok e) ↔ j.IsExpression fun _ => False)) := by
  have hiff : (∃ e, ofJson j = .ok e) ↔ j.IsExpression Json.Admitted := by
    simp only [ofJson_eq_ok]
    constructor
    · rintro ⟨e, hadmitted, he⟩
      exact isExpression_of_ofOperand hadmitted he
    · intro h
      obtain ⟨e, he⟩ := exists_of_isExpression h "<expression>"
      exact ⟨e, h.admitted hj, he⟩
  refine ⟨hiff, fun hbare => hiff.trans ⟨fun h => h.bare hbare, fun h => h.mono ?_⟩⟩
  exact fun _ hfalse => hfalse.elim

/-- An array value with a member of another name is refused as an operand, and accepted as an
element. -/
theorem exists_ofJson_iff_of_further_member :
    let array (items : List Json) (further : List (String × Json)) : Json :=
      .obj (("op", .str "av") :: ("elements", .arr items) :: further)
    let further : List (String × Json) := [("x", .num 2)]
    let nested := array [array [.num 1] further] []
    let bare := array [array [.num 1] []] []
    nested.Throughout Json.DistinctNames ∧ bare.Throughout Json.DistinctNames ∧
      bare.Throughout Json.BareArray ∧
      (¬∃ e, ofJson (array [.num 1] further) = .ok e) ∧
      (∃ e, ofJson nested = .ok e) ∧ nested.IsExpression Json.Admitted ∧
      (¬nested.IsExpression fun _ => False) ∧
      (∃ e, ofJson bare = .ok e) ∧ bare.IsExpression fun _ => False := by
  intro array further nested bare
  have hitems {further : Json → Prop} : ∀ x ∈ [Json.num 1], x.IsElement further := by
    simpa using Json.IsElement.number 1
  have honly : ¬OnlyRoles (("op", .str "av") :: ("elements", .arr [.num 1]) :: further)
    ["elements"] := by
    simp [OnlyRoles, further]
  have houter (x : Json) : OnlyRoles [("op", .str "av"), ("elements", .arr [x])] ["elements"] := by
    simp [OnlyRoles]
  have hnames : nested.Throughout Json.DistinctNames := by
    simp [nested, array, further, Json.DistinctNames]
  have hbareNames : bare.Throughout Json.DistinctNames := by
    simp [bare, array, Json.DistinctNames]
  have hbare : bare.Throughout Json.BareArray := by
    simp [bare, array, Json.BareArray, OnlyRoles]
  -- as an operand an array has no further member; as an item it may
  have hoperand : ¬(array [.num 1] further).IsExpression Json.Admitted := by
    intro h
    obtain ⟨-, -, hroles, -⟩ := h.of_array rfl
    exact honly hroles
  have hnested : nested.IsExpression Json.Admitted := by
    refine .array rfl rfl (houter _) ?_
    simpa using Json.IsElement.array rfl rfl (by simp [further, Json.Admitted.number]) hitems
  have hrefused : ¬nested.IsExpression fun _ => False := by
    intro h
    obtain ⟨items, hitems, -, h⟩ := h.of_array rfl
    cases hitems
    cases h _ List.mem_cons_self with
    | array _ _ hfurther _ => simp [further] at hfurther
  have hplain : bare.IsExpression fun _ => False := by
    refine .array rfl rfl (houter _) ?_
    simpa using Json.IsElement.array rfl rfl (by simp) hitems
  have hoperandNames : (array [.num 1] further).Throughout Json.DistinctNames := by
    simp [array, further, Json.DistinctNames]
  exact ⟨hnames, hbareNames, hbare, fun h => hoperand ((exists_ofJson_iff _ hoperandNames).1.1 h),
    (exists_ofJson_iff nested hnames).1.2 hnested, hnested, hrefused,
    ((exists_ofJson_iff bare hbareNames).2 hbare).2 hplain, hplain⟩

end Expr

end ChartNet
