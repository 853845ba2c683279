import ChartNet.Json.Parser
import ChartNet.Proofs.Expr.Form
import ChartNet.Proofs.Model.Opcodes

/-!
# Expressions through their JSON form

JSON does not say of what kind a number is, so what was written is read back `retagged`. Reading
only ever gives expressions that have the kinds that their numbers need, and these numbers stand in
the value that was read. So an expression that was read once is read back as it is.
-/

namespace ChartNet

/-! ### Reading what was written -/

/-- The roles of an operator are distinct, and none is that of the opcode. -/
theorem BinaryOp.nodup_roles (op : BinaryOp) : ["op", op.roles.1, op.roles.2].Nodup := by
  cases op <;> decide

theorem TernaryOp.nodup_roles (op : TernaryOp) :
    ["op", op.roles.1, op.roles.2.1, op.roles.2.2].Nodup := by
  cases op <;> decide

/-- Every opcode is read as the entry that it is written for. -/
theorem Opcode.ofCode?_code (o : Opcode) : Opcode.ofCode? o.code = some o := by
  cases o with
  | elements => decide
  | unary op => cases op <;> decide
  | binary op => cases op <;> decide
  | ternary op => cases op <;> decide
  | quaternary op => cases op <;> decide

/-- An object with the opcode of an array value is read through its elements. -/
theorem Element.ofJson_obj {members : List (String × Json)} {items : List Json} (path : String)
    (hop : Json.lookup "op" members = some (.str "av"))
    (helements : Json.lookup "elements" members = some (.arr items)) :
    Element.ofJson path (.obj members) =
      (Element.listOfJson path 0 items).map fun r => (r.1, .list r.2) := by
  rw [Element.ofJson]
  split
  · simp_all
  · simp_all

mutual

theorem Element.ofJson_toJson (path : String) : (el : Element) →
    Element.ofJson path el.toJson = .ok (.ofNumbers el.numbers, el)
  | .num x => by
    simp [Element.toJson, Element.ofJson, Element.numbers, NumKind.ofNumbers]
  | .list items => by
    rw [Element.toJson, Element.ofJson_obj path rfl rfl, Element.listOfJson_toJson path 0 items]
    rfl

theorem Element.listOfJson_toJson (path : String) (i : Nat) : (els : List Element) →
    Element.listOfJson path i (Element.listToJson els) =
      .ok (.ofNumbers (Element.numbersOf els), els)
  | [] => by
    rw [Element.listToJson, Element.listOfJson]
    rfl
  | el :: els => by
    rw [Element.listToJson, Element.listOfJson, Element.ofJson_toJson _ el,
      Element.numbersOf, NumKind.ofNumbers_append]
    simp only [bind, Except.bind, Element.listOfJson_toJson path (i + 1) els]
    rfl

end

/-- The members of an object are **only** its opcode and operands of the given roles. -/
def OnlyRoles (members : List (String × Json)) (roles : List String) : Prop :=
  ∀ m ∈ members, m.1 = "op" ∨ m.1 ∈ roles

theorem noOtherOperands_eq_ok {op path : String} {members : List (String × Json)}
    {roles : List String} {u : Unit} :
    noOtherOperands op path members roles = .ok u ↔ OnlyRoles members roles := by
  have hnone : ((members.map (·.1)).filter fun k => k != "op" && !roles.contains k) = [] ↔
      OnlyRoles members roles := by
    simp [List.filter_eq_nil_iff, OnlyRoles, or_iff_not_imp_left]
  rw [← hnone, noOtherOperands]
  split
  · simp_all
  · simp_all [failModel]

/-- An operand is read if it is there and can be read. -/
theorem operandAt_eq_ok {op path role : String} {members : List (String × Json)}
    {read : (v : Json) → sizeOf v < sizeOf (Json.obj members) → Result Expr} {e : Expr} :
    operandAt op path members role read = .ok e ↔
      ∃ v, ∃ h : Json.lookup role members = some v,
        read v (Json.sizeOf_lt_of_lookup h) = .ok e := by
  unfold operandAt
  split
  · rename_i v hv
    constructor
    · exact fun h => ⟨v, hv, h⟩
    · rintro ⟨w, hw, h⟩
      obtain rfl : v = w := Option.some.inj (hv.symm.trans hw)
      exact h
  · rename_i hnone
    simp [hnone, failModel]

/-! Reading an object with an opcode, one equivalence for each number of operands. -/

namespace Expr

variable {path s : String} {members : List (String × Json)} {e : Expr}

/-- The operand of a role **reads** as an expression, at its own path. -/
def ReadsAt (path role : String) (members : List (String × Json)) (e : Expr) : Prop :=
  ∃ v, Json.lookup role members = some v ∧ ofOperand path v = .ok e

theorem ofOperand_elements (hop : Json.lookup "op" members = some (.str s))
    (ho : Opcode.ofCode? s = some .elements) :
    ofOperand path (.obj members) = .ok e ↔
      ∃ items, Json.lookup "elements" members = some (.arr items) ∧
        ∃ k els, Element.listOfJson (path ++ ".elements") 0 items = .ok (k, els) ∧
          OnlyRoles members ["elements"] ∧ array ⟨k, els⟩ = e := by
  rw [ofOperand]
  cases Json.lookup "elements" members with
  | none => simp [hop, ho, failModel, bind, Except.bind]
  | some v =>
    cases v <;> simp [hop, ho, failModel, Result.bind_eq_ok, noOtherOperands_eq_ok, pure,
      Except.pure, -bind_pure_comp]

theorem ofOperand_unary {o : UnaryOp} (hop : Json.lookup "op" members = some (.str s))
    (ho : Opcode.ofCode? s = some (.unary o)) :
    ofOperand path (.obj members) = .ok e ↔
      ∃ a, ReadsAt (path ++ ".exp") "exp" members a ∧ OnlyRoles members ["exp"] ∧
        unary o a = e := by
  rw [ofOperand]
  simp [hop, ho, Result.bind_eq_ok, operandAt_eq_ok, noOtherOperands_eq_ok, ReadsAt, pure,
    Except.pure, -bind_pure_comp]

theorem ofOperand_binary {o : BinaryOp} (hop : Json.lookup "op" members = some (.str s))
    (ho : Opcode.ofCode? s = some (.binary o)) :
    ofOperand path (.obj members) = .ok e ↔
      ∃ a, ReadsAt (path ++ "." ++ o.roles.1) o.roles.1 members a ∧
        ∃ b, ReadsAt (path ++ "." ++ o.roles.2) o.roles.2 members b ∧
          OnlyRoles members [o.roles.1, o.roles.2] ∧ binary o a b = e := by
  rw [ofOperand]
  simp [hop, ho, Result.bind_eq_ok, operandAt_eq_ok, noOtherOperands_eq_ok, ReadsAt, pure,
    Except.pure, -bind_pure_comp]

theorem ofOperand_ternary {o : TernaryOp} (hop : Json.lookup "op" members = some (.str s))
    (ho : Opcode.ofCode? s = some (.ternary o)) :
    ofOperand path (.obj members) = .ok e ↔
      ∃ a, ReadsAt (path ++ "." ++ o.roles.1) o.roles.1 members a ∧
        ∃ b, ReadsAt (path ++ "." ++ o.roles.2.1) o.roles.2.1 members b ∧
          ∃ c, ReadsAt (path ++ "." ++ o.roles.2.2) o.roles.2.2 members c ∧
            OnlyRoles members [o.roles.1, o.roles.2.1, o.roles.2.2] ∧ ternary o a b c = e := by
  rw [ofOperand]
  simp [hop, ho, Result.bind_eq_ok, operandAt_eq_ok, noOtherOperands_eq_ok, ReadsAt, pure,
    Except.pure, -bind_pure_comp]

theorem ofOperand_quaternary {o : QuaternaryOp} (hop : Json.lookup "op" members = some (.str s))
    (ho : Opcode.ofCode? s = some (.quaternary o)) :
    ofOperand path (.obj members) = .ok e ↔
      ∃ a, ReadsAt (path ++ ".x1") "x1" members a ∧ ∃ b, ReadsAt (path ++ ".y1") "y1" members b ∧
        ∃ c, ReadsAt (path ++ ".x2") "x2" members c ∧
          ∃ d, ReadsAt (path ++ ".y2") "y2" members d ∧
            OnlyRoles members ["x1", "y1", "x2", "y2"] ∧ quaternary o a b c d = e := by
  rw [ofOperand]
  simp [hop, ho, Result.bind_eq_ok, operandAt_eq_ok, noOtherOperands_eq_ok, ReadsAt, pure,
    Except.pure, -bind_pure_comp]

/-- **What was written is read back with the kinds that its numbers need.** -/
theorem ofOperand_toJson {e : Expr} (h : e.Tagged) (hc : e.Declared) (path : String) :
    ofOperand path e.toJson = .ok e.retagged := by
  induction e generalizing path with
  | ident n => rw [toJson, ofOperand, retagged]
  | lit v =>
    rw [toJson, retagged]
    cases v with
    | bool b => rw [Literal.toJson, ofOperand]; rfl
    | constant c =>
      rw [Literal.toJson, NamedConstant.toJson_of_declared hc, ofOperand]
      cases c with
      | e | pi => rfl
      | inherited m => exact hc.elim
    | num k x =>
      rw [Literal.toJson, ofOperand, ofNumber]
      -- a whole number that is tagged as real is read back as an integer
      cases k with
      | int => rw [if_pos (h rfl)]; rfl
      | real => rw [Literal.retagged]; split <;> rfl
  | uniform l u =>
    rw [toJson, ofOperand]
    exact if_pos h
  | array v =>
    rw [toJson, ofOperand_elements rfl (Opcode.ofCode?_code .elements)]
    exact ⟨_, rfl, _, _, Element.listOfJson_toJson _ 0 v.elements, by simp [OnlyRoles], rfl⟩
  | unary op a iha =>
    rw [toJson, ofOperand_unary rfl (Opcode.ofCode?_code (.unary op))]
    exact ⟨_, ⟨_, rfl, iha h hc _⟩, by simp [OnlyRoles], rfl⟩
  | binary op a b iha ihb =>
    have hroles := op.nodup_roles
    rw [toJson, ofOperand_binary rfl (Opcode.ofCode?_code (.binary op))]
    exact ⟨_, ⟨_, by simp_all [Json.lookup], iha h.1 hc.1 _⟩,
      _, ⟨_, by simp_all [Json.lookup], ihb h.2 hc.2 _⟩, by simp [OnlyRoles], rfl⟩
  | ternary op a b c iha ihb ihc =>
    have hroles := op.nodup_roles
    rw [toJson, ofOperand_ternary rfl (Opcode.ofCode?_code (.ternary op))]
    exact ⟨_, ⟨_, by simp_all [Json.lookup], iha h.1 hc.1 _⟩,
      _, ⟨_, by simp_all [Json.lookup], ihb h.2.1 hc.2.1 _⟩,
      _, ⟨_, by simp_all [Json.lookup], ihc h.2.2 hc.2.2 _⟩, by simp [OnlyRoles], rfl⟩
  | quaternary op a b c d iha ihb ihc ihd =>
    rw [toJson, ofOperand_quaternary rfl (Opcode.ofCode?_code (.quaternary op))]
    exact ⟨_, ⟨_, rfl, iha h.1 hc.1 _⟩, _, ⟨_, rfl, ihb h.2.1 hc.2.1 _⟩,
      _, ⟨_, rfl, ihc h.2.2.1 hc.2.2.1 _⟩, _, ⟨_, rfl, ihd h.2.2.2 hc.2.2.2 _⟩,
      by simp [OnlyRoles], rfl⟩

theorem ofJson_toJson {e : Expr} (h : e.Tagged) (hc : e.Declared) (path : String) :
    ofJson e.toJson path = .ok e.retagged :=
  (ofJson_of_hasForm (hasForm_toJson hc) path).trans (ofOperand_toJson h hc path)

end Expr

/-! ### What reading gives -/

namespace Json

/-- A number within the value of a member stands within the object. -/
theorem Within.of_lookup {v w : Json} {role : String} {members : List (String × Json)}
    (h : lookup role members = some w) (hv : v.Within w) : v.Within (.obj members) := by
  obtain ⟨m, hm, rfl⟩ := Option.map_eq_some_iff.1 h
  exact .member (List.mem_of_find?_eq_some hm) hv

/-- A value is **finite** if all numbers within it are. -/
def Finite (j : Json) : Prop :=
  ∀ x, (num x).Within j → x.isFinite = true

@[simp] theorem finite_str (s : String) : (str s).Finite := by
  intro x h
  cases h

@[simp] theorem finite_num {x : Float} : (num x).Finite ↔ x.isFinite = true := by
  constructor
  · exact fun h => h x .self
  · intro hx y h
    cases h
    exact hx

@[simp] theorem finite_arr {items : List Json} : (arr items).Finite ↔ ∀ j ∈ items, j.Finite := by
  constructor
  · exact fun h j hj x hx => h x (.item hj hx)
  · intro h x hx
    cases hx with
    | item hj hx => exact h _ hj x hx

@[simp] theorem finite_obj {members : List (String × Json)} :
    (obj members).Finite ↔ ∀ m ∈ members, m.2.Finite := by
  constructor
  · exact fun h m hm x hx => h x (.member hm hx)
  · intro h x hx
    cases hx with
    | member hm hx => exact h _ hm x hx

end Json

/-- An element **comes from** a value with a kind: its numbers need the kind and stand in the
value. -/
structure Element.ComesFrom (j : Json) (r : NumKind × Element) : Prop where
  kind : r.1 = .ofNumbers r.2.numbers
  within : ∀ x ∈ r.2.numbers, (Json.num x).Within j

namespace Element

theorem of_listOfJson {path : String} {i : Nat} {js : List Json} {r : NumKind × List Element}
    (hread : ∀ j ∈ js, ∀ path r, ofJson path j = .ok r → ComesFrom j r)
    (h : listOfJson path i js = .ok r) : ComesFrom (.arr js) (r.1, .list r.2) := by
  induction js generalizing i r with
  | nil =>
    rw [listOfJson] at h
    cases h
    exact ⟨rfl, by simp [numbers, numbersOf]⟩
  | cons j js ih =>
    rw [listOfJson, Result.bind_eq_ok] at h
    obtain ⟨first, hfirst, h⟩ := h
    obtain ⟨rest, hrest, h⟩ := Result.bind_eq_ok.1 h
    cases h
    rw [List.forall_mem_cons] at hread
    have hj := hread.1 _ _ hfirst
    have hjs := ih hread.2 hrest
    constructor
    · rw [numbers, numbersOf, NumKind.ofNumbers_append, ← hj.kind]
      exact congrArg first.1.join hjs.kind
    · intro x hx
      rcases List.mem_append.1 hx with hx | hx
      · exact .item List.mem_cons_self (hj.within x hx)
      · cases hjs.within x hx with
        | item hmem hwithin => exact .item (List.mem_cons_of_mem _ hmem) hwithin

/-- **Reading an element** gives the kind that its numbers need, and numbers that stand in the
value. -/
theorem of_ofJson {path : String} {j : Json} {r : NumKind × Element}
    (h : ofJson path j = .ok r) : ComesFrom j r := by
  -- members of an object are reached by a lookup, so the induction is on the size
  induction hn : sizeOf j using Nat.strong_induction_on generalizing j path r with
  | _ n ih =>
    subst hn
    have hlist {items : List Json} {r : NumKind × List Element}
        (hlt : sizeOf items < sizeOf j) (hr : listOfJson path 0 items = .ok r) :
        ComesFrom (.arr items) (r.1, .list r.2) :=
      of_listOfJson (fun x hx path r hx' => ih _ ((List.sizeOf_lt_of_mem hx).trans hlt) hx' rfl) hr
    cases j with
    | num x =>
      rw [ofJson] at h
      cases h
      refine ⟨?_, ?_⟩ <;> simp [numbers, NumKind.ofNumbers, Json.Within.self]
    | arr items =>
      rw [ofJson] at h
      obtain ⟨r, hr, rfl⟩ := Result.map_eq_ok.1 h
      exact hlist (by simp) hr
    | obj members =>
      rw [ofJson] at h
      split at h
      · rename_i op items hop helements
        split at h
        · obtain ⟨r, hr, rfl⟩ := Result.map_eq_ok.1 h
          have hlt := Json.sizeOf_lt_of_lookup helements
          rw [Json.arr.sizeOf_spec] at hlt
          have hitems := hlist (by omega) hr
          exact ⟨hitems.kind, fun x hx => .of_lookup helements (hitems.within x hx)⟩
        · cases h
      · cases h
    | null | bool | str =>
      rw [ofJson] at h
      · cases h
      all_goals simp

end Element

namespace Expr

/-- An expression **comes from** a value: it is tagged correctly and as its numbers need, its
constants are declared, and its numbers stand in the value. -/
structure ComesFrom (j : Json) (e : Expr) : Prop where
  tagged : e.Tagged
  declared : e.Declared
  retagged : e.retagged = e
  within : ∀ x ∈ e.values, (Json.num x).Within j

section

variable {path role : String} {j : Json} {members : List (String × Json)} {e : Expr}

theorem comesFrom_ofNumber (x : Float) : ComesFrom (.num x) (ofNumber x) := by
  have hself := Json.Within.self (v := .num x)
  unfold ofNumber
  split
  · rename_i hwhole
    exact ⟨fun _ => hwhole, trivial, rfl, by simpa [int, values, Literal.values] using hself⟩
  · rename_i hfraction
    refine ⟨fun hint => ?_, trivial, congrArg lit (if_neg hfraction),
      by simpa [real, values, Literal.values] using hself⟩
    cases hint

theorem mkUniform_eq_ok {l u : Float} : mkUniform l u = .ok e ↔ l ≤ u ∧ uniform l u = e := by
  unfold mkUniform
  split <;> simp_all [failModel]

/-- The cases of an object without an opcode: a constant or a distribution. -/
theorem comesFrom_of_no_opcode (hop : ∀ s, Json.lookup "op" members ≠ some (.str s))
    (h : ofOperand path (.obj members) = .ok e) : ComesFrom (.obj members) e := by
  rw [ofOperand] at h
  split at h
  · rename_i s hs
    exact absurd hs (hop s)
  · split at h
    · cases h
      exact ⟨trivial, by split <;> trivial, rfl, by simp [values, Literal.values]⟩
    · rename_i l u hargs _
      obtain ⟨horder, rfl⟩ := mkUniform_eq_ok.1 h
      refine ⟨horder, trivial, rfl, fun x hx => .of_lookup hargs (.item (x := .num x) ?_ .self)⟩
      simpa [values] using hx
    · cases h

/-- An operand that comes from the value of its role has its numbers in the object. -/
theorem ReadsAt.comesFrom (hread : ∀ v, sizeOf v < sizeOf (Json.obj members) → ∀ path e,
    ofOperand path v = .ok e → ComesFrom v e) (h : ReadsAt path role members e) :
    ComesFrom (.obj members) e := by
  obtain ⟨v, hv, he⟩ := h
  have hfrom := hread v (Json.sizeOf_lt_of_lookup hv) path e he
  exact ⟨hfrom.tagged, hfrom.declared, hfrom.retagged,
    fun x hx => .of_lookup hv (hfrom.within x hx)⟩

/-- The cases of an object with an opcode, one for each number of operands. -/
theorem comesFrom_of_opcode {s : String} {o : Opcode}
    (hread : ∀ v, sizeOf v < sizeOf (Json.obj members) → ∀ path e,
      ofOperand path v = .ok e → ComesFrom v e)
    (hop : Json.lookup "op" members = some (.str s)) (ho : Opcode.ofCode? s = some o)
    (h : ofOperand path (.obj members) = .ok e) : ComesFrom (.obj members) e := by
  cases o with
  | elements =>
    obtain ⟨items, hitems, k, els, hels, -, rfl⟩ := (ofOperand_elements hop ho).1 h
    have hfrom := Element.of_listOfJson (fun _ _ _ _ => Element.of_ofJson) hels
    obtain rfl : k = .ofNumbers (Element.numbersOf els) := hfrom.kind
    exact ⟨fun x hx => NumKind.fits_ofNumbers hx, trivial, rfl,
      fun x hx => .of_lookup hitems (hfrom.within x hx)⟩
  | unary o =>
    obtain ⟨a, ha, -, rfl⟩ := (ofOperand_unary hop ho).1 h
    have ha := ha.comesFrom hread
    exact ⟨ha.tagged, ha.declared, by rw [Expr.retagged, ha.retagged], ha.within⟩
  | binary o =>
    obtain ⟨a, ha, b, hb, -, rfl⟩ := (ofOperand_binary hop ho).1 h
    have ha := ha.comesFrom hread
    have hb := hb.comesFrom hread
    refine ⟨⟨ha.tagged, hb.tagged⟩, ⟨ha.declared, hb.declared⟩,
      by rw [Expr.retagged, ha.retagged, hb.retagged], ?_⟩
    simpa [values, or_imp, forall_and] using And.intro ha.within hb.within
  | ternary o =>
    obtain ⟨a, ha, b, hb, c, hc, -, rfl⟩ := (ofOperand_ternary hop ho).1 h
    have ha := ha.comesFrom hread
    have hb := hb.comesFrom hread
    have hc := hc.comesFrom hread
    refine ⟨⟨ha.tagged, hb.tagged, hc.tagged⟩, ⟨ha.declared, hb.declared, hc.declared⟩,
      by rw [Expr.retagged, ha.retagged, hb.retagged, hc.retagged], ?_⟩
    simpa [values, or_imp, forall_and] using And.intro ha.within ⟨hb.within, hc.within⟩
  | quaternary o =>
    obtain ⟨a, ha, b, hb, c, hc, d, hd, -, rfl⟩ := (ofOperand_quaternary hop ho).1 h
    have ha := ha.comesFrom hread
    have hb := hb.comesFrom hread
    have hc := hc.comesFrom hread
    have hd := hd.comesFrom hread
    refine ⟨⟨ha.tagged, hb.tagged, hc.tagged, hd.tagged⟩,
      ⟨ha.declared, hb.declared, hc.declared, hd.declared⟩,
      by rw [Expr.retagged, ha.retagged, hb.retagged, hc.retagged, hd.retagged], ?_⟩
    simpa [values, or_imp, forall_and] using
      And.intro ha.within ⟨hb.within, hc.within, hd.within⟩

/-- **Reading an expression** gives one that comes from the value that is read. -/
theorem of_ofOperand (h : ofOperand path j = .ok e) : ComesFrom j e := by
  induction hn : sizeOf j using Nat.strong_induction_on generalizing j path e with
  | _ n ih =>
    subst hn
    cases j with
    | str n =>
      rw [ofOperand] at h
      cases h
      exact ⟨trivial, trivial, rfl, by simp [values]⟩
    | bool b =>
      rw [ofOperand] at h
      cases h
      exact ⟨trivial, trivial, rfl, by simp [Expr.bool, values, Literal.values]⟩
    | num x =>
      rw [ofOperand] at h
      cases h
      exact comesFrom_ofNumber x
    | arr | null =>
      rw [ofOperand] at h
      cases h
    | obj members =>
      by_cases hop : ∃ s, Json.lookup "op" members = some (.str s)
      · obtain ⟨s, hop⟩ := hop
        cases ho : Opcode.ofCode? s with
        | none =>
          rw [ofOperand] at h
          simp [hop, ho] at h
        | some o => exact comesFrom_of_opcode (fun v hv path e he => ih _ hv he rfl) hop ho h
      · exact comesFrom_of_no_opcode (not_exists.1 hop) h

end

/-- Only values that `ofOperand` reads are read. -/
theorem ofOperand_of_ofJson {path : String} {j : Json} {e : Expr} (h : ofJson j path = .ok e) :
    ofOperand path j = .ok e := by
  unfold ofJson at h
  split at h
  · exact h
  · cases h
  · cases h

/-- **The JSON form round-trips.** What is written for a well-formed expression is read back with
the kinds that its numbers need, which is written in the same way. What is read from any value is
tagged correctly, well-formed if the numbers of the value are finite, and read back as it is from
its own JSON form. -/
theorem jsonForm_roundTrips :
    (∀ e : Expr, e.WellFormed → ∀ path, ofJson e.toJson path = .ok e.retagged ∧
      (ofJson e.toJson path).map toJson = .ok e.toJson) ∧
    ∀ (j : Json) (path : String) (e : Expr), ofJson j path = .ok e →
      e.Tagged ∧ (j.Finite → e.WellFormed) ∧ ∀ path', ofJson e.toJson path' = .ok e := by
  constructor
  · intro e h path
    have hback := ofJson_toJson h.tagged h.declared path
    exact ⟨hback, by rw [hback, Except.map, toJson_retagged]⟩
  · intro j path e h
    have hfrom := of_ofOperand (ofOperand_of_ofJson h)
    refine ⟨hfrom.tagged, fun hj => ?_, fun path' => ?_⟩
    · exact ⟨hfrom.tagged, hfrom.declared, fun x hx => hj x (hfrom.within x hx)⟩
    · rw [ofJson_toJson hfrom.tagged hfrom.declared path', hfrom.retagged]

/-- A nested array of reals that are all whole is read back as an array of ints, and so is its
index. -/
theorem jsonForm_roundTrips_of_grid :
    let grid (k : NumKind) := array ⟨k, [.list [.num 1, .num 2], .list [.num 3]]⟩
    let e := binary .add (access (grid .real) (real 1)) (uniform 0 1)
    let e' := binary .add (access (grid .int) (int 1)) (uniform 0 1)
    e.WellFormed ∧ ofJson e.toJson = .ok e' ∧ e.toJson.Finite ∧ e'.WellFormed ∧
      ofJson e'.toJson = .ok e' := by
  intro grid e e'
  have hwell : e.WellFormed := by
    constructor
    · simp [e, grid, access, real, Tagged, Literal.Tagged, NumKind.Fits]
      decide +kernel
    · decide +kernel
    · decide +kernel
  have hretagged : e.retagged = e' := by decide +kernel
  have hback : ofJson e.toJson = .ok e' :=
    hretagged ▸ (jsonForm_roundTrips.1 e hwell "<expression>").1
  have hfinite : e.toJson.Finite := by
    simp [e, grid, access, real, toJson, Literal.toJson, Element.listToJson, Element.toJson]
    decide +kernel
  obtain ⟨-, hwell', hagain⟩ := jsonForm_roundTrips.2 e.toJson "<expression>" e' hback
  exact ⟨hwell, hback, hfinite, hwell' hfinite, hagain "<expression>"⟩

/-- JSON text can hold a number beyond the range of doubles. It is read as a real literal that is
not finite. -/
theorem jsonForm_of_infinity :
    Json.parse "1e999" = .ok (.num Number.infinity) ∧
      ofJson (.num Number.infinity) = .ok (real Number.infinity) ∧
      ¬(real Number.infinity).WellFormed := by
  refine ⟨?_, ?_, ?_⟩
  · have hchars : "1e999".toList = ['1', 'e', '9', '9', '9'] := by decide
    have hnumber : Json.readNumber ['1', 'e', '9', '9', '9'] = .ok (Number.infinity, []) := rfl
    have hvalue : Json.readValue ['1', 'e', '9', '9', '9'] =
        .ok (.num Number.infinity, ⟨[], by decide⟩) := by
      generalize Number.infinity = x at hnumber ⊢
      rw [Json.readValue]
      split
      · rename_i h
        cases h
      · rename_i c rest h
        cases h
        simp [hnumber, Json.shorter, Except.map]
    rw [Json.parse, Json.read, hchars, hvalue]
    rfl
  · have hwhole : ¬Number.isWhole Number.infinity = true := by decide +kernel
    rw [ofJson_of_hasForm (.number _), ofOperand, ofNumber, if_neg hwhole]
  · intro h
    have hfinite : Number.infinity.isFinite = true :=
      h.finite _ (by simp [real, values, Literal.values])
    revert hfinite
    decide +kernel

end Expr

end ChartNet
