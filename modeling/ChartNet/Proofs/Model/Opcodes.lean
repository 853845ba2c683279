import ChartNet.Descriptor.Compile
import ChartNet.Proofs.Macro.Expansion

/-!
# The opcodes of a written model

A JSON value is `MacroFree` if no object anywhere in it carries the opcode of a macro. Expressions
are written through their expansion, with one exception: the bounds of a bounded type are written as
they stand. So a written model is free of macros exactly if the bounds of its declarations are
primitive.
-/

namespace ChartNet

/-- The **opcodes of the macros**. -/
def macroCodes : List String :=
  ["round", "to_cm", "to_m", "to_deg", "to_rad", "norm2d", "dot2d", "cross2d", "intersect",
    "distance", "distance_to_point"]

theorem UnaryOp.code_mem_macroCodes (op : UnaryOp) : op.code ∈ macroCodes ↔ op.isMacro := by
  cases op <;> decide

theorem BinaryOp.code_mem_macroCodes (op : BinaryOp) : op.code ∈ macroCodes ↔ op.isMacro := by
  cases op <;> decide

theorem TernaryOp.code_mem_macroCodes (op : TernaryOp) : op.code ∈ macroCodes ↔ op.isMacro := by
  cases op <;> decide

theorem QuaternaryOp.code_mem_macroCodes (op : QuaternaryOp) : op.code ∈ macroCodes := by
  cases op <;> decide

/-! ### Values in a JSON value -/

namespace Json

/-- A value stands **within** another one: it is that value, or stands within an item or a
member. -/
inductive Within (v : Json) : Json → Prop
  | self : Within v v
  | item {items : List Json} {x : Json} (hx : x ∈ items) (h : Within v x) : Within v (.arr items)
  | member {members : List (String × Json)} {m : String × Json} (hm : m ∈ members)
      (h : Within v m.2) : Within v (.obj members)

/-- A value is **free of macros** if no object within it has the opcode of one. -/
def MacroFree (j : Json) : Prop :=
  ∀ members, (obj members).Within j → ∀ op, ("op", str op) ∈ members → op ∉ macroCodes

@[simp] theorem macroFree_null : null.MacroFree := by
  intro members h
  cases h

@[simp] theorem macroFree_bool (b : Bool) : (bool b).MacroFree := by
  intro members h
  cases h

@[simp] theorem macroFree_num (x : Float) : (num x).MacroFree := by
  intro members h
  cases h

@[simp] theorem macroFree_str (s : String) : (str s).MacroFree := by
  intro members h
  cases h

@[simp] theorem macroFree_arr {items : List Json} :
    (arr items).MacroFree ↔ ∀ x ∈ items, x.MacroFree := by
  constructor
  · exact fun h x hx members hm => h members (.item hx hm)
  · intro h members hm
    cases hm with
    | item hx hm => exact h _ hx members hm

@[simp] theorem macroFree_obj {members : List (String × Json)} :
    (obj members).MacroFree ↔
      (∀ op, ("op", str op) ∈ members → op ∉ macroCodes) ∧ ∀ m ∈ members, m.2.MacroFree := by
  constructor
  · exact fun h => ⟨h members .self, fun m hm inner hi => h inner (.member hm hi)⟩
  · rintro ⟨hop, hmembers⟩ inner hi
    cases hi with
    | self => exact hop
    | member hm hi => exact hmembers _ hm inner hi

/-- An object written member by member is free of macros if the members that have a value are. -/
@[simp] theorem macroFree_fields {members : List (String × Option Json)} :
    (fields members).MacroFree ↔
      (∀ op, ("op", some (str op)) ∈ members → op ∉ macroCodes) ∧
        ∀ m ∈ members, ∀ v ∈ m.2, v.MacroFree := by
  simp only [fields, macroFree_obj, List.mem_filterMap, Option.map_eq_some_iff]
  constructor
  · rintro ⟨hop, hmembers⟩
    exact ⟨fun op h => hop op ⟨_, h, _, rfl, rfl⟩, fun m hm v hv => hmembers _ ⟨m, hm, v, hv, rfl⟩⟩
  · rintro ⟨hop, hmembers⟩
    constructor
    · rintro op ⟨⟨name, _⟩, hm, _, rfl, heq⟩
      cases heq
      exact hop op hm
    · rintro _ ⟨m, hm, v, hv, rfl⟩
      exact hmembers m hm v hv

/-- A list of values written one by one is free of macros if each entry is. -/
theorem macroFree_of_mapM {α : Type} {f : α → Result Json} {P : α → Prop} {l : List α}
    {items : List Json} (hf : ∀ a ∈ l, ∀ j, f a = .ok j → (j.MacroFree ↔ P a))
    (h : l.mapM f = .ok items) : (arr items).MacroFree ↔ ∀ a ∈ l, P a := by
  rw [macroFree_arr]
  have hall := Result.mapM_eq_ok.1 h
  clear h
  induction hall with
  | nil => simp
  | cons hj _ ih =>
    rw [List.forall_mem_cons, List.forall_mem_cons]
    exact and_congr (hf _ List.mem_cons_self _ hj) (ih fun a ha => hf a (List.mem_cons_of_mem _ ha))

/-- A value that is written if there is one is free of macros if all such values are. -/
theorem macroFree_of_option {α : Type} {f : α → Result Json} {o : Option α} {r : Option Json}
    (hf : ∀ a j, f a = .ok j → j.MacroFree) (h : o.mapM f = .ok r) : ∀ v ∈ r, v.MacroFree := by
  cases o with
  | none =>
    cases h
    simp
  | some a =>
    obtain ⟨j, hj, hok⟩ := Result.bind_eq_ok.1 h
    cases hok
    simpa using hf a j hj

end Json

open Json

/-! ### Expressions -/

mutual

@[simp] theorem Element.macroFree_toJson : (el : Element) → el.toJson.MacroFree
  | .num x => by simp [Element.toJson]
  | .list items => by
    have hitems := Element.macroFree_listToJson items
    simpa [Element.toJson, macroCodes] using hitems

theorem Element.macroFree_listToJson : (els : List Element) →
    ∀ j ∈ Element.listToJson els, j.MacroFree
  | [] => by simp [Element.listToJson]
  | el :: els => by
    rw [Element.listToJson, List.forall_mem_cons]
    exact ⟨Element.macroFree_toJson el, Element.macroFree_listToJson els⟩

end

@[simp] theorem NamedConstant.macroFree_toJson (c : NamedConstant) : c.toJson.MacroFree := by
  unfold NamedConstant.toJson
  split <;> simp

@[simp] theorem Literal.macroFree_toJson (v : Literal) : v.toJson.MacroFree := by
  cases v <;> simp [Literal.toJson]

/-- No operand has the role of the opcode. -/
private theorem roles_ne_op (op : BinaryOp) : op.roles.1 ≠ "op" ∧ op.roles.2 ≠ "op" := by
  cases op <;> decide

private theorem ternary_roles_ne_op (op : TernaryOp) :
    op.roles.1 ≠ "op" ∧ op.roles.2.1 ≠ "op" ∧ op.roles.2.2 ≠ "op" := by
  cases op <;> decide

/-- The JSON form of an expression has the opcodes of its operators. -/
theorem Expr.macroFree_toJson (e : Expr) : e.toJson.MacroFree ↔ e.Primitive := by
  induction e with
  | ident | lit | uniform => simp [Expr.toJson]
  | array v =>
    have hitems := Element.macroFree_listToJson v.elements
    simpa [Expr.toJson, macroCodes] using hitems
  | unary op a iha => simp [Expr.toJson, iha, op.code_mem_macroCodes]
  | binary op a b iha ihb =>
    have hroles := roles_ne_op op
    simp [Expr.toJson, iha, ihb, op.code_mem_macroCodes, hroles.1.symm, hroles.2.symm]
  | ternary op a b c iha ihb ihc =>
    have hroles := ternary_roles_ne_op op
    simp [Expr.toJson, iha, ihb, ihc, op.code_mem_macroCodes, hroles.1.symm, hroles.2.1.symm,
      hroles.2.2.symm]
  | quaternary op a b c d => simp [Expr.toJson, op.code_mem_macroCodes]

/-- An expression written through its expansion is free of macros. -/
theorem Expr.macroFree_of_expandedJson {constants : Constants} {e : Expr} {j : Json}
    (h : e.expandedJson constants = .ok j) : j.MacroFree := by
  obtain ⟨e', he, hok⟩ := Result.bind_eq_ok.1 h
  cases hok
  exact e'.macroFree_toJson.2 (Expr.primitive_of_expand he)

/-! ### Types and declarations -/

/-- The expressions that **bound** a type. -/
def DataType.bounds : DataType → List Expr
  | .bounded _ lower upper => lower.toList ++ upper.toList
  | _ => []

theorem macroFree_arrayTypeJson (base : NumKind) (n : Nat) : (arrayTypeJson base n).MacroFree := by
  induction n with
  | zero => simp [arrayTypeJson]
  | succ n ih => simp [arrayTypeJson, ih]

/-- The bounds of a type are written as they stand. -/
theorem DataType.macroFree_toJson (t : DataType) :
    t.toJson.MacroFree ↔ ∀ b ∈ t.bounds, b.Primitive := by
  cases t with
  | scalar s => simp [DataType.toJson, DataType.bounds]
  | bounded base lower upper =>
    cases lower <;> cases upper <;>
      simp [DataType.toJson, DataType.bounds, Expr.macroFree_toJson]
  | array shape => simp [DataType.toJson, DataType.bounds, macroFree_arrayTypeJson]

section

variable {constants : Constants} {j : Json}

theorem Variable.macroFree_toJson {v : Variable} (h : v.toJson constants = .ok j) :
    j.MacroFree ↔ ∀ b ∈ v.type.bounds, b.Primitive := by
  obtain ⟨init, hinit, hok⟩ := Result.bind_eq_ok.1 h
  cases hok
  simp [v.type.macroFree_toJson, Expr.macroFree_of_expandedJson hinit]

theorem Constant.macroFree_toJson {c : Constant} (h : c.toJson constants = .ok j) :
    j.MacroFree ↔ ∀ b ∈ c.type.bounds, b.Primitive := by
  obtain ⟨value, hvalue, hok⟩ := Result.bind_eq_ok.1 h
  cases hok
  simp [c.type.macroFree_toJson, Expr.macroFree_of_expandedJson hvalue]

/-! ### Edges and automata -/

theorem Assignment.macroFree_of_toJson {a : Assignment} (h : a.toJson constants = .ok j) :
    j.MacroFree := by
  simp only [Assignment.toJson, Result.bind_eq_ok] at h
  obtain ⟨ref, href, value, hvalue, hok⟩ := h
  cases hok
  simp [Expr.macroFree_of_expandedJson href, Expr.macroFree_of_expandedJson hvalue]

theorem Edge.macroFree_of_destinationJson {e : Edge} {d : Destination}
    (h : e.destinationJson constants d = .ok j) : j.MacroFree := by
  simp only [Edge.destinationJson, Result.bind_eq_ok] at h
  obtain ⟨location, -, probability, hprobability, assignments, hassignments, hok⟩ := h
  cases hok
  have hfree := macroFree_of_mapM (fun a _ j h => iff_true_intro (Assignment.macroFree_of_toJson h))
    hassignments
  simp [Expr.macroFree_of_expandedJson hprobability, hfree]

theorem Edge.macroFree_of_toJson {e : Edge} (h : e.toJson constants = .ok j) : j.MacroFree := by
  simp only [Edge.toJson, Result.bind_eq_ok] at h
  obtain ⟨guard, hguard, destinations, hdestinations, hok⟩ := h
  cases hok
  have hfree := macroFree_of_mapM
    (fun d _ j h => iff_true_intro (e.macroFree_of_destinationJson h)) hdestinations
  have hguardFree := macroFree_of_option (fun _ _ => Expr.macroFree_of_expandedJson) hguard
  simp only [macroFree_fields, List.forall_mem_cons]
  simp_all

/-- The types that an automaton declares. -/
def Automaton.types (a : Automaton) : List DataType :=
  a.vars.map (·.type)

/-- The objects that hold one name. -/
private theorem macroFree_names (names : List String) :
    (Json.arr (names.map fun n => .obj [("name", .str n)])).MacroFree := by
  simp

theorem Automaton.macroFree_toJson {a : Automaton} (h : a.toJson constants = .ok j) :
    j.MacroFree ↔ ∀ t ∈ a.types, ∀ b ∈ t.bounds, b.Primitive := by
  simp only [Automaton.toJson, Result.bind_eq_ok] at h
  obtain ⟨initial, -, edges, hedges, vars, hvars, hok⟩ := h
  cases hok
  have hlocations := macroFree_names (Text.sortByUnits a.locations)
  have hedgesFree := macroFree_of_mapM (fun e _ j h => iff_true_intro (e.macroFree_of_toJson h))
    hedges
  have hvarsFree := macroFree_of_mapM (fun v _ j => v.macroFree_toJson) hvars
  simp only [Automaton.types, List.forall_mem_map, ← hvarsFree, macroFree_fields,
    List.forall_mem_cons]
  constructor
  · rintro ⟨-, -, -, -, -, hfree, -⟩
    rcases vars with _ | ⟨v, vars⟩
    · simp
    · exact hfree _ rfl
  · intro hfree
    refine ⟨by simp, by simp, ?_, by simp, ?_, ?_, by simp⟩
    · rintro _ ⟨⟩
      exact hlocations
    · simpa using hedgesFree
    · intro v hv
      split at hv <;> cases hv
      exact hfree

/-! ### Properties -/

/-- The bounds on the number of steps. -/
private theorem macroFree_stepBounds {o : Option (StepBounds Expr)} {r : Option Json}
    (h : o.mapM (fun b => (do
      let lower ← b.lower.mapM (·.expandedJson constants)
      let upper ← b.upper.mapM (·.expandedJson constants)
      return Json.fields [("lower", lower), ("upper", upper)] : Result Json)) = .ok r) :
    ∀ v ∈ r, v.MacroFree := by
  refine macroFree_of_option (fun b j hj => ?_) h
  simp only [Result.bind_eq_ok] at hj
  obtain ⟨lower, hlower, upper, hupper, hok⟩ := hj
  cases hok
  have hlowerFree := macroFree_of_option (fun _ _ => Expr.macroFree_of_expandedJson) hlower
  have hupperFree := macroFree_of_option (fun _ _ => Expr.macroFree_of_expandedJson) hupper
  simp_all

theorem PathFormula.macroFree_of_toJson {f : PathFormula Expr} (h : f.toJson constants = .ok j) :
    j.MacroFree := by
  unfold PathFormula.toJson at h
  split at h
  · rename_i op a hpath
    simp only [Result.bind_eq_ok, pure_bind] at h
    obtain ⟨x, hx, bounds, hb, hok⟩ := h
    cases hok
    have hop : op.name ∉ macroCodes := by cases op <;> decide
    have hxFree := Expr.macroFree_of_expandedJson hx
    have hbFree := macroFree_stepBounds hb
    simp_all
  · rename_i op a b hpath
    simp only [Result.bind_eq_ok, pure_bind] at h
    obtain ⟨x, hx, y, hy, bounds, hb, hok⟩ := h
    cases hok
    have hop : op.name ∉ macroCodes := by cases op <;> decide
    have hxFree := Expr.macroFree_of_expandedJson hx
    have hyFree := Expr.macroFree_of_expandedJson hy
    have hbFree := macroFree_stepBounds hb
    simp_all

theorem Property.macroFree_of_toJson {p : Property} (h : p.toJson constants = .ok j) :
    j.MacroFree := by
  obtain ⟨formula, hformula, hok⟩ := Result.bind_eq_ok.1 h
  cases hok
  have hfilter : "filter" ∉ macroCodes := by decide
  have hinitial : "initial" ∉ macroCodes := by decide
  have hextremum : p.extremum.name ∉ macroCodes := by cases p.extremum <;> decide
  have hfree := PathFormula.macroFree_of_toJson hformula
  simp [hfree, hextremum, hfilter, hinitial]

end

/-! ### Models -/

theorem Composition.macroFree_toJson (c : Composition) : c.toJson.MacroFree := by
  have haction (action : Option String) : ((action.map Json.str).getD .null).MacroFree := by
    cases action <;> simp
  simp [Composition.toJson, haction]

/-- A descriptor is compiled to the written form of its model. -/
theorem Descriptor.toJson_of_compile {d : Descriptor} {charts : Charts} {m : Model} {j : Json}
    (h : d.compile charts = .ok (m, j)) : m.toJson = .ok j := by
  simp only [Descriptor.compile] at h
  split at h
  · obtain ⟨j', hj, hok⟩ := Result.bind_eq_ok.1 h
    cases hok
    exact hj
  · cases h

namespace Model

/-- The **types** that a model declares. -/
def types (m : Model) : List DataType :=
  m.vars.map (·.type) ++ m.constants.map (·.type) ++ m.automata.flatMap (·.types)

/-- **A written model is free of macros** exactly if the bounds of its types are. -/
theorem toJson_macroFree {m : Model} {j : Json} (h : m.toJson = .ok j) :
    j.MacroFree ↔ ∀ t ∈ m.types, ∀ b ∈ t.bounds, b.Primitive := by
  simp only [Model.toJson, Result.bind_eq_ok] at h
  obtain ⟨composition, -, vars, hvars, constants, hconstants, automata, hautomata, properties,
    hproperties, hok⟩ := h
  cases hok
  have hactions := macroFree_names m.actions
  have hsystem := composition.macroFree_toJson
  have hpropertiesFree :=
    macroFree_of_mapM (fun p _ j h => iff_true_intro (p.macroFree_of_toJson h))
    hproperties
  have hvarsFree := macroFree_of_mapM (fun v _ j => v.macroFree_toJson) hvars
  have hconstantsFree := macroFree_of_mapM (fun c _ j => c.macroFree_toJson) hconstants
  have hautomataFree := macroFree_of_mapM (fun a _ j => a.macroFree_toJson) hautomata
  simp only [types, List.forall_mem_append, List.forall_mem_map, List.forall_mem_flatMap,
    ← hvarsFree, ← hconstantsFree, ← hautomataFree, macroFree_obj, List.forall_mem_cons]
  constructor
  · rintro ⟨-, -, -, -, -, -, hv, hc, -, ha, -⟩
    exact ⟨⟨hv, hc⟩, ha⟩
  · rintro ⟨⟨hv, hc⟩, ha⟩
    exact ⟨by simp, by simp, by simp, by simp, by simp, by simp, hv, hc, hactions, ha, hsystem,
      hpropertiesFree.2 fun _ _ => trivial, by simp⟩

/-- **A bound with a macro is written with it.** A chart is compiled with the bound of its variable
as a number, which leaves no macro in the model, and as a rounded one, which does. -/
theorem toJson_macroFree_of_number_not_of_round :
    let robot (bound : String) : Descriptor :=
      { name := "network", capacity := .whole 1, randomOptions := .whole 1
        charts := [.inline
          { name := "robot", initial := "idle"
            datamodel := some [{ id := "x", type := "int32", lowerBound := some (.source bound) }]
            states := [{ id := "idle" }] }] }
    (∃ m j, (robot "0").compile = .ok (m, j) ∧ m.toJson = .ok j ∧ j.MacroFree) ∧
      ∃ m j, (robot "Math.round(0.5)").compile = .ok (m, j) ∧ m.toJson = .ok j ∧ ¬j.MacroFree := by
  intro robot
  have hcompile (bound : String) (primitive : Bool)
      (h : (robot bound).compile.toOption.any (fun r =>
        decide ((∀ t ∈ r.1.types, ∀ b ∈ t.bounds, b.Primitive) ↔ primitive)) = true) :
      ∃ m j, (robot bound).compile = .ok (m, j) ∧ m.toJson = .ok j ∧ (j.MacroFree ↔ primitive) := by
    obtain ⟨⟨m, j⟩, hr, hcheck⟩ := Result.exists_of_any h
    have hj := Descriptor.toJson_of_compile hr
    exact ⟨m, j, hr, hj, (toJson_macroFree hj).trans (of_decide_eq_true hcheck)⟩
  obtain ⟨m, j, hm, hj, hfree⟩ := hcompile "0" true (by decide +kernel)
  obtain ⟨m', j', hm', hj', hleak⟩ := hcompile "Math.round(0.5)" false (by decide +kernel)
  exact ⟨⟨m, j, hm, hj, hfree.2 rfl⟩, m', j', hm', hj', fun h => Bool.false_ne_true (hleak.1 h)⟩

end Model

end ChartNet
