import ChartNet.Proofs.Expr.Kinds
import Mathlib.Order.Lattice

/-!
# The form of an expression in JSON

`Json.HasForm` says which JSON values have the form of an expression: texts, numbers and truth
values, constants, uniform distributions, objects with an opcode whose other members have the form,
and lists of values that have it. Which opcodes and operands there are is not part of the form. The
schema that reading starts with finds every value of this form valid and changes nothing in it.
-/

namespace ChartNet

/-! ### Schemas that find a value valid -/

/-- Parts that are all valid are valid together. -/
theorem Verdict.all_valid {α : Type} {vs : List (Verdict α)} (h : ∀ v ∈ vs, ∃ a, v = .valid a) :
    ∃ as, Verdict.all vs = .valid as := by
  induction vs with
  | nil => exact ⟨[], rfl⟩
  | cons v vs ih =>
    rw [List.forall_mem_cons] at h
    obtain ⟨⟨a, rfl⟩, hvs⟩ := h
    obtain ⟨as, has⟩ := ih hvs
    exact ⟨a :: as, by simp [Verdict.all, Verdict.map, Verdict.seq, has]⟩

namespace Schema

variable {α β : Type} {path : List String}

/-- A choice finds a value valid if one of its alternatives does. -/
theorem choice_valid {alternatives : List (Schema α)} {v : Option Json} {s : Schema α} {a : α}
    (hs : s ∈ alternatives) (h : s path v = .valid a) (b : β) :
    (choice alternatives path v).map (fun _ => b) = .valid b := by
  suffices hfirst : ∀ flawed, ∃ c, firstOf path v flawed alternatives = .valid c by
    obtain ⟨c, hc⟩ := hfirst none
    simp only [choice, hc, Verdict.map]
  induction alternatives with
  | nil => cases hs
  | cons t ts ih =>
    intro flawed
    rcases List.mem_cons.1 hs with rfl | hts
    · exact ⟨a, by simp [firstOf, h]⟩
    · cases ht : t path v with
      | valid b => exact ⟨b, by simp [firstOf, ht]⟩
      | flawed b issues =>
        obtain ⟨c, hc⟩ := ih hts (flawed <|> some (.flawed b issues))
        exact ⟨c, by simpa [firstOf, ht] using hc⟩
      | refused issues =>
        obtain ⟨c, hc⟩ := ih hts flawed
        exact ⟨c, by simpa [firstOf, ht] using hc⟩

theorem items_valid {s : Schema α} {js : List Json}
    (h : ∀ j ∈ js, ∀ path, ∃ a, s path (some j) = .valid a) (path : List String) (i : Nat) :
    ∀ v ∈ items s path i js, ∃ a, v = .valid a := by
  induction js generalizing i with
  | nil => simp [items]
  | cons j js ih =>
    rw [List.forall_mem_cons] at h
    rw [items, List.forall_mem_cons]
    exact ⟨h.1 _, ih h.2 (i + 1)⟩

/-- A list of valid values is valid. -/
theorem list_valid {s : Schema α} {js : List Json}
    (h : ∀ j ∈ js, ∀ path, ∃ a, s path (some j) = .valid a) (path : List String) :
    ∃ as, Schema.list s 0 path (some (.arr js)) = .valid as := by
  obtain ⟨as, has⟩ := Verdict.all_valid (items_valid h path 0)
  exact ⟨as, by simp [list, Verdict.addIssues, Verdict.seq, has, Verdict.map]⟩

theorem values_valid {s : Schema α} {members : List (String × Json)}
    (h : ∀ m ∈ members, ∀ path, ∃ a, s path (some m.2) = .valid a) (path : List String) :
    ∀ v ∈ values s path members, ∃ a, v = .valid a := by
  induction members with
  | nil => simp [values]
  | cons m ms ih =>
    rw [List.forall_mem_cons] at h
    rw [values, List.forall_mem_cons]
    obtain ⟨a, ha⟩ := h.1 (path ++ [m.1])
    exact ⟨⟨(m.1, a), by simp [ha, Verdict.map]⟩, ih h.2⟩

/-- An object is valid if its known members are and each further member is. -/
theorem openObject_valid {fields : Fields α} {rest : Schema β} {members : List (String × Json)}
    {a : α} (hfields : fields.read path members = .valid a)
    (h : ∀ m ∈ members, m.1 ∉ fields.keys → ∀ path, ∃ b, rest path (some m.2) = .valid b) :
    ∃ r, openObject fields rest path (some (.obj members)) = .valid r := by
  have hothers : ∀ m ∈ members.filter fun m => !fields.keys.contains m.1,
      ∀ path, ∃ b, rest path (some m.2) = .valid b := by
    intro m hm
    obtain ⟨hmem, hkey⟩ := List.mem_filter.1 hm
    exact h m hmem (by simpa using hkey)
  obtain ⟨bs, hbs⟩ := Verdict.all_valid (values_valid hothers path)
  exact ⟨(a, bs), by simp only [openObject, hfields, Verdict.map, Verdict.seq, hbs]⟩

end Schema

/-! ### Values that have the form -/

/-- A JSON value **has the form** of an expression or of a list of expressions. -/
inductive Json.HasForm : Json → Prop
  | text (s : String) : HasForm (.str s)
  | number (x : Float) : HasForm (.num x)
  | truth (b : Bool) : HasForm (.bool b)
  | constant {c : NamedConstant} (hc : c.Declared) : HasForm (.obj [("constant", .str c.symbol)])
  | uniform (l u : Float) :
    HasForm (.obj [("distribution", .str "Uniform"), ("args", .arr [.num l, .num u])])
  | operator {members : List (String × Json)} {op : String}
    (hop : Json.lookup "op" members = some (.str op))
    (h : ∀ m ∈ members, m.1 ≠ "op" → HasForm m.2) : HasForm (.obj members)
  | list {items : List Json} (h : ∀ x ∈ items, HasForm x) : HasForm (.arr items)

namespace Json

theorem depth_le_depthItems {items : List Json} {x : Json} (hx : x ∈ items) :
    x.depth ≤ depthItems items := by
  induction items with
  | nil => cases hx
  | cons y ys ih =>
    rw [depthItems]
    rcases List.mem_cons.1 hx with rfl | hy
    · exact Nat.le_max_left _ _
    · exact (ih hy).trans (Nat.le_max_right y.depth _)

theorem depth_le_depthMembers {members : List (String × Json)} {m : String × Json}
    (hm : m ∈ members) : m.2.depth ≤ depthMembers members := by
  induction members with
  | nil => cases hm
  | cons p ps ih =>
    rw [depthMembers]
    rcases List.mem_cons.1 hm with rfl | hp
    · exact Nat.le_max_left _ _
    · exact (ih hp).trans (Nat.le_max_right p.2.depth _)

end Json

/-- An object whose opcode is a text has the form if its operands do. -/
theorem exprForm_object {operands : Schema Json} {path : List String}
    {members : List (String × Json)} {op : String}
    (hop : Json.lookup "op" members = some (.str op))
    (h : ∀ m ∈ members, m.1 ≠ "op" → ∀ path, ∃ a, operands path (some m.2) = .valid a) :
    exprForm operands path (some (.obj members)) = .valid (.obj members) := by
  have hfields : (Schema.field "op" Schema.text).read path members = .valid op := by
    simp [Schema.field, hop, Schema.text]
  obtain ⟨r, hr⟩ := Schema.openObject_valid hfields
    fun m hm hkey => h m hm (by simpa [Schema.field] using hkey)
  have hmap : Schema.map (fun _ => ()) (Schema.openObject (Schema.field "op" Schema.text) operands)
      path (some (.obj members)) = .valid () := by
    simp only [Schema.map, hr, Verdict.map]
  exact Schema.choice_valid (by simp) hmap _

/-- A list has the form if its items do. -/
theorem exprForm_list {operands : Schema Json} {path : List String} {items : List Json}
    (h : ∀ x ∈ items, ∀ path, ∃ a, operands path (some x) = .valid a) :
    exprForm operands path (some (.arr items)) = .valid (.arr items) := by
  obtain ⟨as, has⟩ := Schema.list_valid h path
  have hmap : Schema.map (fun _ => ()) (Schema.list operands) path (some (.arr items)) =
      .valid () := by
    simp only [Schema.map, has, Verdict.map]
  exact Schema.choice_valid (by simp) hmap _

/-- **The schema of expressions accepts every value that has the form**, as it is. -/
theorem exprSchema_valid {j : Json} (h : j.HasForm) {n : Nat} (hn : j.depth ≤ n)
    (path : List String) : exprSchema n path (some j) = .valid j := by
  induction h generalizing n path with
  | text s => cases n <;> rfl
  | number x => cases n <;> rfl
  | truth b => cases n <;> rfl
  | constant hc =>
    rename_i c
    cases c with
    | e | pi => cases n <;> rfl
    | inherited m => exact hc.elim
  | uniform l u => cases n <;> rfl
  | operator hop h ih =>
    cases n with
    | zero => simp [Json.depth] at hn
    | succ n =>
      simp only [Json.depth, Nat.add_le_add_iff_right] at hn
      exact exprForm_object hop fun m hm hkey path =>
        ⟨_, ih m hm hkey ((Json.depth_le_depthMembers hm).trans hn) path⟩
  | list h ih =>
    cases n with
    | zero => simp [Json.depth] at hn
    | succ n =>
      simp only [Json.depth, Nat.add_le_add_iff_right] at hn
      exact exprForm_list fun x hx path =>
        ⟨_, ih x hx ((Json.depth_le_depthItems hx).trans hn) path⟩

/-- So reading a value of the form only depends on how its operands are read. -/
theorem Expr.ofJson_of_hasForm {j : Json} (h : j.HasForm) (path : String) :
    Expr.ofJson j path = Expr.ofOperand path j := by
  have hvalid := exprSchema_valid h le_rfl []
  simp only [Expr.ofJson, Schema.read, hvalid, Verdict.toExcept]

/-! ### What is written has the form -/

mutual

theorem Element.hasForm_toJson : (el : Element) → el.toJson.HasForm
  | .num x => by
    rw [Element.toJson]
    exact .number x
  | .list items => by
    rw [Element.toJson]
    refine .operator rfl ?_
    simpa using Json.HasForm.list (Element.hasForm_listToJson items)

theorem Element.hasForm_listToJson : (els : List Element) →
    ∀ j ∈ Element.listToJson els, j.HasForm
  | [] => by simp [Element.listToJson]
  | el :: els => by
    rw [Element.listToJson, List.forall_mem_cons]
    exact ⟨Element.hasForm_toJson el, Element.hasForm_listToJson els⟩

end

theorem NamedConstant.toJson_of_declared {c : NamedConstant} (hc : c.Declared) :
    c.toJson = .obj [("constant", .str c.symbol)] := by
  cases c with
  | e | pi => rfl
  | inherited m => exact hc.elim

/-- What is written for an expression has the form of one, if its constants are declared. -/
theorem Expr.hasForm_toJson {e : Expr} (he : e.Declared) : e.toJson.HasForm := by
  induction e with
  | ident n => exact .text n
  | lit v =>
    cases v with
    | bool b => exact .truth b
    | num k x => exact .number x
    | constant c =>
      rw [Expr.toJson, Literal.toJson, NamedConstant.toJson_of_declared he]
      exact .constant he
  | uniform l u => exact .uniform l u
  | array v => exact (Element.list v.elements).hasForm_toJson
  | unary op a iha => exact .operator rfl (by simpa using iha he)
  | binary op a b iha ihb => exact .operator rfl (by simp [iha he.1, ihb he.2])
  | ternary op a b c iha ihb ihc =>
    exact .operator rfl (by simp [iha he.1, ihb he.2.1, ihc he.2.2])
  | quaternary op a b c d iha ihb ihc ihd =>
    exact .operator rfl (by simp [iha he.1, ihb he.2.1, ihc he.2.2.1, ihd he.2.2.2])

end ChartNet
