import ChartNet.Property
import ChartNet.Proofs.Assoc
import ChartNet.Proofs.Build
import ChartNet.Proofs.Schema.Validity

/-!
# Formulas operand by operand

The formula of a property has one operand or two, and bounds on its steps that are operands as well.
Reading replaces each operand in JSON by its expression, writing replaces each expression by its
JSON form, and neither changes anything else: the formula before and the one after are **related
operand by operand** (`PathFormula.Rel`). What is written for a formula over operands in JSON is
`PathFormula.written`; the schema reads from it the formula that it was written for, if its operands
are valid and a bound is there (`formulaSchema_written`).
-/

namespace ChartNet

open Schema

variable {α β γ : Type} {R : α → β → Prop} {S : α → γ → Prop} {T : β → γ → Prop}

/-! ### Related formulas -/

/-- The operands of a path. -/
def Path.operands : Path α → List α
  | .unary _ a => [a]
  | .binary _ a b => [a, b]

/-- The bounds that there are. -/
def StepBounds.operands (b : StepBounds α) : List α :=
  b.lower.toList ++ b.upper.toList

/-- The **operands** of a formula. -/
def PathFormula.operands (f : PathFormula α) : List α :=
  f.path.operands ++ f.bounds.toList.flatMap StepBounds.operands

/-- Paths are related operand by operand if they have the same operator. -/
inductive Path.Rel (R : α → β → Prop) : Path α → Path β → Prop
  | unary {op : UnaryPath} {a : α} {b : β} (h : R a b) : Rel R (.unary op a) (.unary op b)
  | binary {op : BinaryPath} {a a' : α} {b b' : β} (h : R a b) (h' : R a' b') :
    Rel R (.binary op a a') (.binary op b b')

/-- Bounds are related operand by operand. -/
structure StepBounds.Rel (R : α → β → Prop) (b : StepBounds α) (c : StepBounds β) : Prop where
  lower : Option.Rel R b.lower c.lower
  upper : Option.Rel R b.upper c.upper

/-- Formulas are **related operand by operand** if they are the same but for their operands. -/
structure PathFormula.Rel (R : α → β → Prop) (f : PathFormula α) (g : PathFormula β) : Prop where
  path : Path.Rel R f.path g.path
  comment : f.comment = g.comment
  bounds : Option.Rel (StepBounds.Rel R) f.bounds g.bounds

section Operands

theorem Path.Rel.of_mem {p : Path α} {q : Path β} (h : Path.Rel R p q) :
    ∀ b ∈ q.operands, ∃ a ∈ p.operands, R a b := by
  cases h with
  | unary h => simpa [operands] using h
  | binary h h' => simpa [operands] using And.intro (Or.inl h) (Or.inr h')

/-- What is there on one side is related to what is there on the other side. -/
theorem exists_of_option_rel {o : Option α} {o' : Option β} (h : Option.Rel R o o') :
    ∀ b ∈ o'.toList, ∃ a ∈ o.toList, R a b := by
  cases h with
  | none => simp
  | some h => simpa using h

theorem StepBounds.Rel.of_mem {p : StepBounds α} {q : StepBounds β} (h : StepBounds.Rel R p q) :
    ∀ b ∈ q.operands, ∃ a ∈ p.operands, R a b := by
  refine List.forall_mem_append.2 ⟨fun b hb => ?_, fun b hb => ?_⟩
  · obtain ⟨a, ha, hab⟩ := exists_of_option_rel h.lower b hb
    exact ⟨a, List.mem_append_left _ ha, hab⟩
  · obtain ⟨a, ha, hab⟩ := exists_of_option_rel h.upper b hb
    exact ⟨a, List.mem_append_right _ ha, hab⟩

/-- Each operand is related to one on the other side. -/
theorem PathFormula.Rel.of_mem {f : PathFormula α} {g : PathFormula β} (h : PathFormula.Rel R f g) :
    ∀ b ∈ g.operands, ∃ a ∈ f.operands, R a b := by
  refine List.forall_mem_append.2 ⟨fun b hb => ?_, fun b hb => ?_⟩
  · obtain ⟨a, ha, hab⟩ := h.path.of_mem b hb
    exact ⟨a, List.mem_append_left _ ha, hab⟩
  · obtain ⟨q, hq, hb⟩ := List.mem_flatMap.1 hb
    obtain ⟨p, hp, hpq⟩ := exists_of_option_rel h.bounds q hq
    obtain ⟨a, ha, hab⟩ := hpq.of_mem b hb
    exact ⟨a, List.mem_append_right _ (List.mem_flatMap.2 ⟨p, hp, ha⟩), hab⟩

/-- A weaker relation relates options as well. -/
theorem option_rel_mono {R' : α → β → Prop} (h : ∀ a b, R a b → R' a b) {o : Option α}
    {o' : Option β} (ho : Option.Rel R o o') : Option.Rel R' o o' := by
  cases ho with
  | none => exact .none
  | some hab => exact .some (h _ _ hab)

theorem Path.Rel.mono {R' : α → β → Prop} {p : Path α} {q : Path β} (h : Path.Rel R p q)
    (hR : ∀ a b, R a b → R' a b) : Path.Rel R' p q := by
  cases h with
  | unary h => exact .unary (hR _ _ h)
  | binary h h' => exact .binary (hR _ _ h) (hR _ _ h')

/-- A weaker relation relates formulas as well. -/
theorem PathFormula.Rel.mono {R' : α → β → Prop} {f : PathFormula α} {g : PathFormula β}
    (h : PathFormula.Rel R f g) (hR : ∀ a b, R a b → R' a b) : PathFormula.Rel R' f g where
  path := h.path.mono hR
  comment := h.comment
  bounds :=
    option_rel_mono (fun _ _ h => ⟨option_rel_mono hR h.lower, option_rel_mono hR h.upper⟩) h.bounds

/-- The other way round, options are related by the converse relation. -/
theorem option_rel_swap {o : Option α} {o' : Option β} (h : Option.Rel R o o') :
    Option.Rel (fun b a => R a b) o' o := by
  cases h with
  | none => exact .none
  | some h => exact .some h

theorem Path.Rel.swap {p : Path α} {q : Path β} (h : Path.Rel R p q) :
    Path.Rel (fun b a => R a b) q p := by
  cases h with
  | unary h => exact .unary h
  | binary h h' => exact .binary h h'

/-- The other way round, formulas are related by the converse relation. -/
theorem PathFormula.Rel.swap {f : PathFormula α} {g : PathFormula β} (h : PathFormula.Rel R f g) :
    PathFormula.Rel (fun b a => R a b) g f where
  path := h.path.swap
  comment := h.comment.symm
  bounds := option_rel_mono (fun _ _ h => ⟨option_rel_swap h.lower, option_rel_swap h.upper⟩)
    (option_rel_swap h.bounds)

/-- If each operand is related to one that is related to a third, so are options of them. -/
theorem exists_option_rel {o : Option α} {o' : Option β} (h : Option.Rel R o o')
    (hR : ∀ a, ∀ b ∈ o', R a b → ∃ c, S a c ∧ T b c) :
    ∃ o'', Option.Rel S o o'' ∧ Option.Rel T o' o'' := by
  cases h with
  | none => exact ⟨none, .none, .none⟩
  | some h =>
    obtain ⟨c, hS, hT⟩ := hR _ _ rfl h
    exact ⟨some c, .some hS, .some hT⟩

theorem Path.Rel.exists_rel {p : Path α} {q : Path β} (h : Path.Rel R p q)
    (hR : ∀ a, ∀ b ∈ q.operands, R a b → ∃ c, S a c ∧ T b c) :
    ∃ r, Path.Rel S p r ∧ Path.Rel T q r := by
  cases h with
  | unary h =>
    obtain ⟨c, hS, hT⟩ := hR _ _ (by simp [operands]) h
    exact ⟨_, .unary hS, .unary hT⟩
  | binary h h' =>
    obtain ⟨c, hS, hT⟩ := hR _ _ (by simp [operands]) h
    obtain ⟨c', hS', hT'⟩ := hR _ _ (by simp [operands]) h'
    exact ⟨_, .binary hS hS', .binary hT hT'⟩

theorem StepBounds.Rel.exists_rel {p : StepBounds α} {q : StepBounds β} (h : StepBounds.Rel R p q)
    (hR : ∀ a, ∀ b ∈ q.operands, R a b → ∃ c, S a c ∧ T b c) :
    ∃ r, StepBounds.Rel S p r ∧ StepBounds.Rel T q r := by
  obtain ⟨lower, hlower, hlower'⟩ :=
    exists_option_rel h.lower fun a b hb => hR a b (by simp_all [operands])
  obtain ⟨upper, hupper, hupper'⟩ :=
    exists_option_rel h.upper fun a b hb => hR a b (by simp_all [operands])
  exact ⟨⟨lower, upper⟩, ⟨hlower, hupper⟩, ⟨hlower', hupper'⟩⟩

/-- If each operand is related to one that is related to a third, there is a **third formula** of
these. -/
theorem PathFormula.Rel.exists_rel {f : PathFormula α} {g : PathFormula β}
    (h : PathFormula.Rel R f g) (hR : ∀ a, ∀ b ∈ g.operands, R a b → ∃ c, S a c ∧ T b c) :
    ∃ k, PathFormula.Rel S f k ∧ PathFormula.Rel T g k := by
  obtain ⟨path, hpath, hpath'⟩ := h.path.exists_rel fun a b hb => hR a b (List.mem_append_left _ hb)
  obtain ⟨bounds, hbounds, hbounds'⟩ := exists_option_rel h.bounds fun p q hq hpq =>
    hpq.exists_rel fun a b hb => hR a b <| List.mem_append_right _ <|
      List.mem_flatMap.2 ⟨q, by simpa using hq, hb⟩
  exact ⟨⟨path, f.comment, bounds⟩, ⟨hpath, rfl, hbounds⟩, ⟨hpath', h.comment.symm, hbounds'⟩⟩

end Operands

/-! ### Reading and writing -/

/-- Bounds are read one by one. -/
theorem StepBounds.mapM_eq_ok {lower upper : Json → Result Expr} {o : Option (StepBounds Json)}
    {o' : Option (StepBounds Expr)} :
    (o.mapM fun b => do
      let lower ← b.lower.mapM lower
      let upper ← b.upper.mapM upper
      return { lower, upper : StepBounds Expr }) = .ok o' ↔
      Option.Rel (fun b c => Option.Rel (fun j e => lower j = .ok e) b.lower c.lower ∧
        Option.Rel (fun j e => upper j = .ok e) b.upper c.upper) o o' := by
  rw [Result.option_mapM_eq_ok]
  refine iff_of_eq (congrArg (Option.Rel · o o') ?_)
  funext b c
  simp only [Result.bind_eq_ok, Result.option_mapM_eq_ok, eq_iff_iff]
  constructor
  · rintro ⟨l, hl, u, hu, ⟨⟩⟩
    exact ⟨hl, hu⟩
  · rintro ⟨hl, hu⟩
    exact ⟨_, hl, _, hu, rfl⟩

/-- The operands of a formula that is **read** are read from its operands in JSON. -/
theorem PathFormula.rel_of_readOperands {path : String} {f : PathFormula Json}
    {g : PathFormula Expr} (h : f.readOperands path = .ok g) :
    PathFormula.Rel (fun j e => ∃ path, operandExpr path j = .ok e) f g := by
  obtain ⟨p, comment, bounds⟩ := f
  obtain ⟨bounds', hbounds, h⟩ := Result.bind_eq_ok.1 h
  have hrel : Option.Rel (StepBounds.Rel fun j e => ∃ path, operandExpr path j = .ok e)
    bounds bounds' :=
    option_rel_mono (fun b c ⟨hl, hu⟩ => ⟨option_rel_mono (fun _ _ h => ⟨_, h⟩) hl,
      option_rel_mono (fun _ _ h => ⟨_, h⟩) hu⟩) (StepBounds.mapM_eq_ok.1 hbounds)
  cases p with
  | unary op a =>
    obtain ⟨e, he, h⟩ := Result.bind_eq_ok.1 h
    cases h
    exact ⟨.unary ⟨_, he⟩, rfl, hrel⟩
  | binary op a b =>
    obtain ⟨e, he, h⟩ := Result.bind_eq_ok.1 h
    obtain ⟨e', he', h⟩ := Result.bind_eq_ok.1 h
    cases h
    exact ⟨.binary ⟨_, he⟩ ⟨_, he'⟩, rfl, hrel⟩

/-- A formula is read if its operands are. -/
theorem PathFormula.readOperands_of_rel {f : PathFormula Json} {g : PathFormula Expr}
    (h : PathFormula.Rel (fun j e => ∀ path, operandExpr path j = .ok e) f g) (path : String) :
    f.readOperands path = .ok g := by
  obtain ⟨p, comment, bounds⟩ := f
  obtain ⟨q, comment', bounds'⟩ := g
  obtain ⟨hpath, rfl, hbounds⟩ := h
  have hread := StepBounds.mapM_eq_ok.2 <| option_rel_mono (fun b c hbc =>
    ⟨option_rel_mono (fun _ _ h => h (path ++ ".step-bounds.lower")) hbc.lower,
      option_rel_mono (fun _ _ h => h (path ++ ".step-bounds.upper")) hbc.upper⟩) hbounds
  refine Result.bind_eq_ok.2 ⟨bounds', hread, ?_⟩
  cases hpath with
  | unary h => exact Result.bind_eq_ok.2 ⟨_, h _, rfl⟩
  | binary h h' => exact Result.bind_eq_ok.2 ⟨_, h _, Result.bind_eq_ok.2 ⟨_, h' _, rfl⟩⟩

/-- The members that are written for a path. -/
def Path.members : Path Json → List (String × Json)
  | .unary op a => [("op", .str op.name), ("exp", a)]
  | .binary op a b => [("op", .str op.name), ("left", a), ("right", b)]

/-- What is written for bounds. -/
def StepBounds.written (b : StepBounds Json) : Json :=
  .fields [("lower", b.lower), ("upper", b.upper)]

/-- The members that are written for a formula. -/
def PathFormula.members (f : PathFormula Json) : List (String × Option Json) :=
  [("comment", f.comment.map Json.str)] ++ f.path.members.map (fun m => (m.1, some m.2)) ++
    [("step-bounds", f.bounds.map StepBounds.written)]

/-- What is **written** for a formula over operands in JSON. -/
def PathFormula.written (f : PathFormula Json) : Json :=
  .fields f.members

section Writing

variable {constants : Constants}

/-- A bound is written if it is there. -/
theorem exists_option_written {o : Option Expr} {o' : Option Json} :
    o.mapM (Expr.expandedJson constants) = .ok o' ↔
      Option.Rel (fun j e => e.expandedJson constants = .ok j) o' o := by
  rw [Result.option_mapM_eq_ok]
  exact ⟨option_rel_swap, option_rel_swap⟩

theorem StepBounds.written_eq_ok {o : Option (StepBounds Expr)} {o' : Option Json} :
    (o.mapM fun b => (do
      let lower ← b.lower.mapM (Expr.expandedJson constants)
      let upper ← b.upper.mapM (Expr.expandedJson constants)
      return Json.fields [("lower", lower), ("upper", upper)] : Result Json)) = .ok o' ↔
      ∃ c, Option.Rel (StepBounds.Rel fun j e => e.expandedJson constants = .ok j) c o ∧
        o' = c.map StepBounds.written := by
  rw [Result.option_mapM_eq_ok]
  constructor
  · rintro (h | _)
    · simp only [Result.bind_eq_ok, exists_option_written] at h
      obtain ⟨lower, hlower, upper, hupper, ⟨⟩⟩ := h
      exact ⟨some ⟨lower, upper⟩, .some ⟨hlower, hupper⟩, rfl⟩
    · exact ⟨none, .none, rfl⟩
  · rintro ⟨_, (h | _), rfl⟩
    · refine .some ?_
      simp only [Result.bind_eq_ok, exists_option_written]
      exact ⟨_, h.lower, _, h.upper, rfl⟩
    · exact .none

/-- A formula is **written** for the JSON forms of its expanded operands. -/
theorem PathFormula.toJson_eq_ok {f : PathFormula Expr} {j : Json} :
    f.toJson constants = .ok j ↔ ∃ g : PathFormula Json,
      PathFormula.Rel (fun a e => e.expandedJson constants = .ok a) g f ∧ j = g.written := by
  obtain ⟨p, comment, bounds⟩ := f
  constructor
  · intro h
    cases p with
    | unary op a =>
      obtain ⟨x, hx, h⟩ := Result.bind_eq_ok.1 h
      obtain ⟨_, ⟨⟩, h⟩ := Result.bind_eq_ok.1 h
      obtain ⟨written, hwritten, h⟩ := Result.bind_eq_ok.1 h
      obtain ⟨c, hc, rfl⟩ := StepBounds.written_eq_ok.1 hwritten
      cases h
      exact ⟨⟨.unary op x, comment, c⟩, ⟨.unary hx, rfl, hc⟩, rfl⟩
    | binary op a b =>
      obtain ⟨x, hx, h⟩ := Result.bind_eq_ok.1 h
      obtain ⟨y, hy, h⟩ := Result.bind_eq_ok.1 h
      obtain ⟨_, ⟨⟩, h⟩ := Result.bind_eq_ok.1 h
      obtain ⟨written, hwritten, h⟩ := Result.bind_eq_ok.1 h
      obtain ⟨c, hc, rfl⟩ := StepBounds.written_eq_ok.1 hwritten
      cases h
      exact ⟨⟨.binary op x y, comment, c⟩, ⟨.binary hx hy, rfl, hc⟩, rfl⟩
  · rintro ⟨⟨q, comment', c⟩, ⟨hpath, hcomment, hc⟩, rfl⟩
    cases hcomment
    have hwritten := StepBounds.written_eq_ok.2 ⟨c, hc, rfl⟩
    cases hpath with
    | unary h =>
      exact Result.bind_eq_ok.2 ⟨_, h,
        Result.bind_eq_ok.2 ⟨_, rfl, Result.bind_eq_ok.2 ⟨_, hwritten, rfl⟩⟩⟩
    | binary h h' =>
      exact Result.bind_eq_ok.2 ⟨_, h, Result.bind_eq_ok.2 ⟨_, h',
        Result.bind_eq_ok.2 ⟨_, rfl, Result.bind_eq_ok.2 ⟨_, hwritten, rfl⟩⟩⟩⟩

end Writing

/-! ### The schema of formulas -/

section Members

variable {members : List (String × Option Json)} {path : List String} {name : String}
  {o : Option Json}

/-- The members that have a value are written. -/
theorem Json.mem_fields {m : String × Json} :
    m ∈ members.filterMap (fun m => m.2.map (m.1, ·)) ↔ (m.1, some m.2) ∈ members := by
  constructor
  · intro h
    obtain ⟨⟨name, o⟩, hmem, hm⟩ := List.mem_filterMap.1 h
    obtain ⟨j, rfl, rfl⟩ := Option.map_eq_some_iff.1 hm
    exact hmem
  · exact fun h => List.mem_filterMap.2 ⟨_, h, rfl⟩

/-- What is written for a member stands under its name, or nothing does. -/
theorem Json.lookup_fields (h : (members.map (·.1)).Nodup) (hmem : (name, o) ∈ members) :
    lookup name (members.filterMap fun m => m.2.map (m.1, ·)) = o := by
  have hunique {o' : Option Json} (hmem' : (name, o') ∈ members) : o' = o :=
    congrArg (·.2) (List.inj_on_of_nodup_map h hmem' hmem rfl)
  cases hj : lookup name (members.filterMap fun m => m.2.map (m.1, ·)) with
  | some j => exact hunique (mem_fields.1 (mem_of_lookup hj))
  | none =>
    cases o with
    | none => rfl
    | some j =>
      have hwritten : (name, j) ∈ members.filterMap fun m => m.2.map (m.1, ·) := mem_fields.2 hmem
      rw [lookup, Option.map_eq_none_iff] at hj
      exact absurd (beq_self_eq_true name) (List.find?_eq_none.1 hj _ hwritten)

/-- A member is read as it was written. -/
theorem Schema.read_field {s : Schema α} {a : α} (h : (members.map (·.1)).Nodup)
    (hmem : (name, o) ∈ members) :
    (field name s).read path (members.filterMap fun m => m.2.map (m.1, ·)) = .valid a ↔
      s (path ++ [name]) o = .valid a := by
  rw [read_field_eq_valid, Json.lookup_fields h hmem]

end Members

/-- Bounds are **proper** if one of them is there. -/
def PathFormula.IsProper (f : PathFormula α) : Prop :=
  ∀ b, f.bounds = some b → (b.lower.isSome || b.upper.isSome) = true

/-- The same bounds are there in formulas that are related. -/
theorem PathFormula.Rel.isProper {f : PathFormula α} {g : PathFormula β} (h : PathFormula.Rel R f g)
    (hf : f.IsProper) : g.IsProper := by
  intro c hc
  have hsome {o : Option α} {o' : Option β} (h : Option.Rel R o o') : o'.isSome = o.isSome := by
    cases h <;> rfl
  obtain ⟨b, hb, hlower, hupper⟩ := exists_of_option_rel h.bounds c (by simp [hc])
  rw [hsome hlower, hsome hupper]
  exact hf b (Option.mem_toList.1 hb)

section Schemas

variable {operand : Schema Json} {path : List String} {f : PathFormula Json}

theorem stepBoundsSchema_written {b : StepBounds Json}
    (hb : (b.lower.isSome || b.upper.isSome) = true)
    (h : ∀ a ∈ b.operands, ∀ path, operand path (some a) = .valid a) :
    stepBoundsSchema operand path (some b.written) = .valid b := by
  have hnames : ([("lower", b.lower), ("upper", b.upper)].map (·.1)).Nodup := by simp
  have hoption (o : Option Json) (ho : ∀ a ∈ o.toList, a ∈ b.operands) (path : List String) :
      optional operand path o = .valid o := by
    refine optional_eq_valid.2 ?_
    cases o with
    | none => exact .inl ⟨rfl, rfl⟩
    | some a => exact .inr ⟨a, a, rfl, h a (ho a (by simp)) path, rfl⟩
  have hlower := (read_field hnames (by simp)).2
    (hoption b.lower (fun a ha => List.mem_append_left _ ha) (path ++ ["lower"]))
  have hupper := (read_field hnames (by simp)).2
    (hoption b.upper (fun a ha => List.mem_append_right _ ha) (path ++ ["upper"]))
  refine refine_eq_valid.2 ⟨strictObject_eq_valid.2 ⟨_, rfl, ?_, fun m hm => ?_⟩, hb⟩
  · exact read_seq_eq_valid.2 ⟨_, b.upper, read_map_eq_valid.2 ⟨b.lower, hlower, rfl⟩, hupper, rfl⟩
  · exact List.mem_map_of_mem (f := (·.1)) (Json.mem_fields.1 hm)

/-- A formula is read with its path, its comment and its bounds. -/
theorem formulaFields_eq_valid {fields : Fields (Path Json)} {members : List (String × Json)} :
    (formulaFields operand fields).read path members = .valid f ↔
      fields.read path members = .valid f.path ∧
      (field "comment" (optional text)).read path members = .valid f.comment ∧
      (field "step-bounds" (optional (stepBoundsSchema operand))).read path members =
        .valid f.bounds := by
  constructor
  · intro h
    obtain ⟨_, bounds, hleft, hbounds, heq⟩ := read_seq_eq_valid.1 h
    obtain ⟨_, comment, hpath, hcomment, rfl⟩ := read_seq_eq_valid.1 hleft
    obtain ⟨p, hp, rfl⟩ := read_map_eq_valid.1 hpath
    cases heq
    exact ⟨hp, hcomment, hbounds⟩
  · rintro ⟨hp, hcomment, hbounds⟩
    exact read_seq_eq_valid.2 ⟨_, f.bounds, read_seq_eq_valid.2 ⟨_, f.comment,
      read_map_eq_valid.2 ⟨f.path, hp, rfl⟩, hcomment, rfl⟩, hbounds, rfl⟩

/-- The members that are written for a formula have distinct names. -/
theorem PathFormula.nodup_members (f : PathFormula Json) : (f.members.map (·.1)).Nodup := by
  obtain ⟨p, comment, bounds⟩ := f
  cases p <;> simp [members, Path.members]

/-- What is written for a formula is read as it, if its path is. -/
theorem strictObject_written {fields : Fields (Path Json)} (hf : f.IsProper)
    (h : ∀ a ∈ f.operands, ∀ path, operand path (some a) = .valid a)
    (hpath : fields.read path (f.members.filterMap fun m => m.2.map (m.1, ·)) = .valid f.path)
    (hkeys : ∀ m ∈ f.path.members, m.1 ∈ fields.keys) :
    strictObject (formulaFields operand fields) path (some f.written) = .valid f := by
  have hcomment (path : List String) :
      optional text path (f.comment.map Json.str) = .valid f.comment := by
    refine optional_eq_valid.2 ?_
    cases f.comment with
    | none => exact .inl ⟨rfl, rfl⟩
    | some c => exact .inr ⟨.str c, c, rfl, text_eq_valid.2 rfl, rfl⟩
  have hbounds (path : List String) : optional (stepBoundsSchema operand) path
      (f.bounds.map StepBounds.written) = .valid f.bounds := by
    refine optional_eq_valid.2 ?_
    cases hb : f.bounds with
    | none => exact .inl ⟨rfl, rfl⟩
    | some b =>
      refine .inr ⟨_, b, rfl, stepBoundsSchema_written (hf b hb) fun a ha => h a ?_, rfl⟩
      exact List.mem_append_right _ (by simpa [hb] using ha)
  refine strictObject_eq_valid.2 ⟨_, rfl, formulaFields_eq_valid.2 ⟨hpath, ?_, ?_⟩, fun m hm => ?_⟩
  · exact (read_field f.nodup_members (by simp [PathFormula.members])).2 (hcomment _)
  · exact (read_field f.nodup_members (by simp [PathFormula.members])).2 (hbounds _)
  · have hname := Json.mem_fields.1 hm
    simp only [PathFormula.members, List.mem_append, List.mem_map, List.mem_singleton,
      Prod.mk.injEq] at hname
    simp only [formulaFields, keys_seq, keys_map, keys_field, List.mem_append, List.mem_singleton]
    rcases hname with (⟨hcomment, -⟩ | ⟨m', hm', hpath, -⟩) | ⟨hbounds, -⟩
    · exact .inl (.inr hcomment)
    · exact .inl (.inl (hpath ▸ hkeys m' hm'))
    · exact .inr hbounds

/-- **What is written for a formula is read as it**, if its operands are valid. -/
theorem formulaSchema_written (hf : f.IsProper)
    (h : ∀ a ∈ f.operands, ∀ path, operand path (some a) = .valid a) :
    formulaSchema operand path (some f.written) = .valid f := by
  have hnames := f.nodup_members
  have hoperand (a : Json) (ha : a ∈ f.path.operands) (path : List String) :
      operand path (some a) = .valid a := h a (List.mem_append_left _ ha) path
  -- the members are listed for each kind of path, to find the operands among them
  cases hp : f.path with
  | unary op a =>
    have hmembers : f.members = [("comment", f.comment.map Json.str), ("op", some (.str op.name)),
        ("exp", some a), ("step-bounds", f.bounds.map StepBounds.written)] := by
      simp [PathFormula.members, hp, Path.members]
    have hop : ("op", some (Json.str op.name)) ∈ f.members := by simp [hmembers]
    have ha : ("exp", some a) ∈ f.members := by simp [hmembers]
    refine tagged_eq_valid.2 ⟨_, op.name, unaryFormula operand op, rfl,
      Json.lookup_fields hnames hop, ?_, ?_⟩
    · cases op <;> rfl
    · refine strictObject_written hf h ?_ (by simp [hp, Path.members])
      rw [hp]
      exact read_seq_eq_valid.2 ⟨_, a, read_map_eq_valid.2 ⟨op.name,
        (read_field hnames hop).2 (text_eq_valid.2 rfl), rfl⟩,
        (read_field hnames ha).2 (hoperand a (by simp [hp, Path.operands]) _), rfl⟩
  | binary op a b =>
    have hmembers : f.members = [("comment", f.comment.map Json.str), ("op", some (.str op.name)),
        ("left", some a), ("right", some b), ("step-bounds", f.bounds.map StepBounds.written)] := by
      simp [PathFormula.members, hp, Path.members]
    have hop : ("op", some (Json.str op.name)) ∈ f.members := by simp [hmembers]
    have ha : ("left", some a) ∈ f.members := by simp [hmembers]
    have hb : ("right", some b) ∈ f.members := by simp [hmembers]
    refine tagged_eq_valid.2
      ⟨_, op.name, binaryFormula operand op, rfl, Json.lookup_fields hnames hop, ?_, ?_⟩
    · cases op <;> rfl
    · refine strictObject_written hf h ?_ (by simp [hp, Path.members])
      rw [hp]
      exact read_seq_eq_valid.2 ⟨_, b, read_seq_eq_valid.2 ⟨_, a, read_map_eq_valid.2 ⟨op.name,
        (read_field hnames hop).2 (text_eq_valid.2 rfl), rfl⟩,
        (read_field hnames ha).2 (hoperand a (by simp [hp, Path.operands]) _), rfl⟩,
        (read_field hnames hb).2 (hoperand b (by simp [hp, Path.operands]) _), rfl⟩

/-- Bounds of a formula that is read are proper. -/
theorem isProper_of_formulaSchema {v : Option Json} (h : formulaSchema operand path v = .valid f) :
    f.IsProper := by
  have hstrict {fields : Fields (Path Json)} {v : Option Json}
      (h : strictObject (formulaFields operand fields) path v = .valid f) : f.IsProper := by
    obtain ⟨members, -, hread, -⟩ := strictObject_eq_valid.1 h
    obtain ⟨-, -, hbounds⟩ := formulaFields_eq_valid.1 hread
    intro b hb
    rw [hb] at hbounds
    rcases optional_eq_valid.1 hbounds with ⟨-, ⟨⟩⟩ | ⟨j, b', -, hb', ⟨⟩⟩
    exact (refine_eq_valid.1 hb').2
  obtain ⟨members, word, c, -, -, hfind, hc⟩ := tagged_eq_valid.1 h
  have hmem := List.mem_of_find?_eq_some hfind
  simp only [List.mem_cons, List.not_mem_nil, or_false] at hmem
  rcases hmem with rfl | rfl | rfl | rfl <;> exact hstrict hc

/-- What is **written** for a property over operands in JSON. -/
def PropertyOver.written (p : PropertyOver Json) : Json :=
  .obj [("name", .str p.name),
    ("expression", .obj [("op", .str "filter"), ("fun", .str p.filter.name),
      ("values", .obj [("op", .str p.extremum.name), ("exp", p.formula.written)]),
      ("states", .obj [("op", .str "initial")])])]

/-- **What is written for a property is read as it**, if its operands are valid. -/
theorem propertySchema_written {p : PropertyOver Json} (hname : p.name ≠ "")
    (hp : p.formula.IsProper)
    (h : ∀ a ∈ p.formula.operands, ∀ path, operand path (some a) = .valid a) :
    propertySchema operand path (some p.written) = .valid p := by
  have hfilter (path : List String) :
      oneOf (FilterFunction.all.map fun f => (f.name, f)) path (some (.str p.filter.name)) =
        .valid p.filter := by
    cases p.filter <;> rfl
  have hextremum (path : List String) :
      oneOf [("Pmin", Extremum.least), ("Pmax", .greatest)] path (some (.str p.extremum.name)) =
        .valid p.extremum := by
    cases p.extremum <;> rfl
  refine strictObject_eq_valid.2 ⟨_, rfl, ?_, by simp⟩
  refine read_seq_eq_valid.2 ⟨_, (p.filter, p.extremum, p.formula), read_map_eq_valid.2
    ⟨p.name, nonEmpty_eq_valid.2 ⟨rfl, hname⟩, rfl⟩,
      read_field_eq_valid.2 (strictObject_eq_valid.2 ?_), rfl⟩
  refine ⟨_, rfl, ?_, by simp⟩
  refine read_seq_eq_valid.2 ⟨_, (), read_seq_eq_valid.2 ⟨_, (p.extremum, p.formula),
    read_seq_eq_valid.2 ⟨_, p.filter, read_map_eq_valid.2
      ⟨(), read_field_eq_valid.2 (exactly_eq_valid.2 rfl), rfl⟩,
      hfilter _, rfl⟩, read_field_eq_valid.2 (strictObject_eq_valid.2 ?_), rfl⟩,
        read_field_eq_valid.2 (strictObject_eq_valid.2 ?_), rfl⟩
  · refine ⟨_, rfl, ?_, by simp⟩
    exact read_seq_eq_valid.2 ⟨_, p.formula, read_map_eq_valid.2 ⟨p.extremum, hextremum _, rfl⟩,
      formulaSchema_written hp h, rfl⟩
  · exact ⟨_, rfl, read_field_eq_valid.2 (exactly_eq_valid.2 rfl), by simp⟩

/-- A property that is read has a name, and its bounds are proper. -/
theorem of_propertySchema {v : Option Json} {p : PropertyOver Json}
    (h : propertySchema operand path v = .valid p) : p.name ≠ "" ∧ p.formula.IsProper := by
  obtain ⟨members, -, hproperty, -⟩ := strictObject_eq_valid.1 h
  obtain ⟨_, ⟨filter, extremum, formula⟩, hleft, hexpression, heq⟩ := read_seq_eq_valid.1 hproperty
  obtain ⟨name, hname, rfl⟩ := read_map_eq_valid.1 hleft
  cases heq
  refine ⟨(nonEmpty_eq_valid.1 hname).2, ?_⟩
  obtain ⟨members', -, hfilter, -⟩ := strictObject_eq_valid.1 hexpression
  obtain ⟨_, _, hbefore, -, heq⟩ := read_seq_eq_valid.1 hfilter
  obtain ⟨_, values, hbefore', hvalues, rfl⟩ := read_seq_eq_valid.1 hbefore
  obtain ⟨_, _, hop, -, rfl⟩ := read_seq_eq_valid.1 hbefore'
  obtain ⟨_, -, rfl⟩ := read_map_eq_valid.1 hop
  cases heq
  obtain ⟨members'', -, hpair, -⟩ := strictObject_eq_valid.1 hvalues
  obtain ⟨_, formula', hextremum, hformula, heq⟩ := read_seq_eq_valid.1 hpair
  obtain ⟨_, -, rfl⟩ := read_map_eq_valid.1 hextremum
  cases heq
  exact isProper_of_formulaSchema hformula

/-! ### Operands of what is valid -/

/-- Bounds that are written are valid only if each of them is. -/
theorem valid_of_stepBoundsSchema {b c : StepBounds Json}
    (h : stepBoundsSchema operand path (some b.written) = .valid c) :
    ∀ a ∈ b.operands, ∃ path c, operand path (some a) = .valid c := by
  obtain ⟨_, hobject, hread, -⟩ := strictObject_eq_valid.1 (refine_eq_valid.1 h).1
  cases hobject
  obtain ⟨_, upper, hfirst, hupper, -⟩ := read_seq_eq_valid.1 hread
  obtain ⟨lower, hlower, -⟩ := read_map_eq_valid.1 hfirst
  have hnames : ([("lower", b.lower), ("upper", b.upper)].map (·.1)).Nodup := by simp
  have hoption {path : List String} {o o' : Option Json} (h : optional operand path o = .valid o') :
      ∀ a ∈ o.toList, ∃ path c, operand path (some a) = .valid c := by
    intro a ha
    obtain rfl := Option.mem_toList.1 ha
    rcases optional_eq_valid.1 h with ⟨⟨⟩, -⟩ | ⟨_, c, ⟨⟩, hc, -⟩
    exact ⟨path, c, hc⟩
  exact List.forall_mem_append.2 ⟨hoption ((read_field hnames (by simp)).1 hlower),
    hoption ((read_field hnames (by simp)).1 hupper)⟩

/-- The bounds of a formula that is written are valid only if each of their operands is. -/
theorem valid_of_bounds {o : Option (StepBounds Json)}
    (h : (field "step-bounds" (optional (stepBoundsSchema operand))).read path
      (f.members.filterMap fun m => m.2.map (m.1, ·)) = .valid o) :
    ∀ a ∈ f.bounds.toList.flatMap StepBounds.operands,
      ∃ path c, operand path (some a) = .valid c := by
  intro a ha
  obtain ⟨b, hb, ha⟩ := List.mem_flatMap.1 ha
  replace h := (read_field f.nodup_members (o := f.bounds.map StepBounds.written)
    (by simp [PathFormula.members])).1 h
  rw [Option.mem_toList.1 hb] at h
  rcases optional_eq_valid.1 h with ⟨⟨⟩, -⟩ | ⟨_, c, ⟨⟩, hc, -⟩
  exact valid_of_stepBoundsSchema hc a ha

/-- A formula that is written is valid only if each of its operands is. -/
theorem valid_of_formulaSchema {g : PathFormula Json}
    (h : formulaSchema operand path (some f.written) = .valid g) :
    ∀ a ∈ f.operands, ∃ path c, operand path (some a) = .valid c := by
  have hnames := f.nodup_members
  obtain ⟨_, word, form, hobject, hword, hform, hvalid⟩ := tagged_eq_valid.1 h
  cases hobject
  -- the operator that was written selects the form, and its members are the operands
  cases hp : f.path with
  | unary op a =>
    have hmembers : f.members = [("comment", f.comment.map Json.str), ("op", some (.str op.name)),
        ("exp", some a), ("step-bounds", f.bounds.map StepBounds.written)] := by
      simp [PathFormula.members, hp, Path.members]
    rw [Json.lookup_fields hnames (o := some (.str op.name)) (by simp [hmembers])] at hword
    cases hword
    obtain rfl : unaryFormula operand op = form := by cases op <;> exact Option.some.inj hform
    simp only [unaryFormula] at hvalid
    obtain ⟨_, hobject, hread, -⟩ := strictObject_eq_valid.1 hvalid
    cases hobject
    obtain ⟨hpath, -, hbound⟩ := formulaFields_eq_valid.1 hread
    obtain ⟨_, a', -, ha', -⟩ := read_seq_eq_valid.1 hpath
    have ha := (read_field hnames (o := some a) (by simp [hmembers])).1 ha'
    rw [PathFormula.operands, hp]
    exact List.forall_mem_append.2 ⟨by simpa [Path.operands] using ⟨_, a', ha⟩,
      valid_of_bounds hbound⟩
  | binary op a b =>
    have hmembers : f.members = [("comment", f.comment.map Json.str), ("op", some (.str op.name)),
        ("left", some a), ("right", some b), ("step-bounds", f.bounds.map StepBounds.written)] := by
      simp [PathFormula.members, hp, Path.members]
    rw [Json.lookup_fields hnames (o := some (.str op.name)) (by simp [hmembers])] at hword
    cases hword
    obtain rfl : binaryFormula operand op = form := by cases op <;> exact Option.some.inj hform
    simp only [binaryFormula] at hvalid
    obtain ⟨_, hobject, hread, -⟩ := strictObject_eq_valid.1 hvalid
    cases hobject
    obtain ⟨hpath, -, hbound⟩ := formulaFields_eq_valid.1 hread
    obtain ⟨_, b', hfirst, hb', -⟩ := read_seq_eq_valid.1 hpath
    obtain ⟨_, a', -, ha', -⟩ := read_seq_eq_valid.1 hfirst
    have ha := (read_field hnames (o := some a) (by simp [hmembers])).1 ha'
    have hb := (read_field hnames (o := some b) (by simp [hmembers])).1 hb'
    rw [PathFormula.operands, hp]
    exact List.forall_mem_append.2 ⟨by simpa [Path.operands] using ⟨⟨_, a', ha⟩, ⟨_, b', hb⟩⟩,
      valid_of_bounds hbound⟩

/-- A property that is written is valid only if each of its operands is. -/
theorem valid_of_propertySchema {p q : PropertyOver Json}
    (h : propertySchema operand path (some p.written) = .valid q) :
    ∀ a ∈ p.formula.operands, ∃ path c, operand path (some a) = .valid c := by
  unfold propertySchema at h
  obtain ⟨_, hobject, hproperty, -⟩ := strictObject_eq_valid.1 h
  cases hobject
  obtain ⟨_, _, -, hexpression, -⟩ := read_seq_eq_valid.1 hproperty
  obtain ⟨_, hobject, hfilter, -⟩ := strictObject_eq_valid.1 (read_field_eq_valid.1 hexpression)
  cases hobject
  obtain ⟨_, _, hbefore, -, -⟩ := read_seq_eq_valid.1 hfilter
  obtain ⟨_, _, -, hvalues, -⟩ := read_seq_eq_valid.1 hbefore
  obtain ⟨_, hobject, hpair, -⟩ := strictObject_eq_valid.1 (read_field_eq_valid.1 hvalues)
  cases hobject
  obtain ⟨_, _, -, hformula, -⟩ := read_seq_eq_valid.1 hpair
  exact valid_of_formulaSchema (read_field_eq_valid.1 hformula)

end Schemas

end ChartNet
