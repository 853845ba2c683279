import ChartNet.Chart.Data
import ChartNet.Expr.Constant
import ChartNet.Proofs.Build

/-!
# Bounds of variables

An entry of the data of a chart may bound its variable. Its bounds are amounts: numbers, or texts of
expressions. So is its initial value, which is zero if there is none (`Data.start`). Each amount is
made an expression by itself (`Data.vars_eq_ok`), and their values are never compared. So a variable
starts between its bounds if and only if the amounts of its entry say so, and an entry that is
accepted stays so with any other bounds that can be read (`Data.between_iff_of_vars`).
-/

namespace ChartNet

/-! ### Values of amounts -/

/-- The **number** that an expression over constants has as its value. -/
def Expr.number? (constants : Constants) (e : Expr) : Option Float :=
  match e.evaluate constants with
  | .ok (.num x) => some x
  | _ => none

/-- The number that an **amount** stands for: the number that it is, or the value of its text. -/
def Amount.number? (constants : Constants) : Amount → Option Float
  | .number x => some x
  | .source text => (Source.parse text).toOption.bind (Expr.number? constants)

/-- A value is a number **between** the bounds that there are, which are numbers too. -/
def Between {α : Type} (value : α → Option Float) (lower upper : Option α) (start : α) : Prop :=
  ∃ x, value start = some x ∧ (∀ a ∈ lower, ∃ y, value a = some y ∧ y ≤ x) ∧
    ∀ a ∈ upper, ∃ y, value a = some y ∧ x ≤ y

/-- Only the values count. -/
theorem between_congr {α β : Type} {value : α → Option Float} {value' : β → Option Float}
    {R : α → β → Prop}
    (hR : ∀ a b, R a b → value a = value' b) {lower upper : Option α} {lower' upper' : Option β}
    {start : α} {start' : β} (hlower : Option.Rel R lower lower')
    (hupper : Option.Rel R upper upper')
    (hstart : R start start') :
    Between value lower upper start ↔ Between value' lower' upper' start' := by
  have hbound {o : Option α} {o' : Option β} (h : Option.Rel R o o') (p : Float → Prop) :
      (∀ a ∈ o, ∃ y, value a = some y ∧ p y) ↔ ∀ b ∈ o', ∃ y, value' b = some y ∧ p y := by
    cases h with
    | none => simp
    | some h => simp [hR _ _ h]
  simp only [Between, hR _ _ hstart, hbound hlower, hbound hupper]

@[simp] theorem Expr.number?_num {constants : Constants} {kind : NumKind} {x : Float} :
    (Expr.lit (.num kind x)).number? constants = some x := by
  simp [number?, evaluate, evaluateIn]

@[simp] theorem Expr.number?_int {constants : Constants} {x : Float} :
    (Expr.int x).number? constants = some x := number?_num

namespace Data

/-- The expression that an amount is made has the number that the amount stands for. -/
theorem number?_of_boundExpr {kind : NumKind} {a : Amount} {e : Expr} (h : boundExpr kind a = .ok e)
    (constants : Constants) : a.number? constants = e.number? constants := by
  cases a with
  | number x =>
    rw [boundExpr] at h
    split at h
    · cases h
    · cases h
      simp [Amount.number?]
  | source text =>
    have hparse : Source.parse text = .ok e := h
    simp [Amount.number?, hparse, Except.toOption]

/-! ### Entries with bounds -/

variable {d : Data} {capacity : Size} {types : TypeLookup} {kind : NumKind}
  {lower upper : Option Expr}

/-- The amount from which the variable of an entry **starts**: its initial value, or zero. -/
def start (d : Data) : Amount :=
  d.expr.elim (.number 0) .source

/-- The initial value of an entry, if it has a type, has one that fits. -/
def Fits (d : Data) (kind : NumKind) (types : TypeLookup) (init : Expr) : Prop :=
  d.expr.isSome → ∃ t, init.infer types = .ok t ∧
    ∀ actual ∈ t, canStartFrom (.scalar kind.toScalar) actual = true

/-- Only types of numbers have bounds. -/
theorem exists_kind_of_boundedType (hd : d.hasBounds = true) {t u : DataType}
    (h : d.boundedType t = .ok u) :
    ∃ kind : NumKind, t = .scalar kind.toScalar := by
  simp only [boundedType, hd, Bool.not_true, Bool.false_eq_true, if_false] at h
  split at h
  · exact ⟨.int, rfl⟩
  · exact ⟨.real, rfl⟩
  · cases h

/-- Each bound of a type of numbers is made an expression by itself. -/
theorem boundedType_eq_ok (hd : d.hasBounds = true) {u : DataType} :
    d.boundedType (.scalar kind.toScalar) = .ok u ↔ ∃ lower upper,
      d.lowerBound.mapM (boundExpr kind) = .ok lower ∧
      d.upperBound.mapM (boundExpr kind) = .ok upper ∧
        u = .bounded kind lower upper := by
  have hread : d.boundedType (.scalar kind.toScalar) = (do
      let lower ← d.lowerBound.mapM (boundExpr kind)
      let upper ← d.upperBound.mapM (boundExpr kind)
      return .bounded kind lower upper) := by
    cases kind <;> simp only [boundedType, hd] <;> rfl
  rw [hread]
  simp only [Result.bind_eq_ok]
  constructor
  · rintro ⟨lower, hlower, upper, hupper, ⟨⟩⟩
    exact ⟨lower, upper, hlower, hupper, rfl⟩
  · rintro ⟨lower, upper, hlower, hupper, rfl⟩
    exact ⟨lower, hlower, upper, hupper, rfl⟩

/-- The initial value is made an expression like a bound, and checked without regard to the
bounds. -/
theorem scalarVariable_eq_ok {v : Variable} :
    d.scalarVariable (.bounded kind lower upper) types = .ok v ↔
      ∃ init, boundExpr kind d.start = .ok init ∧
      d.Fits kind types init ∧ v = { name := d.id, type := .bounded kind lower upper, init } := by
  have hmake (init : Option Expr) : Variable.make d.id (.bounded kind lower upper) init = .ok v ↔
      v = { name := d.id, type := .bounded kind lower upper,
            init := init.getD (.lit (.num kind 0)) } := by
    simp [Variable.make, DataType.hasRoom, DataType.default, eq_comm]
  -- bounds do not matter for what a variable can start from
  have hfits {actual : DataType} : canStartFrom (.bounded kind lower upper) actual =
      canStartFrom (.scalar kind.toScalar) actual := rfl
  cases hexpr : d.expr with
  | none =>
    have hzero : boundExpr kind d.start = .ok (.lit (.num kind 0)) := by
      have hwhole : Number.isWhole 0 = true := by decide +kernel
      simp [start, hexpr, boundExpr, hwhole]
    simp [scalarVariable, hexpr, hmake, hzero, Fits]
  | some text =>
    have hstart : boundExpr kind d.start = Source.parse text := by simp [start, hexpr, boundExpr]
    simp only [scalarVariable, hexpr, Result.bind_eq_ok, hstart, Fits, Option.isSome_some,
      forall_const]
    refine exists_congr fun init => and_congr_right fun _ => ?_
    constructor
    · rintro ⟨t, ht, h⟩
      cases t with
      | none => exact ⟨⟨none, ht, by simp⟩, (hmake (some init)).1 h⟩
      | some actual =>
        dsimp only at h
        split at h
        · rename_i hcan
          exact ⟨⟨some actual, ht, by simpa [hfits] using hcan⟩, (hmake (some init)).1 h⟩
        · cases h
    · rintro ⟨⟨t, ht, hcan⟩, hv⟩
      refine ⟨t, ht, ?_⟩
      cases t with
      | none => exact (hmake (some init)).2 hv
      | some actual =>
        exact (if_pos (hfits.trans (hcan actual rfl))).trans ((hmake (some init)).2 hv)

/-- An entry with bounds declares **one variable**, of the type that it names with each bound as it
is read, which starts from the initial value as it is read. -/
theorem vars_eq_ok (hd : d.hasBounds = true) {vs : List Variable} :
    d.vars capacity types = .ok vs ↔ ∃ kind lower upper init,
      (DeclaredType.ofText d.type capacity).map (·.type) = .ok (.scalar kind.toScalar) ∧
      d.lowerBound.mapM (boundExpr kind) = .ok lower ∧
      d.upperBound.mapM (boundExpr kind) = .ok upper ∧
      boundExpr kind d.start = .ok init ∧ d.Fits kind types init ∧
      vs = [{ name := d.id, type := .bounded kind lower upper, init }] := by
  simp only [vars, Result.bind_eq_ok, Result.map_eq_ok]
  constructor
  · rintro ⟨declared, hdeclared, h⟩
    split at h
    · simp only [hd, if_true] at h
      cases h
    · simp only [Result.bind_eq_ok] at h
      obtain ⟨u, hu, v, hv, ⟨⟩⟩ := h
      obtain ⟨kind, hkind⟩ := exists_kind_of_boundedType hd hu
      rw [hkind] at hu
      obtain ⟨lower, upper, hlower, hupper, rfl⟩ := (boundedType_eq_ok hd).1 hu
      obtain ⟨init, hinit, hfits, rfl⟩ := scalarVariable_eq_ok.1 hv
      exact ⟨kind, lower, upper, init, ⟨declared, hdeclared, hkind⟩, hlower, hupper,
        hinit, hfits, rfl⟩
  · rintro ⟨kind, lower, upper, init, ⟨declared, hdeclared, htype⟩, hlower, hupper,
      hinit, hfits, rfl⟩
    refine ⟨declared, hdeclared, ?_⟩
    rw [htype]
    have hbounded := (boundedType_eq_ok hd).2 ⟨lower, upper, hlower, hupper, rfl⟩
    exact Result.bind_eq_ok.2 ⟨_, hbounded, Result.bind_eq_ok.2
      ⟨_, scalarVariable_eq_ok.2 ⟨init, hinit, hfits, rfl⟩, rfl⟩⟩

/-- **A variable starts between its bounds if and only if the amounts of its entry say so.** An
entry with bounds declares one variable with these bounds, which starts from the initial value of
the entry or from zero. With any other bounds that can be read the entry is accepted as well, and
its variable starts from the same value. -/
theorem between_iff_of_vars (hd : d.hasBounds = true) {vs : List Variable}
    (h : d.vars capacity types = .ok vs) :
    ∃ (kind : NumKind) (lower upper : Option Expr) (init : Expr),
      vs = [{ name := d.id, type := .bounded kind lower upper, init }] ∧
      (d.lowerBound.mapM (boundExpr kind) = .ok lower ∧
        d.upperBound.mapM (boundExpr kind) = .ok upper ∧
        boundExpr kind d.start = .ok init) ∧
      (∀ constants, Between (Expr.number? constants) lower upper init ↔
        Between (Amount.number? constants) d.lowerBound d.upperBound d.start) ∧
      ∀ (lowerBound upperBound : Option Amount) (lower' upper' : Option Expr),
        (lowerBound.isSome || upperBound.isSome) = true →
        lowerBound.mapM (boundExpr kind) = .ok lower' →
        upperBound.mapM (boundExpr kind) = .ok upper' →
        { d with lowerBound, upperBound }.vars capacity types =
          .ok [{ name := d.id, type := .bounded kind lower' upper', init }] := by
  obtain ⟨kind, lower, upper, init, htype, hlower, hupper, hinit, hfits, rfl⟩ := (vars_eq_ok hd).1 h
  refine ⟨kind, lower, upper, init, rfl, ⟨hlower, hupper, hinit⟩, fun constants => ?_, ?_⟩
  · have hvalue (a : Amount) (e : Expr) (he : boundExpr kind a = .ok e) :=
      number?_of_boundExpr he constants
    exact (between_congr (R := fun a e => boundExpr kind a = .ok e) hvalue
      (Result.option_mapM_eq_ok.1 hlower)
      (Result.option_mapM_eq_ok.1 hupper) hinit).symm
  · intro lowerBound upperBound lower' upper' hbounds hlower' hupper'
    exact (vars_eq_ok (d := { d with lowerBound, upperBound }) hbounds).2
      ⟨kind, lower', upper', init, htype, hlower', hupper', hinit, hfits, rfl⟩

/-- A variable with a bound of each form starts from zero, which lies between them. -/
theorem between_iff_of_vars_of_texts :
    let d : Data :=
      { id := "n", type := "int32", lowerBound := some (.number 0),
        upperBound := some (.source "10") }
    let v : Variable :=
      { name := "n", type := .bounded .int (some (.int 0)) (some (.int 10)), init := .int 0 }
    d.hasBounds = true ∧ d.vars (.whole 4) (fun _ => none) = .ok [v] ∧
      Between (Expr.number? []) (some (.int 0)) (some (.int 10)) v.init ∧
      { d with lowerBound := none }.vars (.whole 4) (fun _ => none) =
        .ok [{ v with type := .bounded .int none (some (.int 10)) }] := by
  intro d v
  have hvars : d.vars (.whole 4) (fun _ => none) = .ok [v] :=
    Result.eq_ok_of_toOption (by decide +kernel)
  obtain ⟨kind, lower, upper, init, heq, ⟨-, hupper, -⟩, hbetween, hother⟩ :=
    between_iff_of_vars rfl hvars
  obtain ⟨-, ⟨rfl, rfl, rfl⟩, rfl⟩ : "n" = d.id ∧ (kind = .int ∧ lower = some (.int 0) ∧
      upper = some (.int 10)) ∧ init = .int 0 := by
    simpa [v, eq_comm] using heq
  have hten : Source.parse "10" = .ok (.int 10) := by decide +kernel
  have hself : (0 : Float) ≤ 0 := by decide +kernel
  have hle : (0 : Float) ≤ 10 := by decide +kernel
  refine ⟨rfl, hvars, (hbetween []).2 ?_, hother none _ none _ rfl rfl hupper⟩
  refine ⟨0, rfl, ?_, ?_⟩
  · simpa [d, Amount.number?] using hself
  · simpa [d, Amount.number?, hten, Except.toOption] using hle

/-- **A variable may start outside of its bounds**, from zero as well as from an initial value that
is given. -/
theorem not_between_of_vars :
    let low : Data := { id := "n", type := "int32", lowerBound := some (.number 1) }
    let high : Data :=
      { id := "n", type := "int32", expr := some "5", upperBound := some (.source "3") }
    (low.vars (.whole 4) (fun _ => none) =
        .ok [{ name := "n", type := .bounded .int (some (.int 1)) none, init := .int 0 }] ∧
      (Expr.int 1).number? [] = some 1 ∧ (Expr.int 0).number? [] = some 0 ∧
        ¬ Between (Expr.number? []) (some (.int 1)) none (.int 0)) ∧
    high.vars (.whole 4) (fun _ => none) =
        .ok [{ name := "n", type := .bounded .int none (some (.int 3)), init := .int 5 }] ∧
      (Expr.int 3).number? [] = some 3 ∧ (Expr.int 5).number? [] = some 5 ∧
        ¬ Between (Expr.number? []) none (some (.int 3)) (.int 5) := by
  intro low high
  have hlow : ¬ (1 : Float) ≤ 0 := by decide +kernel
  have hhigh : ¬ (5 : Float) ≤ 3 := by decide +kernel
  refine ⟨⟨Result.eq_ok_of_toOption (by decide +kernel), by simp, by simp, ?_⟩,
    Result.eq_ok_of_toOption (by decide +kernel), by simp, by simp, ?_⟩
  · simp [Between, hlow]
  · simp [Between, hhigh]

end Data

end ChartNet
