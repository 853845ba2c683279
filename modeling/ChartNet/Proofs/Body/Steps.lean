import ChartNet.Chart.Assign
import ChartNet.Proofs.Fields

/-!
# What steps assign

A step assigns in one of three ways (`Scope.Assigns`): a value to a variable that is no array, a
whole array, or a value to an element. A whole array is **stored** in its variable and in its length
variables (`Scope.assignArray_cases`): it is a literal or another array variable, and the names that
are assigned to do not depend on that (`Scope.refs_assignArray`). What holds of all steps is proved
of these.
-/

namespace ChartNet

/-! ### Chains of targets -/

/-- The chain of accesses to a chain. -/
theorem Expr.chain?_foldl_access {e : Expr} {c : AccessChain} (hc : e.chain? = some c)
    (is : List Expr) :
    (is.foldl Expr.access e).chain? = some { c with indexes := c.indexes ++ is } := by
  induction is generalizing e c with
  | nil => simpa using hc
  | cons i is ih =>
    have hpush : (e.access i).chain? = some { c with indexes := c.indexes ++ [i] } := by
      simp [Expr.access, Expr.chain?, hc]
    rw [List.foldl_cons, ih hpush, List.append_assoc, List.singleton_append]

@[simp] theorem AccessChain.chain?_toExpr (c : AccessChain) : c.toExpr.chain? = some c := by
  rw [toExpr, Expr.chain?_foldl_access (c := ⟨c.root, []⟩) rfl]
  rfl

/-! ### Whole arrays -/

/-- The assignments that **store** a value in a variable at one index, and others in its length
variables at another. -/
def storing (target : String) (value : Expr) (lengths : List Expr) (index later : Rank) :
    List Assignment :=
  { ref := .ident target, value, index } :: lengths.mapIdx fun i length =>
    { ref := .ident (lengthName target (i + 1)), value := length, index := later }

namespace Scope

variable {scope : Scope} {r : Rank}

section Arrays

variable {target : String} {shape : ArrayShape} {source : Source} {as : List Assignment}

/-- A literal has a length for every dimension of the shape that it is fitted to. -/
theorem length_of_lengths {value : ArrayValue} {shape : ArrayShape} {lengths : List Element}
    (h : value.lengths shape = .ok lengths) : lengths.length = shape.sizes.length := by
  simpa using (Result.mapM_eq_ok.1 h).length_eq.symm

/-- A **whole array** is a literal that fits, or another array variable of as many dimensions. -/
theorem assignArray_cases (h : scope.assignArray target shape source r = .ok as) :
    (∃ form value fitted lengths stored, source.meaning = .literal form value ∧
      source.fit shape false = .ok fitted ∧ fitted.lengths shape = .ok lengths ∧
      source.fit shape true = .ok stored ∧
      as = storing target (.array stored) (lengths.map Element.toExpr) r r.next) ∨
    ∃ name given, source.expr.withEvent scope.event = .ident name ∧
      scope.types name = some (.array given) ∧ given.sizes.length = shape.sizes.length ∧
      as = storing target (.ident name)
        ((List.range shape.sizes.length).map fun i => .ident (lengthName name (i + 1))) r
          r.next := by
  unfold assignArray at h
  split at h
  · -- what is stored is padded, what the lengths are taken from is not
    rename_i form value hliteral
    simp only [Result.bind_eq_ok] at h
    obtain ⟨fitted, hfitted, lengths, hlengths, stored, hstored, heq⟩ := h
    cases heq
    refine .inl ⟨form, value, fitted, lengths, stored, hliteral, hfitted, hlengths, hstored,
      congrArg (_ :: ·) ?_⟩
    exact List.ext_getElem (by simp) fun i _ _ => by simp
  · rename_i e hplain
    split at h
    · rename_i name hname
      simp only at h
      split at h
      · rename_i given hgiven
        split at h
        · rename_i hdimensions
          cases h
          refine .inr ⟨name, given, by rw [Source.expr, hplain, Meaning.expr, hname], hgiven,
            hdimensions, congrArg (_ :: ·) ?_⟩
          exact List.ext_getElem (by simp) fun i _ _ => by simp
        · cases h
      · cases h
    · cases h

/-- Whatever a whole array is, there is a value for each of its length variables. -/
theorem storing_of_assignArray (h : scope.assignArray target shape source r = .ok as) :
    ∃ value lengths, lengths.length = shape.sizes.length ∧
      as = storing target value lengths r r.next := by
  rcases assignArray_cases h with ⟨_, _, _, lengths, stored, -, -, hlengths, -, rfl⟩ |
      ⟨name, given, -, -, -, rfl⟩
  · exact ⟨_, _, by rw [List.length_map, length_of_lengths hlengths], rfl⟩
  · exact ⟨_, _, by simp, rfl⟩

/-- A whole array is assigned to the **variable and then to its length variables**. -/
theorem refs_assignArray (h : scope.assignArray target shape source r = .ok as) :
    as.map (·.ref) = ((DataType.array shape).names target).map .ident := by
  obtain ⟨value, lengths, hlength, rfl⟩ := storing_of_assignArray h
  refine congrArg (_ :: ·) (List.ext_getElem ?_ fun i _ _ => by simp)
  simp [hlength, DataType.dimensions]

end Arrays

/-! ### Steps -/

variable {location text : String} {added : List Assignment}

/-- What an assignment to an **element** adds, and that it has an index for every dimension. -/
theorem assign_element {c : AccessChain} (h : scope.assign location text r = .ok added)
    (hlocation : Source.parseFor scope.event location = .ok c.toExpr) (hindexes : c.indexes ≠ []) :
    ∃ shape value, scope.types c.root = some (.array shape) ∧
      shape.sizes.length = c.indexes.length ∧ Source.parseFor scope.event text = .ok value ∧
      added = { ref := c.toExpr, value, index := r } :: c.widenLengths r.next := by
  obtain ⟨i, is, his⟩ := List.exists_cons_of_ne_nil hindexes
  simp only [assign, hlocation, bind, Except.bind, AccessChain.chain?_toExpr] at h
  split at h
  · cases h
  · rename_i hroot
    simp only [assignElement, bind, Except.bind, pure, Except.pure] at h
    split_ifs at h with hmany hfew
    · cases h
    · cases h
    · cases hvalue : Source.parseFor scope.event text with
      | error e => simp [hvalue] at h
      | ok value =>
        rw [hvalue] at h
        exact ⟨_, value, hroot, by omega, rfl, (Except.ok.inj h).symm⟩
  · cases h
  · simp_all
  · simp_all

/-- What a step can **assign**: a value to a variable that is no array, a whole array, or a value to
an element, after which the lengths are widened. -/
inductive Assigns (scope : Scope) (location text : String) (r : Rank) : List Assignment → Prop
  | scalar {x : String} {type : DataType} {value : Expr}
      (target : Source.parseFor scope.event location = .ok (.ident x))
      (typed : scope.types x = some type) (scalar : type.isArray = false)
      (read : Source.parseFor scope.event text = .ok value) :
      Assigns scope location text r [{ ref := .ident x, value, index := r }]
  | whole {x : String} {shape : ArrayShape} {source : Source} {added : List Assignment}
      (target : Source.parseFor scope.event location = .ok (.ident x))
      (typed : scope.types x = some (.array shape)) (read : Source.read text = .ok source)
      (assigned : scope.assignArray x shape source r = .ok added) :
      Assigns scope location text r added
  | element {c : AccessChain} {shape : ArrayShape} {value : Expr}
      (target : Source.parseFor scope.event location = .ok c.toExpr) (indexed : c.indexes ≠ [])
      (typed : scope.types c.root = some (.array shape))
      (dimensions : shape.sizes.length = c.indexes.length)
      (read : Source.parseFor scope.event text = .ok value) :
      Assigns scope location text r
        ({ ref := c.toExpr, value, index := r } :: c.widenLengths r.next)

/-- **A step that is accepted** assigns in one of these ways. -/
theorem assigns_of_assign (h : scope.assign location text r = .ok added) :
    scope.Assigns location text r added := by
  have hassign := h
  simp only [assign, Result.bind_eq_ok] at hassign
  obtain ⟨target, htarget, hassign⟩ := hassign
  split at hassign
  · cases hassign
  · rename_i c hc
    obtain rfl := Expr.toExpr_of_chain? hc
    -- without indexes the type of the variable decides; with indexes it has to be an array
    by_cases hindexes : c.indexes = []
    · obtain ⟨x, indexes⟩ := c
      subst hindexes
      simp only at hassign
      split at hassign
      · cases hassign
      · simp_all
      · simp_all
      · rename_i shape _ htype
        obtain ⟨source, hread, harray⟩ := Result.bind_eq_ok.1 hassign
        exact .whole htarget htype hread harray
      · rename_i type hscalar _ htype
        obtain ⟨value, hvalue, heq⟩ := Result.bind_eq_ok.1 hassign
        cases heq
        refine .scalar htarget htype ?_ hvalue
        cases type with
        | array shape => exact absurd rfl (hscalar shape)
        | _ => rfl
    · obtain ⟨shape, value, htype, hdimensions, hvalue, rfl⟩ := assign_element h htarget hindexes
      exact .element htarget hindexes htype hdimensions hvalue

/-- A step that is accepted assigns something. -/
theorem ne_nil_of_assign (h : scope.assign location text r = .ok added) : added ≠ [] := by
  cases assigns_of_assign h with
  | scalar | element => exact List.cons_ne_nil _ _
  | whole _ _ _ hassigned =>
    obtain ⟨value, lengths, -, rfl⟩ := storing_of_assignArray hassigned
    exact List.cons_ne_nil _ _

end Scope

end ChartNet
