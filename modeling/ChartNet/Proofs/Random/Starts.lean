import ChartNet.Proofs.History.Models
import ChartNet.Proofs.Random.Elimination

/-!
# Random initial values

A variable cannot start from a random value. Expanding the draws of a model checks this on its way:
first for the variables of the model, then for those of each automaton right before its draws are
expanded. So the expansion of a model with a random initial value always fails, but the automata in
front of the one that it fails for stay expanded (`Model.expandDraws_starts`). Its error quotes the
initial value; it is an error of the model if that has a text (`Expr.exists_print_iff`).
-/

namespace ChartNet

/-! ### Expressions with a text -/

/-- Whether an expression **has a text**: it has no implication and no array comprehension, and no
distribution but the one on `[0, 1]`. -/
def Expr.hasText : Expr → Bool
  | uniform l u => l == 0 && u == 1
  | unary _ a => a.hasText
  | binary op a b => op != .implies && a.hasText && b.hasText
  | ternary op a b c => op != .comprehension && a.hasText && b.hasText && c.hasText
  | quaternary _ a b c d => a.hasText && b.hasText && c.hasText && d.hasText
  | _ => true

/-- The operators that are written as calls can be printed with any operands. -/
@[simp] theorem Opcode.exists_printCall_iff {op : Opcode} {args : List String} :
    (∃ text, op.printCall args = .ok text) ↔ op.functionName?.isSome = true := by
  unfold printCall
  cases op.functionName? <;> simp [failUnsupported]

private theorem isSome_functionName? :
    (∀ op : UnaryOp, op ≠ .not → (Opcode.unary op).functionName?.isSome = true) ∧
      (∀ op : BinaryOp, op.infixForm? = none → op ≠ .access → op ≠ .implies →
        (Opcode.binary op).functionName?.isSome = true) ∧
      (∀ op : TernaryOp, op ≠ .ite → op ≠ .comprehension →
        (Opcode.ternary op).functionName?.isSome = true) ∧
      ∀ op : QuaternaryOp, (Opcode.quaternary op).functionName?.isSome = true := by
  refine ⟨?_, ?_, ?_, ?_⟩ <;> intro op <;> cases op <;> decide

/-- **What can be printed** is what has a text. -/
theorem Expr.exists_print_iff (e : Expr) : (∃ text, e.print = .ok text) ↔ e.hasText = true := by
  obtain ⟨hunary, hbinary, hternary, hquaternary⟩ := isSome_functionName?
  induction e with
  | ident n | lit v | array v => simp [print, hasText]
  | uniform l u =>
    rw [print, hasText]
    split <;> simp_all [failUnsupported]
  | unary op a iha =>
    rw [hasText, ← iha]
    by_cases hop : op = .not
    · subst hop
      simp only [print, Result.exists_bind_eq_ok, Result.exists_pure_eq_ok, and_true]
    · have hcall := hunary op hop
      simp only [print, Result.exists_bind_eq_ok, Opcode.exists_printCall_iff, hcall, and_true]
  | binary op a b iha ihb =>
    rw [hasText, Bool.and_eq_true, Bool.and_eq_true, ← iha, ← ihb, bne_iff_ne]
    cases hform : op.infixForm? with
    | some form =>
      have hop : op ≠ .implies := by
        rintro rfl
        cases hform
      simp only [print, hform, Result.exists_bind_eq_ok, Result.exists_pure_eq_ok, and_true,
        exists_and_right, hop, ne_eq, not_false_eq_true, true_and]
    | none =>
      by_cases haccess : op = .access
      · subst haccess
        simp only [print, hform, Result.exists_bind_eq_ok, Result.exists_pure_eq_ok, and_true,
          exists_and_right, ne_eq, reduceCtorEq, not_false_eq_true, true_and]
      · by_cases himplies : op = .implies
        · subst himplies
          simp [print, hform, failUnsupported]
        · have hcall := hbinary op hform haccess himplies
          simp only [print, hform, Result.exists_bind_eq_ok, Opcode.exists_printCall_iff, hcall,
            and_true, exists_and_right, himplies, ne_eq, not_false_eq_true, true_and]
  | ternary op a b c iha ihb ihc =>
    rw [hasText, Bool.and_eq_true, Bool.and_eq_true, Bool.and_eq_true, ← iha, ← ihb, ← ihc,
      bne_iff_ne]
    by_cases hite : op = .ite
    · subst hite
      simp only [print, Result.exists_bind_eq_ok, Result.exists_pure_eq_ok, and_true,
        exists_and_right, ne_eq, reduceCtorEq, not_false_eq_true, true_and, and_assoc]
    · by_cases hcomprehension : op = .comprehension
      · subst hcomprehension
        simp [print, failUnsupported]
      · have hcall := hternary op hite hcomprehension
        simp only [print, Result.exists_bind_eq_ok, Opcode.exists_printCall_iff, hcall, and_true,
          exists_and_right, hcomprehension, ne_eq, not_false_eq_true, true_and, and_assoc]
  | quaternary op a b c d iha ihb ihc ihd =>
    rw [hasText, Bool.and_eq_true, Bool.and_eq_true, Bool.and_eq_true, ← iha, ← ihb, ← ihc, ← ihd]
    simp only [print, Result.exists_bind_eq_ok, Opcode.exists_printCall_iff, hquaternary, and_true,
      exists_and_right, and_assoc]

/-! ### Checked variables -/

/-- An error is one of the **model**. -/
def CompileError.OfModel (e : CompileError) : Prop := ∃ fault, e.fault = .model fault

/-- A variable **starts from a random value**. -/
def Variable.StartsRandom (v : Variable) : Prop := v.init.isRandom = true

instance (v : Variable) : Decidable v.StartsRandom :=
  inferInstanceAs (Decidable (v.init.isRandom = true))

theorem Variable.checkInit_eq_ok {owner : Option String} {v : Variable} :
    v.checkInit owner = .ok () ↔ ¬ v.StartsRandom := by
  constructor
  · intro h
    exact Bool.eq_false_iff.1 (init_of_checkInit h)
  · intro h
    exact if_neg h

/-- The check of a variable fails with an error of the model if its initial value has a text. -/
theorem Variable.ofModel_of_checkInit {owner : Option String} {v : Variable} {e : CompileError}
    (h : v.checkInit owner = .error e) : v.StartsRandom ∧ (v.init.hasText = true → e.OfModel) := by
  unfold checkInit at h
  split at h <;> rename_i hrandom
  · refine ⟨hrandom, fun htext => ?_⟩
    obtain ⟨text, hprint⟩ := v.init.exists_print_iff.2 htext
    rw [hprint] at h
    cases h
    exact ⟨_, rfl⟩
  · cases h

/-- Variables are checked without an error if none starts from a random value. -/
theorem forM_checkInit_eq_ok {owner : Option String} {vars : List Variable} :
    vars.forM (·.checkInit owner) = .ok () ↔ ∀ v ∈ vars, ¬ v.StartsRandom := by
  simp only [Result.forM_eq_ok, Variable.checkInit_eq_ok]

theorem ofModel_of_forM_checkInit {owner : Option String} {vars : List Variable} {e : CompileError}
    (h : vars.forM (·.checkInit owner) = .error e)
    (htext : ∀ v ∈ vars, v.StartsRandom → v.init.hasText = true) : e.OfModel := by
  obtain ⟨v, hv, hfail⟩ := Result.exists_of_forM_eq_error h
  obtain ⟨hrandom, hmodel⟩ := Variable.ofModel_of_checkInit hfail
  exact hmodel (htext v hv hrandom)

/-! ### Expandable automata -/

/-- An edge with an action is **finished** if its random destinations have a location. -/
def Edge.Finished (e : Edge) : Prop :=
  e.action ≠ none → ∀ d ∈ e.destinations, d.IsRandom → d.location ≠ none

theorem Edge.exists_expandDestination_iff {n : Size} {e : Edge} {id : String} {k : Nat}
    {d : Destination} : (∃ part, e.expandDestination n id k d = .ok part) ↔
      (d.IsRandom → d.location ≠ none) := by
  simp only [expandDestination_eq_ok, Option.ne_none_iff_exists']
  by_cases hd : d.IsRandom <;> simp [hd]

/-- The only fault of an expansion is a destination without a location. -/
theorem Edge.ofModel_of_expandDestination {n : Size} {e : Edge} {id : String} {k : Nat}
    {d : Destination} {err : CompileError} (h : e.expandDestination n id k d = .error err) :
    err.OfModel := by
  unfold expandDestination at h
  split at h
  · rcases Result.bind_eq_error.1 h with htarget | ⟨_, -, hpure⟩
    · unfold targetOf at htarget
      split at htarget <;> cases htarget
      exact ⟨_, rfl⟩
    · cases hpure
  · cases h

theorem Edge.exists_expandDraws_iff {n : Size} {e : Edge} {id : String} :
    (∃ es, e.expandDraws n id = .ok es) ↔ e.Finished := by
  unfold Finished
  cases haction : e.action with
  | none => simp [expandDraws, haction]
  | some action =>
    simp only [expandDraws, haction, Result.exists_bind_eq_ok, Result.exists_pure_eq_ok, and_true,
      Result.exists_mapM_eq_ok, exists_expandDestination_iff, ne_eq, reduceCtorEq,
        not_false_eq_true,
      true_imp_iff]
    constructor
    · intro h d hd
      obtain ⟨k, hk⟩ := List.mem_iff_getElem?.1 hd
      exact h (d, k) (List.mk_mem_zipIdx_iff_getElem?.2 hk)
    · rintro h ⟨d, k⟩ hd
      exact h d (List.fst_mem_of_mem_zipIdx hd)

theorem Edge.ofModel_of_expandDraws {n : Size} {e : Edge} {id : String} {err : CompileError}
    (h : e.expandDraws n id = .error err) : err.OfModel := by
  unfold expandDraws at h
  split at h
  · cases h
  · rcases Result.bind_eq_error.1 h with hparts | ⟨_, -, hpure⟩
    · obtain ⟨_, -, hpart⟩ := Result.exists_of_mapM_eq_error hparts
      exact ofModel_of_expandDestination hpart
    · cases hpure

namespace Automaton

variable {n : Size} {a a' : Automaton} {e : CompileError}

theorem exists_expandDraws_iff : (∃ a', a.expandDraws n = .ok a') ↔ ∀ e ∈ a.edges, e.Finished := by
  simp only [expandDraws, Result.exists_bind_eq_ok, Result.exists_pure_eq_ok, and_true,
    Result.exists_mapM_eq_ok, Edge.exists_expandDraws_iff]
  constructor
  · intro h e he
    have hkeys : (a.edges.zip (edgeIds a.edges)).map Prod.fst = a.edges :=
      List.map_fst_zip (by simp [edgeIds, numberRepeated])
    rw [← hkeys] at he
    obtain ⟨p, hp, rfl⟩ := List.mem_map.1 he
    exact h p hp
  · rintro h ⟨e, id⟩ he
    exact h e (List.of_mem_zip he).1

theorem ofModel_of_expandDraws (h : a.expandDraws n = .error e) : e.OfModel := by
  rcases Result.bind_eq_error.1 h with hedges | ⟨_, -, hpure⟩
  · obtain ⟨_, -, hedge⟩ := Result.exists_of_mapM_eq_error hedges
    exact Edge.ofModel_of_expandDraws hedge
  · cases hpure

/-- An automaton is **rewritten** if its draws were moved to edges of their own. Afterwards an edge
assigns random values only if it was there before and has no action. -/
structure RewrittenTo (n : Size) (a a' : Automaton) : Prop where
  draws : a.expandDraws n = .ok a'
  edges : ∀ e ∈ a'.edges, e.Drawn ∨ e.action = none ∧ e ∈ a.edges

theorem rewrittenTo_of_expandDraws (h : a.expandDraws n = .ok a') : a.RewrittenTo n a' where
  draws := h
  edges e' he' := by
    obtain ⟨e, he, id, es, hes, hmem⟩ := exists_of_mem_expandDraws h he'
    cases haction : e.action with
    | none =>
      rw [Edge.expandDraws, haction] at hes
      cases hes
      obtain rfl := List.mem_singleton.1 hmem
      exact .inr ⟨haction, he⟩
    | some action => exact .inl (Edge.drawn_expandDraws (by simp [haction]) hes e' hmem)

/-- An automaton is **ready** to be expanded if none of its variables starts from a random value and
its edges are finished. -/
structure Ready (a : Automaton) : Prop where
  inits : ∀ v ∈ a.vars, ¬ v.StartsRandom
  edges : ∀ e ∈ a.edges, e.Finished

theorem exists_expandsTo_iff : (∃ a', a.ExpandsTo n a') ↔ a.Ready := by
  constructor
  · rintro ⟨a', h⟩
    exact ⟨forM_checkInit_eq_ok.1 h.inits, exists_expandDraws_iff.1 ⟨a', h.draws⟩⟩
  · intro h
    obtain ⟨a', ha'⟩ := exists_expandDraws_iff.2 h.edges
    exact ⟨a', forM_checkInit_eq_ok.2 h.inits, ha'⟩

/-- An automaton is **stuck** with an error if its check or its expansion fails with it. -/
def StuckWith (n : Size) (a : Automaton) (e : CompileError) : Prop :=
  a.vars.forM (·.checkInit (some a.name)) = .error e ∨
    a.vars.forM (·.checkInit (some a.name)) = .ok () ∧ a.expandDraws n = .error e

theorem exists_stuckWith_iff : (∃ e, a.StuckWith n e) ↔ ¬ a.Ready := by
  rw [← exists_expandsTo_iff (n := n)]
  constructor
  · rintro ⟨e, hinits | ⟨-, hdraws⟩⟩ ⟨a', h⟩
    · cases hinits.symm.trans h.inits
    · cases hdraws.symm.trans h.draws
  · intro h
    by_cases hinits : a.vars.forM (·.checkInit (some a.name)) = .ok ()
    · have hdraws : ¬ ∃ a', a.expandDraws n = .ok a' := fun ⟨a', ha'⟩ => h ⟨a', hinits, ha'⟩
      obtain ⟨e, he⟩ := Result.exists_error_iff.2 hdraws
      exact ⟨e, .inr ⟨hinits, he⟩⟩
    · obtain ⟨e, he⟩ := Result.exists_error_iff.2 fun ⟨u, hu⟩ => hinits hu
      exact ⟨e, .inl he⟩

theorem StuckWith.ofModel (h : a.StuckWith n e)
    (htext : ∀ v ∈ a.vars, v.StartsRandom → v.init.hasText = true) : e.OfModel := by
  rcases h with hinits | ⟨-, hdraws⟩
  · exact ofModel_of_forM_checkInit hinits htext
  · exact ofModel_of_expandDraws hdraws

end Automaton

/-! ### Expanded models -/

/-- Among the entries without a property there is a first one. -/
theorem exists_first_of_mem {α : Type} {P : α → Prop} {l : List α} {a : α} (ha : a ∈ l)
    (hP : ¬ P a) : ∃ before b after, l = before ++ b :: after ∧ (∀ c ∈ before, P c) ∧ ¬ P b := by
  classical
  have hfound : (l.find? fun c => decide (¬ P c)).isSome :=
    List.find?_isSome.2 ⟨a, ha, decide_eq_true hP⟩
  obtain ⟨b, hb⟩ := Option.isSome_iff_exists.1 hfound
  obtain ⟨hPb, before, after, hl, hbefore⟩ := List.find?_eq_some_iff_append.1 hb
  exact ⟨before, b, after, hl, fun c hc => by simpa using hbefore c hc, of_decide_eq_true hPb⟩

namespace Model

variable {n : Size} {m m' : Model} {e : CompileError}

/-- **Expanding automata fails at the first one that is stuck.** Those before it are expanded, the
others are as they were. -/
theorem fails_expandAutomata (todo : List Automaton) {done : List Automaton}
    (hm : m.automata = done ++ todo) (hnodup : m.names.Nodup) :
    (expandAutomata n todo).Fails m e m' ↔ ∃ before a after expanded, todo = before ++ a :: after ∧
      List.Forall₂ (Automaton.ExpandsTo n) before expanded ∧ a.StuckWith n e ∧
      m' = { m with automata := done ++ expanded ++ a :: after } := by
  induction todo generalizing m done with
  | nil => simp [expandAutomata]
  | cons a todo ih =>
    simp only [expandAutomata, Build.fails_bind, Build.fails_ofResult, Build.yields_ofResult,
      Build.yields_modify, Build.fails_modify, false_or]
    constructor
    · rintro (⟨hinits, rfl⟩ | ⟨_, _, ⟨hinits, rfl⟩,
        ⟨hdraws, rfl⟩ | ⟨a', _, ⟨hdraws, rfl⟩, _, _, rfl, hrest⟩⟩)
      · exact ⟨[], a, todo, [], rfl, .nil, .inl hinits, by simp [← hm]⟩
      · exact ⟨[], a, todo, [], rfl, .nil, .inr ⟨hinits, hdraws⟩, by simp [← hm]⟩
      · obtain ⟨heq, hnodup'⟩ := replaceAutomaton_of_expandDraws hm hnodup hdraws
        rw [heq] at hrest
        obtain ⟨before, b, after, expanded, rfl, hexpanded, hstuck, rfl⟩ := (ih rfl hnodup').1 hrest
        exact ⟨a :: before, b, after, a' :: expanded, rfl, .cons ⟨hinits, hdraws⟩ hexpanded, hstuck,
          by simp⟩
    · rintro ⟨before, b, after, expanded, heq, hexpanded, hstuck, rfl⟩
      cases hexpanded with
      | nil =>
        obtain ⟨rfl, rfl⟩ := List.cons.inj heq
        have hself : ({ m with automata := done ++ [] ++ a :: todo } : Model) = m := by simp [← hm]
        rcases hstuck with hinits | ⟨hinits, hdraws⟩
        · exact .inl ⟨hinits, hself⟩
        · exact .inr ⟨(), m, ⟨hinits, rfl⟩, .inl ⟨hdraws, hself⟩⟩
      | cons h hexpanded =>
        obtain ⟨rfl, rfl⟩ := List.cons.inj heq
        obtain ⟨hreplaced, hnodup'⟩ := replaceAutomaton_of_expandDraws hm hnodup h.draws
        refine .inr ⟨(), m, ⟨h.inits, rfl⟩, .inr ⟨_, m, ⟨h.draws, rfl⟩, (), _, rfl, ?_⟩⟩
        rw [hreplaced]
        exact (ih rfl hnodup').2 ⟨_, b, after, _, rfl, hexpanded, hstuck, by simp⟩

/-- Completing a composition leaves the automata as they are. -/
theorem automata_after_completeComposition (m : Model) :
    (completeComposition.after m).automata = m.automata := by
  have hkeeps : Build.Preserves (fun m' : Model => m'.automata = m.automata) m
      (completeComposition.after m) :=
    related_completeComposition (fun _ _ _ _ _ _ _ h => h) m
  exact hkeeps rfl

theorem expandDraws_of_isPositive (hn : n.isPositive = true) : expandDraws n = (do
    let m ← get
    .ofResult (m.vars.forM (·.checkInit none))
    expandAutomata n m.automata
    if m.composition.isSome then completeComposition) := by
  simp only [expandDraws, hn, Bool.not_true, Bool.false_eq_true, if_false]

private theorem yields_read (m : Model) : (get : ModelM Model).Yields m m m :=
  Build.yields_get.2 ⟨rfl, rfl⟩

private theorem yields_checked (hvars : ∀ v ∈ m.vars, ¬ v.StartsRandom) :
    Build.Yields (.ofResult (m.vars.forM (·.checkInit none))) m () m :=
  Build.yields_ofResult.2 ⟨forM_checkInit_eq_ok.2 hvars, rfl⟩

/-- **A global variable that starts from a random value** stops the expansion before it begins. -/
theorem fails_expandDraws_of_global (hn : n.isPositive = true) (h : ∃ v ∈ m.vars, v.StartsRandom) :
    ∃ e, (expandDraws n).Fails m e m ∧
      ((∀ v ∈ m.vars, v.StartsRandom → v.init.hasText = true) → e.OfModel) := by
  have hfails : ¬ ∃ u, m.vars.forM (·.checkInit none) = .ok u := by
    rintro ⟨_, hok⟩
    obtain ⟨v, hv, hrandom⟩ := h
    exact forM_checkInit_eq_ok.1 hok v hv hrandom
  obtain ⟨e, he⟩ := Result.exists_error_iff.2 hfails
  refine ⟨e, ?_, ofModel_of_forM_checkInit he⟩
  rw [expandDraws_of_isPositive hn]
  exact Build.fails_bind.2 (.inr ⟨m, m, yields_read m,
    Build.fails_bind.2 (.inl (Build.fails_ofResult.2 ⟨he, rfl⟩))⟩)

/-- **An automaton that is not ready** stops the expansion behind the automata before it. -/
theorem fails_expandDraws_of_automaton (hn : n.isPositive = true) (hnodup : m.names.Nodup)
    (hvars : ∀ v ∈ m.vars, ¬ v.StartsRandom) {before after : List Automaton} {a : Automaton}
    (hm : m.automata = before ++ a :: after) (hbefore : ∀ b ∈ before, b.Ready) (ha : ¬ a.Ready) :
    ∃ e rewritten, List.Forall₂ (Automaton.RewrittenTo n) before rewritten ∧
      (expandDraws n).Fails m e { m with automata := rewritten ++ a :: after } ∧
      ((∀ v ∈ a.vars, v.StartsRandom → v.init.hasText = true) → e.OfModel) := by
  obtain ⟨e, he⟩ := Automaton.exists_stuckWith_iff.2 ha
  obtain ⟨rewritten, hrewritten⟩ :=
    exists_forall₂_iff.2 fun b hb => (Automaton.exists_expandsTo_iff (n := n)).2 (hbefore b hb)
  have hfails := (fails_expandAutomata (e := e) m.automata (List.nil_append _).symm hnodup).2
    ⟨before, a, after, rewritten, hm, hrewritten, he, rfl⟩
  refine ⟨e, rewritten, hrewritten.imp fun _ _ h => Automaton.rewrittenTo_of_expandDraws h.draws,
    ?_, he.ofModel⟩
  rw [expandDraws_of_isPositive hn]
  exact Build.fails_bind.2 (.inr ⟨m, m, yields_read m, Build.fails_bind.2
    (.inr ⟨(), m, yields_checked hvars, Build.fails_bind.2 (.inl hfails)⟩)⟩)

/-- **If all automata are ready**, all of them are rewritten, whatever becomes of the
composition. -/
theorem rewritten_after_expandDraws (hn : n.isPositive = true) (hnodup : m.names.Nodup)
    (hvars : ∀ v ∈ m.vars, ¬ v.StartsRandom) (hready : ∀ a ∈ m.automata, a.Ready) :
    List.Forall₂ (Automaton.RewrittenTo n) m.automata ((expandDraws n).after m).automata := by
  obtain ⟨expanded, hexpanded⟩ :=
    exists_forall₂_iff.2 fun a ha => (Automaton.exists_expandsTo_iff (n := n)).2 (hready a ha)
  have hyields :=
    (yields_expandAutomata (n := n) (u := ()) m.automata (List.nil_append _).symm hnodup).2
    ⟨expanded, hexpanded, rfl⟩
  have hafter : ((expandDraws n).after m).automata = expanded := by
    rw [expandDraws_of_isPositive hn, (yields_read m).after_bind, (yields_checked hvars).after_bind,
      hyields.after_bind]
    split
    · rw [automata_after_completeComposition]
      rfl
    · rfl
  rw [hafter]
  exact hexpanded.imp fun _ _ h => Automaton.rewrittenTo_of_expandDraws h.draws

/-- The variables of a model and of its automata. -/
def allVars (m : Model) : List Variable := m.vars ++ m.automata.flatMap (·.vars)

/-- **Models with random initial values are rejected**, by an error of the model if these values
have a text. A random initial value of the model leaves it as it was. Otherwise the automata in
front of the first one that is not ready, because one of its variables starts from a random value or
because it would have to go on from a draw without a location, are rewritten, and the others are as
they were. If all are ready, all are rewritten. -/
theorem expandDraws_starts (hn : n.isPositive = true) (hnodup : m.names.Nodup) :
    ((∃ v ∈ m.allVars, v.StartsRandom) → ∃ e m', (expandDraws n).Fails m e m' ∧
      ((∀ v ∈ m.allVars, v.StartsRandom → v.init.hasText = true) → e.OfModel)) ∧
    ((∃ v ∈ m.vars, v.StartsRandom) → (expandDraws n).after m = m) ∧
    ((∀ v ∈ m.vars, ¬ v.StartsRandom) →
      (∀ before a after, m.automata = before ++ a :: after → (∀ b ∈ before, b.Ready) → ¬ a.Ready →
        ∃ e rewritten, List.Forall₂ (Automaton.RewrittenTo n) before rewritten ∧
          (expandDraws n).Fails m e { m with automata := rewritten ++ a :: after } ∧
          ((∀ v ∈ a.vars, v.StartsRandom → v.init.hasText = true) → e.OfModel)) ∧
      ((∀ a ∈ m.automata, a.Ready) →
        List.Forall₂ (Automaton.RewrittenTo n) m.automata ((expandDraws n).after m).automata)) := by
  refine ⟨fun h => ?_, fun h => ?_, fun hvars => ⟨fun before a after hm hbefore ha =>
    fails_expandDraws_of_automaton hn hnodup hvars hm hbefore ha,
    rewritten_after_expandDraws hn hnodup hvars⟩⟩
  · by_cases hglobal : ∃ v ∈ m.vars, v.StartsRandom
    · obtain ⟨e, hfails, hmodel⟩ := fails_expandDraws_of_global (n := n) hn hglobal
      exact ⟨e, m, hfails, fun htext => hmodel fun v hv => htext v (List.mem_append_left _ hv)⟩
    · obtain ⟨v, hv, hrandom⟩ := h
      have hvars : ∀ v ∈ m.vars, ¬ v.StartsRandom := fun v hv hrandom => hglobal ⟨v, hv, hrandom⟩
      have hlocal := (List.mem_append.1 hv).resolve_left fun hv => hvars v hv hrandom
      obtain ⟨a, ha, hav⟩ := List.mem_flatMap.1 hlocal
      obtain ⟨before, b, after, hm, hbefore, hb⟩ :=
        exists_first_of_mem ha fun hready : a.Ready => hready.inits v hav hrandom
      obtain ⟨e, _, -, hfails, hmodel⟩ :=
        fails_expandDraws_of_automaton hn hnodup hvars hm hbefore hb
      refine ⟨e, _, hfails, fun htext => hmodel fun w hw => htext w (List.mem_append_right _ ?_)⟩
      exact List.mem_flatMap.2 ⟨b, by simp [hm], hw⟩
  · obtain ⟨e, hfails, -⟩ := fails_expandDraws_of_global (n := n) hn h
    exact hfails.after_eq

/-- A robot that starts from a random value, behind one that is rewritten. -/
theorem expandDraws_starts_of_late_start :
    let step : Edge :=
      { location := "idle", action := some "step"
        destinations := [{ location := some "busy"
                           assignments := [{ ref := .ident "x", value := .uniform 0 1 }] }] }
    let left : Automaton := { name := "left", edges := [step] }
    let right : Automaton :=
      { name := "right", vars := [{ name := "y", type := .real, init := .uniform 0 1 }] }
    let m : Model := { name := "network", automata := [left, right] }
    (Size.whole 2).isPositive = true ∧ m.names.Nodup ∧ (∃ v ∈ m.allVars, v.StartsRandom) ∧
      ∃ e rewritten, left.RewrittenTo (.whole 2) rewritten ∧
        (expandDraws (.whole 2)).Fails m e { m with automata := [rewritten, right] } ∧
        e.OfModel := by
  intro step left right m
  have hn : (Size.whole 2).isPositive = true := by decide
  have hnodup : m.names.Nodup := by decide
  have hstarts : ∃ v ∈ m.allVars, v.StartsRandom := by decide
  have hleft : left.Ready := ⟨by simp [left], by simp [left, step, Edge.Finished]⟩
  have hright : ¬ right.Ready := fun h => h.inits _ (List.mem_singleton_self _) rfl
  obtain ⟨-, -, hautomata⟩ := expandDraws_starts hn hnodup
  obtain ⟨e, _, hrewritten, hfails, hmodel⟩ :=
    (hautomata (by simp [m])).1 [left] right [] rfl (List.forall_mem_singleton.2 hleft) hright
  obtain ⟨rewritten, hleft', rfl⟩ :
      ∃ rewritten, left.RewrittenTo (.whole 2) rewritten ∧ _ = [rewritten] := by
    simpa [List.forall₂_cons_left_iff] using hrewritten
  exact ⟨hn, hnodup, hstarts, e, rewritten, hleft', hfails,
    hmodel (List.forall_mem_singleton.2 fun _ => by decide +kernel)⟩

/-- **A random initial value need not leave all edges alone, nor be an error of the model**: the
robots before it are rewritten, and a distribution on `[0, 2]` has no text. -/
theorem expandDraws_starts_rewritten_or_unsupported :
    let step : Edge :=
      { location := "idle", action := some "step"
        destinations := [{ location := some "busy"
                           assignments := [{ ref := .ident "x", value := .uniform 0 1 }] }] }
    let left : Automaton := { name := "left", edges := [step] }
    let right : Automaton :=
      { name := "right", vars := [{ name := "y", type := .real, init := .uniform 0 1 }] }
    let late : Model := { name := "network", automata := [left, right] }
    let textless : Model :=
      { name := "network", vars := [{ name := "x", type := .real, init := .uniform 0 2 }] }
    ((∃ v ∈ late.allVars, v.StartsRandom) ∧ (expandDraws (.whole 1)).succeeds late = false ∧
      ((expandDraws (.whole 1)).after late).automata.map (·.edges.length) = [3, 0]) ∧
    (∃ v ∈ textless.allVars, v.StartsRandom) ∧
      ∃ e, (expandDraws (.whole 1)).Fails textless e textless ∧ ¬ e.OfModel := by
  intro step left right late textless
  refine ⟨⟨by decide, by decide +kernel, by decide +kernel⟩, by decide,
    { fault := .unsupported (.uniformText 0 2) }, rfl, ?_⟩
  rintro ⟨fault, hfault⟩
  cases hfault

end Model

end ChartNet
