import ChartNet.Proofs.Expr.Evaluation
import ChartNet.Proofs.Macro.NormalForm
import ChartNet.Proofs.Source.Written

/-!
# The shape of an expression that was read

The expressions that texts mean are far from arbitrary. An array value is the whole expression or
does not occur, accesses start from a name, the only distribution is the uniform one on `[0, 1]`,
and the robots and barriers of macros are names (`Expr.Standard`). This follows from what can be
written at all, by induction on `Expr.Written`.

So the expansion of such an expression finds a name wherever it asks for one, and whatever goes
wrong in it is a matter of the constants (`Source.standard_of_parse`).
-/

namespace ChartNet

namespace Expr

/-! ### Nodes and operands -/

/-- An expression contains itself and what its operands contain. -/
theorem contains_iff {e p : Expr} : e.Contains p ↔ p = e ∨ ∃ a ∈ e.operands, a.Contains p := by
  cases e with
  | ident _ | lit _ | uniform _ _ | array _ => simp [Contains, any, operands, @eq_comm Expr p]
  | unary op a => simp [contains_unary, operands]
  | binary op a b => simp [contains_binary, operands]
  | ternary op a b c => simp [contains_ternary, operands]
  | quaternary op a b c d => simp [contains_quaternary, operands]

/-- The operands of a function are its arguments. -/
theorem operands_of_call {op : Opcode} {args : List Expr} {e : Expr} (h : op.apply? args = some e) :
    e.operands = args := by
  unfold Opcode.apply? at h
  split at h <;> cases h <;> rfl

/-- The **names that are values**: all names in an expression but those from which accesses
start. -/
def valueNames : Expr → List String
  | ident n => [n]
  | lit _ | uniform _ _ | array _ => []
  | unary _ a => a.valueNames
  | binary op a b => (if op = .access ∧ a.isIdent then [] else a.valueNames) ++ b.valueNames
  | ternary _ a b c => a.valueNames ++ b.valueNames ++ c.valueNames
  | quaternary _ a b c d => a.valueNames ++ b.valueNames ++ c.valueNames ++ d.valueNames

/-- The names in an operator other than an access are those in its operands. -/
theorem mem_valueNames_of_chain? {e : Expr} (he : e.chain? = none) {n : String}
    (hn : n ∈ e.valueNames) : ∃ a ∈ e.operands, n ∈ a.valueNames := by
  cases e with
  | ident _ => cases he
  | lit _ | uniform _ _ | array _ => simp [valueNames] at hn
  | unary op a => exact ⟨a, by simp [operands], hn⟩
  | binary op a b =>
    rw [valueNames, List.mem_append] at hn
    rcases hn with hn | hn
    · split at hn
      · exact absurd hn List.not_mem_nil
      · exact ⟨a, by simp [operands], hn⟩
    · exact ⟨b, by simp [operands], hn⟩
  | ternary op a b c => simpa [valueNames, operands, or_assoc] using hn
  | quaternary op a b c d => simpa [valueNames, operands, or_assoc] using hn

/-! ### Standard expressions -/

/-- A node has the **standard form**: what an access starts from is a name or another access, robots
and barriers are names, distributions are uniform on `[0, 1]`, and there is no implication and no
array that is built element by element. -/
def StandardNode : Expr → Prop
  | uniform l u => l = 0 ∧ u = 1
  | binary .access a _ => (∃ x, a = ident x) ∨ ∃ b i, a = access b i
  | binary .implies _ _ => False
  | binary .intersect a b | binary .distance a b =>
    (∃ robot, a = ident robot) ∧ ∃ barrier, b = ident barrier
  | ternary .comprehension _ _ _ => False
  | ternary .distanceToPoint a _ _ => ∃ robot, a = ident robot
  | _ => True

/-- An expression is **standard** if its nodes are, if array values are whole expressions only, and
if no name that is a value is a constant or one of the words that are no values. The operands of an
operator have the roles of its entry in the operator table. (That an array value has one kind for
its numbers at all levels is in the type of array values.) -/
structure Standard (e : Expr) : Prop where
  node : ∀ p, e.Contains p → p.StandardNode
  array : ∀ v, e.Contains (array v) → e = .array v
  names : ∀ n ∈ e.valueNames, n ∉ ["True", "False", "undefined", "null", "Math.E", "Math.PI"]
  roles : ∀ p, e.Contains p → ∀ op, p.opcode? = some op →
    ∃ members, p.toJson = .obj (("op", .str op.code) :: members) ∧ members.map (·.1) = op.roles

/-- The JSON form of an operator has its opcode and then its operands by role. -/
theorem exists_members_of_opcode? {p : Expr} {op : Opcode} (h : p.opcode? = some op) :
    ∃ members, p.toJson = .obj (("op", .str op.code) :: members) ∧
      members.map (·.1) = op.roles := by
  cases p <;> cases h <;> exact ⟨_, rfl, rfl⟩

/-- What functions stand for: no access, no implication and no comprehension, and where an operator
has robots or barriers the function takes names for them. -/
private theorem standard_functions : ∀ f ∈ functions, f.op ≠ .binary .access ∧
    f.op ≠ .binary .implies ∧ f.op ≠ .ternary .comprehension ∧
    (f.op = .binary .intersect ∨ f.op = .binary .distance → f.nameRoles = ["robot", "barrier"]) ∧
    (f.op = .ternary .distanceToPoint → f.nameRoles = ["robot"]) := by
  decide

private theorem exists_of_isIdent {e : Expr} (h : e.isIdent = true) : ∃ x, e = ident x := by
  cases e with
  | ident x => exact ⟨x, rfl⟩
  | _ => cases h

/-- The call of a function is a standard node. -/
private theorem standardNode_of_call {f : Function} {args : List Expr} {e : Expr}
    (hf : f ∈ functions) (happly : f.op.apply? args = some e)
    (hnames : ∀ p ∈ f.op.roles.zip args, p.1 ∈ f.nameRoles → p.2.isIdent = true) :
    e.StandardNode := by
  obtain ⟨haccess, himplies, hcomprehension, hwalls, hpoint⟩ := standard_functions f hf
  unfold Opcode.apply? at happly
  split at happly <;> cases happly
  · trivial
  · rename_i op a b hop
    cases op with
    | access => exact absurd hop haccess
    | implies => exact absurd hop himplies
    | intersect =>
      rw [hop, hwalls (.inl hop)] at hnames
      exact ⟨exists_of_isIdent
        (hnames ("robot", a) (by simp [Opcode.roles, BinaryOp.roles]) (by simp)),
        exists_of_isIdent (hnames ("barrier", b)
          (by simp [Opcode.roles, BinaryOp.roles]) (by simp))⟩
    | distance =>
      rw [hop, hwalls (.inr hop)] at hnames
      exact ⟨exists_of_isIdent
        (hnames ("robot", a) (by simp [Opcode.roles, BinaryOp.roles]) (by simp)),
        exists_of_isIdent (hnames ("barrier", b)
          (by simp [Opcode.roles, BinaryOp.roles]) (by simp))⟩
    | _ => trivial
  · rename_i op a b c hop
    cases op with
    | comprehension => exact absurd hop hcomprehension
    | distanceToPoint =>
      rw [hop, hpoint hop] at hnames
      exact exists_of_isIdent
        (hnames ("robot", a) (by simp [Opcode.roles, TernaryOp.roles]) (by simp))
    | ite => trivial
  · trivial

/-! ### Written expressions are standard -/

/-- The nodes of a written expression are standard, and none of them is an array value. -/
private theorem Written.standardNode {use : Use} {e : Expr} (h : e.Written use) :
    ∀ p, e.Contains p → p.StandardNode ∧ ∀ v, p ≠ array v := by
  -- a node is the root, where the rule says what it is, or stands in an operand
  have hnode : ∀ {e : Expr}, e.StandardNode → (∀ v, e ≠ array v) →
      (∀ a ∈ e.operands, ∀ p, a.Contains p → p.StandardNode ∧ ∀ v, p ≠ array v) →
      ∀ p, e.Contains p → p.StandardNode ∧ ∀ v, p ≠ array v := by
    intro e hroot hwhole hoperands p hp
    rcases contains_iff.1 hp with rfl | ⟨a, ha, hp⟩
    · exact ⟨hroot, hwhole⟩
    · exact hoperands a ha p hp
  induction h with
  | path _ | name _ _ | literal _ => exact hnode trivial (by simp) (by simp [operands])
  | random => exact hnode ⟨rfl, rfl⟩ (by simp) (by simp [operands])
  | @access _ a i ha hi iha ihi =>
    refine hnode ?_ (by simp [Expr.access]) (by simpa [Expr.access, operands] using ⟨iha, ihi⟩)
    cases ha with
    | path _ => exact .inl ⟨_, rfl⟩
    | access _ _ => exact .inr ⟨_, _, rfl⟩
  | negation ha iha =>
    exact hnode trivial (by simp [Expr.not]) (by simpa [Expr.not, operands] using iha)
  | @operator op _ _ a b hop ha hb iha ihb =>
    refine hnode ?_ (by simp) (by simpa [operands] using ⟨iha, ihb⟩)
    cases op <;> first | exact trivial | cases hop
  | @call f args e hf happly hnames hargs ihargs =>
    refine hnode (standardNode_of_call hf happly hnames) ?_ (operands_of_call happly ▸ ihargs)
    rintro v rfl
    exact apply?_ne_array _ _ _ happly
  | conditional ht ha hb iht iha ihb =>
    exact hnode trivial (by simp [Expr.ite]) (by simpa [Expr.ite, operands] using ⟨iht, iha, ihb⟩)

/-- The names in a written expression are names of values, unless it is a path of one name. -/
private theorem Written.isValueName {use : Use} {e : Expr} (h : e.Written use)
    (hvalue : use = .value ∨ e.isIdent = false) : ∀ n ∈ e.valueNames, IsValueName n := by
  induction h with
  | path _ => rcases hvalue with hvalue | hvalue <;> cases hvalue
  | name _ hname => exact List.forall_mem_singleton.2 hname
  | literal _ | random => simp [valueNames]
  | @access _ a i ha hi iha ihi =>
    intro n hn
    rw [Expr.access, valueNames, List.mem_append] at hn
    rcases hn with hn | hn
    · split at hn
      · exact absurd hn List.not_mem_nil
      · rename_i hident
        exact iha (.inr (by simpa using hident)) n hn
    · exact ihi (.inl rfl) n hn
  | negation ha iha => exact iha (.inl rfl)
  | @operator op _ _ a b hop ha hb iha ihb =>
    have haccess : op ≠ .access := by
      rintro rfl
      cases hop
    intro n hn
    simp only [valueNames, haccess, false_and, if_false, List.mem_append] at hn
    exact hn.elim (iha (.inl rfl) n) (ihb (.inl rfl) n)
  | @call f args e hf happly hnames hargs ihargs =>
    intro n hn
    obtain ⟨a, ha, hn⟩ := mem_valueNames_of_chain? (chain?_of_apply hf happly) hn
    rw [operands_of_call happly] at ha
    exact ihargs a ha (.inl rfl) n hn
  | conditional ht ha hb iht iha ihb =>
    intro n hn
    simp only [Expr.ite, valueNames, List.mem_append] at hn
    exact hn.elim (·.elim (iht (.inl rfl) n) (iha (.inl rfl) n)) (ihb (.inl rfl) n)

/-- A name of a value is none of the words that are not. -/
private theorem not_mem_of_isValueName {n : String} (h : IsValueName n) :
    n ∉ ["True", "False", "undefined", "null", "Math.E", "Math.PI"] := by
  have hwords : ∀ w ∈ ["True", "False", "undefined", "null", "Math.E", "Math.PI"],
      NamedConstant.ofName? w ≠ none ∨ rejectedNames.contains w = true := by decide
  intro hn
  rcases hwords n hn with hconstant | hrejected
  · exact hconstant h.1
  · exact Bool.false_ne_true (h.2.symm.trans hrejected)

/-- **What can be written as a value is standard.** -/
theorem Written.standard {e : Expr} (h : e.Written .value) : e.Standard where
  node p hp := (h.standardNode p hp).1
  array v hv := absurd rfl ((h.standardNode _ hv).2 v)
  names n hn := not_mem_of_isValueName (h.isValueName (.inl rfl) n hn)
  roles _ _ _ := exists_members_of_opcode?

/-- An array value by itself is standard. -/
theorem standard_array (v : ArrayValue) : (Expr.array v).Standard where
  node p hp := by
    obtain rfl : p = .array v := by simpa [operands] using contains_iff.1 hp
    trivial
  array w hw := by
    have h : Expr.array w = .array v := by simpa [operands] using contains_iff.1 hw
    exact h.symm
  names n hn := absurd hn List.not_mem_nil
  roles _ _ _ := exists_members_of_opcode?

end Expr

/-! ### Expanding standard expressions -/

/-- A result is **configured** if it can fail only with a fault of constants or settings. -/
def Result.Configured {α : Type} (r : Result α) : Prop :=
  ∀ err, r = .error err → ∃ fault, err.fault = .configuration fault

namespace Result.Configured

variable {α β : Type}

theorem ok (a : α) : Configured (.ok a) := by
  rintro err ⟨⟩

theorem failConfig (fault : ConfigFault) : Configured (ChartNet.failConfig (α := α) fault) := by
  rintro err ⟨⟩
  exact ⟨fault, rfl⟩

theorem bind {r : Result α} {f : α → Result β} (hr : r.Configured) (hf : ∀ a, (f a).Configured) :
    (r >>= f).Configured := by
  cases r with
  | ok a => exact hf a
  | error e =>
    rintro err ⟨⟩
    exact hr _ rfl

end Result.Configured

namespace Macro

theorem Barrier.configured_ofName (name : String) : (Barrier.ofName name).Configured := by
  unfold Barrier.ofName
  split
  · exact .ok _
  · split
    · exact .ok _
    · split
      · exact .ok _
      · exact .failConfig _

theorem configured_boundariesOf (constants : Constants) : (boundariesOf constants).Configured := by
  unfold boundariesOf boundaryCount
  split
  · exact .failConfig _
  · split
    · split
      · exact .ok _
      · exact .failConfig _
    · exact .failConfig _

/-- A macro that meets the walls, of a robot and a barrier that are names. -/
private theorem configured_walls (constants : Constants) (op robot barrier : String)
    (f : String → Barrier → Nat → Expr) :
    Result.Configured (do
      let r ← nameOperand "robot" op (.ident robot)
      let b ← Barrier.ofName (← nameOperand "barrier" op (.ident barrier))
      return f r b (← boundariesOf constants)) :=
  .bind (.ok robot) fun r => .bind (.ok barrier) fun name =>
    .bind (Barrier.configured_ofName name) fun b =>
      .bind (configured_boundariesOf constants) fun n => .ok (f r b n)

end Macro

namespace Expr

open Macro

/-- The expansion of an expression with standard nodes fails only for its **configuration**. -/
theorem configured_expand (constants : Constants) {e : Expr}
    (h : ∀ p, e.Contains p → p.StandardNode) : (e.expand constants).Configured := by
  induction e with
  | ident _ | lit _ | uniform _ _ | array _ => exact .ok _
  | unary op a iha =>
    exact .bind (iha fun p hp => h p (contains_unary.2 (.inr hp))) fun _ => .ok _
  | binary op a b iha ihb =>
    -- the node is standard, so a macro finds names where it wants them
    have hnode := h _ (.refl _)
    have ha := iha fun p hp => h p (contains_binary.2 (.inr (.inl hp)))
    have hb := ihb fun p hp => h p (contains_binary.2 (.inr (.inr hp)))
    unfold expand
    split
    · obtain ⟨⟨robot, rfl⟩, barrier, rfl⟩ := hnode
      exact configured_walls constants _ robot barrier intersect
    · obtain ⟨⟨robot, rfl⟩, barrier, rfl⟩ := hnode
      exact configured_walls constants _ robot barrier distance
    · exact .bind ha fun _ => .bind hb fun _ => .ok _
  | ternary op a b c iha ihb ihc =>
    have hnode := h _ (.refl _)
    have ha := iha fun p hp => h p (contains_ternary.2 (.inr (.inl hp)))
    have hb := ihb fun p hp => h p (contains_ternary.2 (.inr (.inr (.inl hp))))
    have hc := ihc fun p hp => h p (contains_ternary.2 (.inr (.inr (.inr hp))))
    unfold expand
    split
    · obtain ⟨robot, rfl⟩ := hnode
      exact .bind (.ok robot) fun _ => .bind hb fun _ => .bind hc fun _ => .ok _
    · exact .bind ha fun _ => .bind hb fun _ => .bind hc fun _ => .ok _
  | quaternary op a b c d iha ihb ihc ihd =>
    have ha := iha fun p hp => h p (contains_quaternary.2 (.inr (.inl hp)))
    have hb := ihb fun p hp => h p (contains_quaternary.2 (.inr (.inr (.inl hp))))
    have hc := ihc fun p hp => h p (contains_quaternary.2 (.inr (.inr (.inr (.inl hp)))))
    have hd := ihd fun p hp => h p (contains_quaternary.2 (.inr (.inr (.inr (.inr hp)))))
    exact .bind ha fun _ => .bind hb fun _ => .bind hc fun _ => .bind hd fun _ => .ok _

end Expr

/-- **A text means a standard expression**, and the expansion of its macros can fail only for the
constants and settings: its names are in place. -/
theorem Source.standard_of_parse {text : String} {e : Expr} (h : Source.parse text = .ok e) :
    e.Standard ∧ ∀ constants : Constants, (e.expand constants).Configured := by
  have hstandard : e.Standard := by
    rcases Source.written_of_parse h with hwritten | ⟨v, rfl, -⟩
    · exact hwritten.standard
    · exact Expr.standard_array v
  exact ⟨hstandard, fun constants => Expr.configured_expand constants hstandard.node⟩

/-- A word that is no value can be a base, and a barrier that does not exist is a matter of the
configuration. -/
theorem Source.standard_of_parse_of_base :
    ∃ e, Source.parse "True[x.length] + Geometry.distance(r, walls) * Math.random()" = .ok e ∧
      e.valueNames = ["x.d1_len", "r", "walls"] ∧ e.Standard ∧
      e.expand [] = .error { fault := .configuration (.unknownBarrier "walls") } ∧
      ∀ constants : Constants, (e.expand constants).Configured := by
  have hparse : Source.parse "True[x.length] + Geometry.distance(r, walls) * Math.random()" =
      .ok (.binary .add (.access (.ident "True") (.ident "x.d1_len"))
        (.binary .mul (.binary .distance (.ident "r") (.ident "walls")) (.uniform 0 1))) := by
    decide +kernel
  obtain ⟨hstandard, hexpand⟩ := Source.standard_of_parse hparse
  exact ⟨_, hparse, rfl, hstandard, rfl, hexpand⟩

end ChartNet
