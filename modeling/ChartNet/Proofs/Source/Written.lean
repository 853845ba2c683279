import ChartNet.Source
import ChartNet.Proofs.Build
import ChartNet.Proofs.Expr.Kinds
import ChartNet.Proofs.Names
import ChartNet.Proofs.Number.Reading
import ChartNet.Proofs.Source.Words

/-!
# What text can mean

Not every expression can be **written**: text has no implications and no distribution but one, array
values stand alone, and only names with indexes can be accessed. `Expr.Written` describes the
expressions that a text can mean, by the way they are used: as a value, or as a path that indexes
can follow. A name that stands for a constant is a path and no value.
-/

namespace ChartNet

open Token (IsWord IsNameWord wordKind)

/-! ### Names -/

/-- A **name**: words with points between them; the length of an array has a name of its own. -/
inductive IsName : String → Prop
  | word {w : String} (hw : IsWord w.toList) (hkind : wordKind w.toList = .word) : IsName w
  | member {n w : String} (hn : IsName n) (hw : IsWord w.toList) (hkind : wordKind w.toList = .word)
      (hlength : w ≠ "length") : IsName (n ++ "." ++ w)

/-- A name is that of a **value**: neither a constant nor a word that is refused. -/
def IsValueName (n : String) : Prop :=
  NamedConstant.ofName? n = none ∧ rejectedNames.contains n = false

/-- A name of two words, with a point between them. -/
def IsQualified (n : String) : Prop :=
  let a := String.ofList (n.toList.takeWhile (· != '.'))
  let b := String.ofList ((n.toList.dropWhile (· != '.')).drop 1)
  n = a ++ "." ++ b ∧ (IsWord a.toList ∧ wordKind a.toList = .word) ∧
    (IsWord b.toList ∧ wordKind b.toList = .word) ∧ b ≠ "length"

instance : DecidablePred IsQualified := fun _ => instDecidableAnd

theorem IsQualified.isName {n : String} (h : IsQualified n) : IsName n := by
  obtain ⟨heq, ⟨ha, hakind⟩, ⟨hb, hbkind⟩, hlength⟩ := h
  rw [heq]
  exact .member (.word ha hakind) hb hbkind hlength

/-- The name of a length variable is a name. -/
theorem IsName.length {n : String} (hn : IsName n) (k : Nat) : IsName (lengthName n k) := by
  have heq : lengthName n k = n ++ "." ++ ("d" ++ Number.natText k ++ "_len") := by
    rw [lengthName, show ".d" = "." ++ "d" from rfl]
    simp only [String.append_assoc]
  have hword : ("d" ++ Number.natText k ++ "_len").toList =
      'd' :: ((Number.natText k).toList ++ ['_', 'l', 'e', 'n']) := by simp
  rw [heq]
  refine .member hn ?_ ?_ ?_
  · rw [hword]
    refine ⟨by decide, fun c hc => ?_⟩
    have hend : ∀ d ∈ ['_', 'l', 'e', 'n'], Token.continuesWord d = true :=
      List.all_eq_true.1 (by decide)
    rcases List.mem_append.1 hc with hc | hc
    · simp [Token.continuesWord, Number.isDigit_of_mem_natText hc]
    · exact hend c hc
  · rw [hword]
    simp [wordKind]
  · intro h
    have hhead : some 'd' = some 'l' := by
      have hcongr := congrArg (fun s => s.toList.head?) h
      rwa [hword] at hcongr
    exact absurd hhead (by decide)

/-- The name of a length variable is no constant and is not refused. -/
theorem isValueName_lengthName (n : String) (k : Nat) : IsValueName (lengthName n k) := by
  have hlast : (lengthName n k).toList.getLast? = some 'n' := by
    rw [lengthName, String.toList_append, List.getLast?_append]
    rfl
  constructor
  · have hconstants : ∀ p ∈ constantNames, p.1.toList.getLast? ≠ some 'n' := by decide
    have hmembers : ∀ m ∈ ObjectMember.all, m.name.toList.getLast? ≠ some 'n' := by decide
    have htable : constantNames.find? (·.1 == lengthName n k) = none :=
      List.find?_eq_none.2 fun p hp heq => hconstants p hp (by rw [beq_iff_eq.1 heq, hlast])
    have hinherited : ObjectMember.ofName? (lengthName n k) = none :=
      List.find?_eq_none.2 fun m hm heq => hmembers m hm (by rw [beq_iff_eq.1 heq, hlast])
    simp [NamedConstant.ofName?, htable, hinherited]
  · have hrejected : ∀ s ∈ rejectedNames, s.toList.getLast? ≠ some 'n' := by decide
    by_contra hmem
    exact hrejected _ (by simpa using hmem) hlast

/-! ### Written numbers -/

/-- A kind **holds** a number: ints have no fraction. -/
def NumKind.Holds (kind : NumKind) (x : Float) : Prop := kind = .int → Number.NoFraction x

theorem NumKind.Holds.neg {kind : NumKind} {x : Float} (h : kind.Holds x) : kind.Holds (-x) :=
  fun hkind => (h hkind).neg

/-- A numeral without a point and an exponent has no fraction. -/
theorem Number.noFraction_ofNumeral {cs : List Char}
    (h : (cs.any fun c => c == '.' || c == 'e' || c == 'E') = false) :
    NoFraction (ofNumeral cs) := by
  have hmem : ∀ c ∈ cs, c ≠ '.' ∧ c ≠ 'e' ∧ c ≠ 'E' := by
    intro c hc
    simpa [and_assoc] using List.any_eq_false.1 h c hc
  have hzero : NoFraction 0.0 ∧ NoFraction infinity := by
    have hnone : dyadic? infinity = none := rfl
    exact ⟨noFraction_of_zero rfl, fun d hd => absurd (hnone.symm.trans hd) nofun⟩
  have hnearest (n count : Nat) : NoFraction (nearest n count 0) := by
    unfold nearest
    split
    · exact hzero.1
    · split
      · exact hzero.2
      · split
        · exact hzero.1
        · exact noFraction_ofNat n
  -- behind the digits stands neither a point nor an exponent
  have htail : ∀ c ∈ (cs.dropWhile Char.isDigit).head?, c ≠ '.' ∧ c ≠ 'e' ∧ c ≠ 'E' := fun c hc =>
    hmem c ((List.dropWhile_sublist _).subset (List.mem_of_mem_head? hc))
  have hexponent : exponentOf (cs.dropWhile Char.isDigit) = 0 := by
    unfold exponentOf
    split
    · rename_i heq
      exact absurd rfl (htail 'e' (by rw [heq]; rfl)).2.1
    · rename_i heq
      exact absurd rfl (htail 'E' (by rw [heq]; rfl)).2.2
    · rfl
  unfold ofNumeral
  simp only
  split
  · rename_i hdot
    exact absurd rfl (htail '.' (by rw [hdot]; rfl)).1
  · rw [hexponent]
    exact hnearest _ _

/-- A literal can be written. -/
def Literal.Written : Literal → Prop
  | .num kind x => kind.Holds x
  | _ => True

theorem Element.mem_numbersOf {els : List Element} {el : Element} (hel : el ∈ els) {x : Float}
    (hx : x ∈ el.numbers) : x ∈ numbersOf els := by
  induction els with
  | nil => simp at hel
  | cons el' els ih =>
    rw [numbersOf, List.mem_append]
    rcases List.mem_cons.1 hel with rfl | hel
    · exact .inl hx
    · exact .inr (ih hel)

theorem Element.exists_of_mem_numbersOf {els : List Element} {x : Float} (hx : x ∈ numbersOf els) :
    ∃ el ∈ els, x ∈ el.numbers := by
  induction els with
  | nil => simp [numbersOf] at hx
  | cons el els ih =>
    rw [numbersOf, List.mem_append] at hx
    rcases hx with hx | hx
    · exact ⟨el, by simp, hx⟩
    · obtain ⟨el', hel', hx'⟩ := ih hx
      exact ⟨el', by simp [hel'], hx'⟩

/-! ### Written expressions -/

/-- How an expression is **used**: as a path that indexes can follow, or as a value. -/
inductive Use where
  | path
  | value

/-- An expression can be **written** for a use. -/
inductive Expr.Written : Use → Expr → Prop
  | path {n : String} (hn : IsName n) : Written .path (.ident n)
  | name {n : String} (hn : IsName n) (hvalue : IsValueName n) : Written .value (.ident n)
  | access {use : Use} {a i : Expr} (ha : Written .path a) (hi : Written .value i) :
      Written use (.access a i)
  | literal {v : Literal} (hv : v.Written) : Written .value (.lit v)
  | random : Written .value (.uniform 0 1)
  | negation {a : Expr} (ha : Written .value a) : Written .value (.not a)
  | operator {op : BinaryOp} {n : Nat} {symbol : String} {a b : Expr}
      (hop : op.infixForm? = some (n, symbol)) (ha : Written .value a) (hb : Written .value b) :
      Written .value (.binary op a b)
  | call {f : Function} {args : List Expr} {e : Expr} (hf : f ∈ functions)
      (happly : f.op.apply? args = some e)
      (hnames : ∀ p ∈ f.op.roles.zip args, p.1 ∈ f.nameRoles → p.2.isIdent = true)
      (hargs : ∀ a ∈ args, Written .value a) : Written .value e
  | conditional {t a b : Expr} (ht : Written .value t) (ha : Written .value a)
      (hb : Written .value b) : Written .value (.ite t a b)

namespace Expr

/-- No function gives a literal. -/
theorem apply?_ne_lit (op : Opcode) (args : List Expr) (v : Literal) :
    op.apply? args ≠ some (.lit v) := by
  intro h
  unfold Opcode.apply? at h
  split at h <;> cases h

/-- No function gives an array value. -/
theorem apply?_ne_array (op : Opcode) (args : List Expr) (v : ArrayValue) :
    op.apply? args ≠ some (.array v) := by
  intro h
  unfold Opcode.apply? at h
  split at h <;> cases h

/-- No function stands for an access. -/
theorem chain?_of_apply {f : Function} {args : List Expr} {e : Expr} (hf : f ∈ functions)
    (h : f.op.apply? args = some e) : e.chain? = none := by
  have hop : ∀ f ∈ functions, f.op ≠ .binary .access := by decide
  have hop' := hop f hf
  unfold Opcode.apply? at h
  split at h <;> cases h
  · rfl
  · rename_i op a b heq
    cases op <;> first | rfl | exact absurd heq hop'
  · rfl
  · rfl

/-- The parts of a written path. -/
theorem Written.chain {use : Use} {e : Expr} {c : AccessChain} (h : e.Written use)
    (hc : e.chain? = some c) : IsName c.root ∧ ∀ i ∈ c.indexes, i.Written .value := by
  induction h generalizing c with
  | path hn =>
    cases hc
    exact ⟨hn, by simp⟩
  | name hn =>
    cases hc
    exact ⟨hn, by simp⟩
  | @access _ a i _ hi iha _ =>
    obtain ⟨c', hc', rfl⟩ := Option.map_eq_some_iff.1 hc
    obtain ⟨hroot, hindexes⟩ := iha hc'
    refine ⟨hroot, fun j hj => ?_⟩
    rcases List.mem_append.1 hj with hj | hj
    · exact hindexes j hj
    · rwa [List.mem_singleton.1 hj]
  | literal => cases hc
  | random => cases hc
  | negation => cases hc
  | @operator op _ _ _ _ hop =>
    cases op <;> first | cases hc | cases hop
  | call hf happly =>
    rw [chain?_of_apply hf happly] at hc
    cases hc
  | conditional => cases hc

/-- A name with indexes is a path. -/
theorem written_foldl_access {root : String} {indexes : List Expr} (hroot : IsName root)
    (hindexes : ∀ i ∈ indexes, i.Written .value) :
    (indexes.foldl Expr.access (.ident root)).Written .path := by
  have hfold : ∀ (indexes : List Expr) (e : Expr), e.Written .path →
      (∀ i ∈ indexes, i.Written .value) → (indexes.foldl Expr.access e).Written .path := by
    intro indexes
    induction indexes with
    | nil => exact fun e he _ => he
    | cons i is ih =>
      intro e he his
      rw [List.forall_mem_cons] at his
      exact ih _ (.access he his.1) his.2
  exact hfold indexes _ (.path hroot) hindexes

/-- What has the parts of a path is one. -/
theorem Written.path_of_chain {use : Use} {e : Expr} {c : AccessChain} (h : e.Written use)
    (hc : e.chain? = some c) : e.Written .path := by
  obtain ⟨hroot, hindexes⟩ := h.chain hc
  rw [← toExpr_of_chain? hc]
  exact written_foldl_access hroot hindexes

/-- A path with an index, or from a name of a value, is a value. -/
theorem written_value_foldl_access {root : String} {indexes : List Expr} (hroot : IsName root)
    (hvalue : IsValueName root ∨ indexes ≠ []) (hindexes : ∀ i ∈ indexes, i.Written .value) :
    (indexes.foldl Expr.access (.ident root)).Written .value := by
  rcases List.eq_nil_or_concat' indexes with rfl | ⟨is, i, rfl⟩
  · exact .name hroot (hvalue.resolve_right (by simp))
  · rw [List.foldl_append]
    exact .access (written_foldl_access hroot fun j hj => hindexes j (by simp [hj]))
      (hindexes i (by simp))

theorem written_nat (n : Nat) : (nat n).Written .value :=
  .literal fun _ => Number.noFraction_ofNat n

/-- The length of what a written path selects is written. -/
theorem written_length {c : AccessChain} (hroot : IsName c.root)
    (hindexes : ∀ i ∈ c.indexes, i.Written .value) : c.length.Written .value := by
  refine written_value_foldl_access (hroot.length _) (.inl (isValueName_lengthName _ _)) ?_
  exact fun i hi => hindexes i (List.mem_of_mem_take hi)

/-- A conjunction of written conditions is written. -/
theorem written_conjunction {es : List Expr} (h : ∀ e ∈ es, e.Written .value) :
    (conjunction es).Written .value := by
  have hfold : ∀ (es : List Expr) (e : Expr), e.Written .value → (∀ e ∈ es, e.Written .value) →
      (es.foldl and e).Written .value := by
    intro es
    induction es with
    | nil => exact fun e he _ => he
    | cons a as ih =>
      intro e he has
      rw [List.forall_mem_cons] at has
      exact ih _ (.operator rfl he has.1) has.2
  cases es with
  | nil => exact .literal trivial
  | cons e es =>
    rw [List.forall_mem_cons] at h
    exact hfold es e h.1 h.2

mutual

/-- The condition that an element equals what a written path selects is written. -/
theorem written_elementEquality (base : NumKind) : ∀ (el : Element) (c : AccessChain),
    (∀ x ∈ el.numbers, base.Holds x) → IsName c.root → (∀ i ∈ c.indexes, i.Written .value) →
      (∀ x, el = .num x → c.indexes ≠ []) → (elementEquality c base el).Written .value
  | .num x, c, hnumbers, hroot, hindexes, hne => by
    rw [elementEquality]
    exact .operator rfl (written_value_foldl_access hroot (.inr (hne x rfl)) hindexes)
      (.literal (hnumbers x (by simp [Element.numbers])))
  | .list items, c, hnumbers, hroot, hindexes, _ => by
    rw [elementEquality]
    refine written_conjunction (List.forall_mem_cons.2 ⟨?_, ?_⟩)
    · exact .operator rfl (written_length hroot hindexes) (written_nat _)
    · exact written_elementEqualities base items c 0 hnumbers hroot hindexes

/-- The conditions on elements are written. -/
theorem written_elementEqualities (base : NumKind) : ∀ (els : List Element) (c : AccessChain)
    (i : Nat), (∀ x ∈ Element.numbersOf els, base.Holds x) → IsName c.root →
      (∀ i ∈ c.indexes, i.Written .value) → ∀ e ∈ elementEqualities c base i els, e.Written .value
  | [], _, _, _, _, _ => by simp [elementEqualities]
  | el :: els, c, i, hnumbers, hroot, hindexes => by
    rw [Element.numbersOf, List.forall_mem_append] at hnumbers
    have hpush : ∀ j ∈ (c.push (.nat i)).indexes, j.Written .value := by
      intro j hj
      rcases List.mem_append.1 hj with hj | hj
      · exact hindexes j hj
      · rw [List.mem_singleton.1 hj]
        exact written_nat i
    rw [elementEqualities]
    refine List.forall_mem_cons.2
      ⟨?_, written_elementEqualities base els c (i + 1) hnumbers.2 hroot hindexes⟩
    exact written_elementEquality base el _ hnumbers.1 hroot hpush fun x _ => by
      simp [AccessChain.push]

end

/-- Operands stay written when the last of them is filled in: it is a constant. -/
private theorem written_operands {f : Function} {args : List Expr} (hf : f ∈ functions)
    (hargs : ∀ a ∈ args, a.Written .value) :
    ∀ a ∈ if args.length = f.op.roles.length then args else args ++ f.defaultLast.toList,
      a.Written .value := by
  have hdefault : ∀ f ∈ functions, ∀ a ∈ f.defaultLast.toList, a = .lit (.constant .e) := by decide
  intro a ha
  split at ha
  · exact hargs a ha
  · rcases List.mem_append.1 ha with ha | ha
    · exact hargs a ha
    · rw [hdefault f hf a ha]
      exact .literal trivial

/-- Calls with written arguments are written. -/
theorem written_buildCall {callee : String} {args : List Expr} {place : Option Place} {e : Expr}
    (h : buildCall callee args place = .ok e) (hargs : ∀ a ∈ args, a.Written .value) :
    e.Written .value := by
  unfold buildCall at h
  split at h
  · split at h
    · unfold mkUniform at h
      split at h
      · cases h
        exact .random
      · cases h
    · cases h
  · split at h
    · cases h
    · rename_i f hf
      extract_lets roles accepted operands at h
      split at h
      · cases h
      · split at h
        · cases h
        · rename_i hnames
          split at h
          · rename_i happly
            cases h
            refine .call (List.mem_of_find?_eq_some hf) happly ?_ ?_
            · intro p hp hrole
              have hp' := List.find?_eq_none.1 hnames p hp
              simpa [hrole] using hp'
            · exact written_operands (List.mem_of_find?_eq_some hf) hargs
          · cases h

end Expr

/-! ### Written array values -/

/-- An array value can be **written**: it is one of reals only if it has numbers, and one of ints
only if they have no fraction. -/
structure ArrayValue.Written (v : ArrayValue) : Prop where
  real : v.base = .real → Element.numbersOf v.elements ≠ []
  holds : ∀ x ∈ Element.numbersOf v.elements, v.base.Holds x

/-- Elements join to reals only if one of them is real. -/
theorem NumKind.exists_real_of_foldl_join {α : Type} {f : α → NumKind} {l : List α}
    (h : l.foldl (fun k a => k.join (f a)) NumKind.int = .real) : ∃ a ∈ l, f a = .real := by
  have hfold : ∀ (l : List α) (k : NumKind), l.foldl (fun k a => k.join (f a)) k = .real →
      k = .real ∨ ∃ a ∈ l, f a = .real := by
    intro l
    induction l with
    | nil => exact fun k hk => .inl hk
    | cons a l ih =>
      intro k hk
      rcases ih _ hk with hjoin | ⟨b, hb, hreal⟩
      · cases hfa : f a with
        | real => exact .inr ⟨a, by simp, hfa⟩
        | int =>
          simp only [hfa] at hjoin
          cases k
          · cases hjoin
          · exact .inl rfl
      · exact .inr ⟨b, by simp [hb], hreal⟩
  exact (hfold l .int h).resolve_left nofun

/-- Elements join to ints only if all of them are ints. -/
theorem NumKind.eq_int_of_foldl_join {α : Type} {f : α → NumKind} {l : List α}
    (h : l.foldl (fun k a => k.join (f a)) NumKind.int = .int) : ∀ a ∈ l, f a = .int := by
  have hreal : ∀ l : List α, l.foldl (fun k a => k.join (f a)) NumKind.real = .real := by
    intro l
    induction l with
    | nil => rfl
    | cons a l ih => exact ih
  induction l with
  | nil => simp
  | cons a l ih =>
    rw [List.foldl_cons] at h
    cases hfa : f a with
    | real =>
      rw [hfa] at h
      exact absurd ((hreal l).symm.trans h) nofun
    | int =>
      rw [hfa] at h
      exact List.forall_mem_cons.2 ⟨hfa, ih h⟩

/-- The bytes of a text can be written. -/
theorem written_ofText (text : String) : (ArrayValue.ofText text).Written := by
  refine ⟨nofun, fun x hx _ => ?_⟩
  obtain ⟨el, hel, hx⟩ := Element.exists_of_mem_numbersOf hx
  obtain ⟨b, -, rfl⟩ := List.mem_map.1 hel
  rw [Element.numbers, List.mem_singleton] at hx
  rw [hx]
  exact Number.noFraction_ofNat _

/-! ### What phrases mean -/

/-- A meaning can be written, before names are resolved. -/
def Meaning.Written : Meaning → Prop
  | .plain e => e.Written .path ∨ e.Written .value
  | .literal _ v => v.Written

/-- A meaning can be written by itself. -/
def Meaning.Resolved : Meaning → Prop
  | .plain e => e.Written .value
  | .literal _ v => v.Written

namespace Phrase

/-- Only names are resolved. -/
theorem resolve_plain (p : Phrase) {e : Expr} (h : ∀ n, e ≠ .ident n) :
    resolve p (.plain e) = .ok (.plain e) := by
  cases e with
  | ident n => exact absurd rfl (h n)
  | _ => rfl

/-- Resolved names are names of values. -/
theorem resolved_of_resolve {p : Phrase} {m m' : Meaning} (hm : m.Written)
    (h : resolve p m = .ok m') : m'.Resolved := by
  cases m with
  | literal form v =>
    cases h
    exact hm
  | plain e =>
    by_cases hident : ∃ n, e = .ident n
    · obtain ⟨n, rfl⟩ := hident
      have hn : IsName n := by
        rcases hm with hm | hm
        · exact (hm.chain rfl).1
        · exact (hm.chain rfl).1
      simp only [resolve] at h
      split at h
      · cases h
        exact .literal trivial
      · rename_i hconstant
        split at h
        · cases h
        · rename_i hrejected
          cases h
          exact .name hn ⟨hconstant, by simpa using hrejected⟩
    · rw [resolve_plain p fun n hn => hident ⟨n, hn⟩] at h
      cases h
      rcases hm with hm | hm
      · cases hm with
        | path => exact absurd ⟨_, rfl⟩ hident
        | access ha hi => exact .access ha hi
      · exact hm

/-- A written operand is a written value. -/
private theorem written_of_operand {p : Phrase} {r : Result Meaning} {e : Expr}
    (hr : ∀ m, r = .ok m → m.Written) (h : operand p r = .ok e) : e.Written .value := by
  simp only [operand, whole, Result.bind_eq_ok] at h
  obtain ⟨m', ⟨m, hm, hresolve⟩, hplain⟩ := h
  have hresolved := resolved_of_resolve (hr m hm) hresolve
  cases m' with
  | plain e' =>
    cases hplain
    exact hresolved
  | literal form v => cases form <;> cases hplain

private theorem resolved_of_whole {p : Phrase} {r : Result Meaning} {m : Meaning}
    (hr : ∀ m, r = .ok m → m.Written) (h : whole p r = .ok m) : m.Resolved := by
  obtain ⟨m', hm', hresolve⟩ := Result.bind_eq_ok.1 h
  exact resolved_of_resolve (hr m' hm') hresolve

private theorem written_of_headOf {p : Phrase} {r : Result Meaning} {e : Expr}
    (hr : ∀ m, r = .ok m → m.Written) (h : headOf p r = .ok e) :
    e.Written .path ∨ e.Written .value := by
  obtain ⟨m, hm, hplain⟩ := Result.bind_eq_ok.1 h
  have hwritten := hr m hm
  cases m with
  | plain e' =>
    cases hplain
    exact hwritten
  | literal form v => cases form <;> cases hplain

/-- A comparison of written meanings is written. -/
private theorem written_compare {op : Token} {l r : Phrase} {a b m : Meaning} (ha : a.Resolved)
    (hb : b.Resolved) (h : compare op l r a b = .ok m) : m.Written := by
  have hliteral : ∀ {v : ArrayValue} {e : Expr} {other : Phrase} {negated : Bool} {m : Meaning},
      v.Written → e.Written .value → compareLiteral v e other negated = .ok m → m.Written := by
    intro v e other negated m hv he hm
    unfold compareLiteral at hm
    split at hm
    · cases hm
    · rename_i c hc
      obtain ⟨hroot, hindexes⟩ := he.chain hc
      have heq : (arrayEquality c v).Written .value :=
        Expr.written_elementEquality _ _ _ (by rw [Element.numbers]; exact hv.holds) hroot hindexes
          nofun
      cases hm
      split
      · exact .inr (.negation heq)
      · exact .inr heq
  cases a with
  | plain a =>
    cases b with
    | plain b =>
      cases h
      split
      · exact .inr (.operator rfl ha hb)
      · exact .inr (.operator rfl ha hb)
    | literal => exact hliteral hb ha h
  | literal =>
    cases b with
    | plain b => exact hliteral ha hb h
    | literal => cases h

private theorem written_memberOf {e e' : Expr} {t : Token} (ht : t.IsNameWord)
    (he : e.Written .path ∨ e.Written .value) (h : memberOf e t = .ok e') :
    e'.Written .path ∨ e'.Written .value := by
  have hchain : ∀ {c}, e.chain? = some c → IsName c.root ∧ ∀ i ∈ c.indexes, i.Written .value := by
    intro c hc
    rcases he with he | he
    · exact he.chain hc
    · exact he.chain hc
  unfold memberOf at h
  split at h
  · unfold Expr.lengthReference at h
    split at h
    · rename_i c hc
      cases h
      obtain ⟨hroot, hindexes⟩ := hchain hc
      exact .inr (Expr.written_length hroot hindexes)
    · cases h
  · rename_i hlength
    split at h
    · rename_i n
      cases h
      exact .inl (.path (.member (hchain rfl).1 ht.1 ht.2 hlength))
    · cases h

/-- The operators of tokens stand between their operands. -/
private theorem infixForm?_of_binaryOp? {kind : TokenKind} {op : BinaryOp}
    (h : kind.binaryOp? = some op) : ∃ n symbol, op.infixForm? = some (n, symbol) := by
  cases kind <;> cases h <;> exact ⟨_, _, rfl⟩

/-- What a unary operator makes of a written value is written. -/
private theorem written_applyUnary {op : Token} {e : Expr} (he : e.Written .value) :
    (applyUnary op e).Written .value := by
  unfold applyUnary
  split
  · exact .negation he
  · unfold Expr.negate
    split
    · cases he with
      | literal hv => exact .literal (NumKind.Holds.neg hv)
      | call hf happly => exact absurd happly (Expr.apply?_ne_lit _ _ _)
    · exact .operator rfl (Expr.written_nat 0) he
  · exact he

mutual

/-- **What a phrase means can be written.** -/
theorem written_raw : ∀ (p : Phrase), p.Named IsNameWord → ∀ m, raw p = .ok m → m.Written
  | number t, _, m, h => by
    cases h
    simp only [Meaning.Written, Token.numberValue]
    split
    · exact .inr (.literal nofun)
    · rename_i hpoint
      exact .inr (.literal fun _ => Number.noFraction_ofNumeral (Bool.eq_false_iff.2 hpoint))
  | string t, _, m, h => by
    cases h
    exact written_ofText _
  | truth t b, _, m, h => by
    cases h
    exact .inr (.literal trivial)
  | name t, hp, m, h => by
    cases h
    exact .inl (.path (.word hp.1 hp.2))
  | group _ p, hp, m, h => by
    rw [raw] at h
    have hresolved := resolved_of_whole (written_raw p hp) h
    cases m with
    | plain e => exact .inr hresolved
    | literal => exact hresolved
  | list _ items, hp, m, h => by
    rw [raw, Result.bind_eq_ok] at h
    obtain ⟨elements, helements, heq⟩ := h
    cases heq
    -- one real item makes all of the array real, also the items that are whole
    have hwritten := written_rawElements items hp elements helements
    refine ⟨fun hreal => ?_, fun y hy hint => ?_⟩
    · obtain ⟨x, hx, hxreal⟩ := NumKind.exists_real_of_foldl_join hreal
      obtain ⟨y, hy⟩ := List.exists_mem_of_ne_nil _ ((hwritten x hx).1 hxreal)
      exact List.ne_nil_of_mem (Element.mem_numbersOf (List.mem_map_of_mem hx) hy)
    · obtain ⟨el, hel, hy⟩ := Element.exists_of_mem_numbersOf hy
      obtain ⟨x, hx, rfl⟩ := List.mem_map.1 hel
      exact (hwritten x hx).2 y hy (NumKind.eq_int_of_foldl_join hint x hx)
  | member b t, hp, m, h => by
    simp only [raw, Result.bind_eq_ok] at h
    obtain ⟨e, he, e', hmember, heq⟩ := h
    cases heq
    exact written_memberOf hp.2 (written_of_headOf (written_raw b hp.1) he) hmember
  | index b opening i, hp, m, h => by
    simp only [raw, Result.bind_eq_ok] at h
    obtain ⟨e, he, h⟩ := h
    have hhead := written_of_headOf (written_raw b hp.1) he
    split at h
    · cases h
    · rename_i hchain
      obtain ⟨position, hposition, heq⟩ := Result.bind_eq_ok.1 h
      cases heq
      obtain ⟨c, hc⟩ : ∃ c, e.chain? = some c := by
        cases hc : e.chain? with
        | none => exact absurd (by rw [hc]; rfl) hchain
        | some c => exact ⟨c, rfl⟩
      have hpath : e.Written .path := by
        rcases hhead with hhead | hhead
        · exact hhead
        · exact hhead.path_of_chain hc
      exact .inr (.access hpath (written_of_operand (written_raw i hp.2) hposition))
  | call b opening args, hp, m, h => by
    simp only [raw, Result.bind_eq_ok] at h
    obtain ⟨e, he, h⟩ := h
    split at h
    · rename_i callee
      simp only [Result.bind_eq_ok] at h
      obtain ⟨operands, hoperands, e', hcall, heq⟩ := h
      cases heq
      exact .inr (Expr.written_buildCall hcall (written_rawOperands args hp.2 operands hoperands))
    · cases h
  | unary op p, hp, m, h => by
    simp only [raw, Result.bind_eq_ok] at h
    obtain ⟨e, he, heq⟩ := h
    cases heq
    exact .inr (written_applyUnary (written_of_operand (written_raw p hp) he))
  | binary op l r, hp, m, h => by
    rw [raw] at h
    split at h
    · simp only [Result.bind_eq_ok] at h
      obtain ⟨a, ha, b, hb, hcompare⟩ := h
      -- an array literal may stand on one side of an equality
      exact written_compare (resolved_of_whole (written_raw l hp.1) ha)
        (resolved_of_whole (written_raw r hp.2) hb) hcompare
    · simp only [Result.bind_eq_ok] at h
      obtain ⟨a, ha, b, hb, h⟩ := h
      have ha' := written_of_operand (written_raw l hp.1) ha
      have hb' := written_of_operand (written_raw r hp.2) hb
      split at h
      · rename_i o ho
        cases h
        obtain ⟨n, symbol, hform⟩ := infixForm?_of_binaryOp? ho
        exact .inr (.operator hform ha' hb')
      · cases h
        exact .inr ha'
  | conditional t a b, hp, m, h => by
    simp only [raw, Result.bind_eq_ok] at h
    obtain ⟨test, htest, whenTrue, htrue, whenFalse, hfalse, heq⟩ := h
    cases heq
    exact .inr (.conditional (written_of_operand (written_raw t hp.1) htest)
      (written_of_operand (written_raw a hp.2.1) htrue)
      (written_of_operand (written_raw b hp.2.2) hfalse))

/-- What phrases mean as operands can be written. -/
theorem written_rawOperands : ∀ (ps : List Phrase), NamedAll IsNameWord ps → ∀ es,
    rawOperands ps = .ok es → ∀ e ∈ es, e.Written .value
  | [], _, es, h => by
    cases h
    simp
  | p :: ps, hps, es, h => by
    simp only [rawOperands, Result.bind_eq_ok] at h
    obtain ⟨e, he, es', hes', heq⟩ := h
    cases heq
    exact List.forall_mem_cons.2 ⟨written_of_operand (written_raw p hps.1) he,
      written_rawOperands ps hps.2 es' hes'⟩

/-- Only lists with numbers are elements of the kind of reals, and ints have no fraction. -/
theorem written_rawElements : ∀ (ps : List Phrase), NamedAll IsNameWord ps → ∀ els,
    rawElements ps = .ok els →
      ∀ x ∈ els, (x.1 = .real → x.2.numbers ≠ []) ∧ ∀ y ∈ x.2.numbers, x.1.Holds y
  | [], _, els, h => by
    cases h
    simp
  | p :: ps, hps, els, h => by
    simp only [rawElements, Result.bind_eq_ok] at h
    obtain ⟨m, hm, el, hel, els', hels', heq⟩ := h
    cases heq
    refine List.forall_mem_cons.2 ⟨?_, written_rawElements ps hps.2 els' hels'⟩
    have hresolved := resolved_of_whole (written_raw p hps.1) hm
    unfold elementOf at hel
    split at hel
    · cases hel
      rw [Element.numbers]
      exact ⟨hresolved.real, hresolved.holds⟩
    · rename_i kind x
      cases hel
      simp only [Element.numbers, List.mem_singleton, forall_eq]
      refine ⟨by simp, ?_⟩
      cases hresolved with
      | literal hv => exact hv
      | call hf happly => exact absurd happly (Expr.apply?_ne_lit _ _ _)
    · cases hel

end

end Phrase

/-- What a text that is read means can be written. -/
theorem Source.resolved_of_read {text : String} {s : Source} (h : Source.read text = .ok s) :
    s.meaning.Resolved := by
  unfold Source.read at h
  split at h
  · rename_i p hp
    obtain ⟨m, hm, rfl⟩ : ∃ m, p.meaning = .ok m ∧ ⟨text, m⟩ = s := by
      cases hmeaning : p.meaning with
      | error err => simp [hmeaning, Except.map] at h
      | ok m => exact ⟨m, rfl, by simpa [hmeaning, Except.map] using h⟩
    obtain ⟨m', hm', hresolve⟩ := Result.bind_eq_ok.1 hm
    simp only [Phrase.ofText] at hp
    split at hp
    · have hparse : Phrase.parse (Token.cut text).tokens = .ok p := by
        cases hparse : Phrase.parse (Token.cut text).tokens with
        | error err => simp [hparse, Except.mapError] at hp
        | ok p' => simpa [hparse, Except.mapError] using hp
      have hnamed := Phrase.named_of_parse hparse (Token.wordsAre_cutFrom {} text.toList)
      exact Phrase.resolved_of_resolve (Phrase.written_raw p hnamed m' hm') hresolve
    · cases hp
  · cases h

/-- **A text means an expression that can be written, or an array value that can be.** -/
theorem Source.written_of_parse {text : String} {e : Expr} (h : Source.parse text = .ok e) :
    e.Written .value ∨ ∃ v, e = .array v ∧ v.Written := by
  obtain ⟨s, hread, h⟩ := Result.bind_eq_ok.1 h
  have hresolved := Source.resolved_of_read hread
  cases hmeaning : s.meaning with
  | plain e' =>
    rw [hmeaning] at h hresolved
    cases h
    exact .inl hresolved
  | literal form v =>
    rw [hmeaning] at h hresolved
    cases form with
    | string => cases h
    | list =>
      cases h
      exact .inr ⟨v, rfl, hresolved⟩

end ChartNet
