import Mathlib
import ChartNet.Automaton.Edge
import ChartNet.Chart.Guard
import ChartNet.Expr.Access

/-!
# What expressions and assignments mean

Nothing is fixed about the values of variables. A **valuation** says which conditions are true, and
only has to respect conjunction, negation and the literal `true`. An **interpretation** gives a
type of values, the value of every expression in a store, the valuation of a store, and what it
means to replace an element of an array. Every statement about runs holds for all interpretations.

`Interpretation.perform` is the meaning of the assignments of a destination: those of the lowest
index first, and those of one index at the same time, so that all of them read the store before any
of them is made. Assignments with higher indexes happen afterwards (`perform_append`), and sorting
assignments by index keeps their meaning (`perform_sortAssignments`).
-/

namespace ChartNet

/-! ### Valuations -/

/-- A **valuation**: which conditions are true. -/
structure Valuation where
  holds : Expr → Bool
  holds_true : holds (.bool true) = true
  holds_not : ∀ a, holds a.not = !holds a
  holds_and : ∀ a b, holds (a.and b) = (holds a && holds b)

namespace Valuation

attribute [simp] holds_true holds_not holds_and

variable (v : Valuation)

/-- Whether a condition that may be left out is true. -/
def admits : Option Expr → Bool
  | none => true
  | some g => v.holds g

@[simp] theorem admits_none : v.admits none = true := rfl

@[simp] theorem admits_some (g : Expr) : v.admits (some g) = v.holds g := rfl

/-- The **guard** after some conditions is true if the own condition is and none of them. -/
theorem holds_guardAfter (previous : List Expr) (current : Option Expr) :
    v.holds (guardAfter previous current) =
      (v.admits current && previous.all fun p => !v.holds p) := by
  induction previous using List.reverseRecOn with
  | nil => cases current <;> simp
  | append_singleton ps p ih => simp [ih, Bool.and_assoc]

end Valuation

/-! ### Interpretations -/

/-- An **interpretation**: values, the value of an expression in a store, the conditions that are
true in a store, and the value of an array with the element at some indexes replaced. -/
structure Interpretation where
  Value : Type
  eval : (String → Value) → Expr → Value
  judge : (String → Value) → Valuation
  replace : Value → List Value → Value → Value

namespace Interpretation

/-- A **store**: the value of every variable. -/
abbrev Store (I : Interpretation) : Type := String → I.Value

variable (I : Interpretation)

/-- Makes one assignment, which reads the store `before` and changes the store `after`. -/
def write (before after : I.Store) (a : Assignment) : I.Store :=
  match a.ref.chain? with
  | none => after
  | some c =>
    let new := I.eval before a.value
    Function.update after c.root
      (if c.indexes.isEmpty then new
        else I.replace (after c.root) (c.indexes.map (I.eval before)) new)

/-- Makes assignments **together**: all of them read the store before any of them is made. -/
def together (as : List Assignment) (σ : I.Store) : I.Store :=
  as.foldl (I.write σ) σ

/-- The indexes of assignments, each once and in ascending order. -/
def ranksOf (as : List Assignment) : List Rank :=
  (as.map (·.index)).dedup.mergeSort Rank.le

/-- **Performs** assignments: by ascending index, and those of one index together. -/
def perform (as : List Assignment) (σ : I.Store) : I.Store :=
  (ranksOf as).foldl (fun σ r => I.together (as.filter (·.index = r)) σ) σ

/-! ### Assignments of one index -/

/-- Making assignments to other variables does not change a variable. -/
theorem foldl_write_of_ne {as : List Assignment} {x : String}
    (h : ∀ a ∈ as, a.ref.chain?.map (·.root) ≠ some x) (before after : I.Store) :
    as.foldl (I.write before) after x = after x := by
  induction as generalizing after with
  | nil => rfl
  | cons a as ih =>
    rw [List.forall_mem_cons] at h
    rw [List.foldl_cons, ih h.2, write]
    cases hc : a.ref.chain? with
    | none => rfl
    | some c =>
      have hne : x ≠ c.root := by
        rintro rfl
        exact h.1 (by simp [hc])
      exact Function.update_of_ne hne _ _

/-- Assignments to **different variables** do not get in each other's way. -/
theorem together_of_mem {as : List Assignment}
    (hroots : as.Pairwise fun a b => a.ref.chain?.map (·.root) ≠ b.ref.chain?.map (·.root))
    {a : Assignment} (ha : a ∈ as) {c : AccessChain} (hc : a.ref.chain? = some c) (σ : I.Store) :
    I.together as σ c.root = I.write σ σ a c.root := by
  obtain ⟨before, after, rfl⟩ := List.append_of_mem ha
  obtain ⟨-, hafter, hbefore⟩ := List.pairwise_append.1 hroots
  have hleft : ∀ b ∈ before, b.ref.chain?.map (·.root) ≠ some c.root := fun b hb =>
    by simpa [hc] using hbefore b hb a List.mem_cons_self
  have hright : ∀ b ∈ after, b.ref.chain?.map (·.root) ≠ some c.root := fun b hb =>
    by simpa [hc] using ((List.pairwise_cons.1 hafter).1 b hb).symm
  rw [together, List.foldl_append, List.foldl_cons, I.foldl_write_of_ne hright]
  simp only [write, hc, Function.update_self, I.foldl_write_of_ne hleft]

/-- Only the target and the value of an assignment count when assignments are made together. -/
theorem together_map (f : Assignment → Assignment) (href : ∀ a, (f a).ref = a.ref)
    (hvalue : ∀ a, (f a).value = a.value) (as : List Assignment) (σ : I.Store) :
    I.together (as.map f) σ = I.together as σ := by
  unfold together
  rw [List.foldl_map]
  congr 1
  funext after a
  simp only [write, href, hvalue]

@[simp] theorem ranksOf_nil : ranksOf [] = [] := by simp [ranksOf]

@[simp] theorem ranksOf_singleton (a : Assignment) : ranksOf [a] = [a.index] := by simp [ranksOf]

@[simp] theorem perform_nil (σ : I.Store) : I.perform [] σ = σ := by simp [perform]

/-- Assignments of one index are performed together. -/
theorem perform_of_index {r : Rank} {as : List Assignment} (h : ∀ a ∈ as, a.index = r)
    (σ : I.Store) : I.perform as σ = I.together as σ := by
  cases as with
  | nil => simp [together]
  | cons a as =>
    have hmap : (a :: as).map (·.index) = List.replicate (as.length + 1) r := by
      rw [List.eq_replicate_iff]
      simpa using h
    have hranks : ranksOf (a :: as) = [r] := by
      rw [ranksOf, hmap, List.replicate_dedup (by simp), List.mergeSort_singleton]
    have hall : (a :: as).filter (fun b => decide (b.index = r)) = a :: as :=
      List.filter_eq_self.2 fun b hb => by simpa using h b hb
    rw [perform, hranks, List.foldl_cons, List.foldl_nil, hall]

/-! ### Assignments of several indexes -/

/-- The ranks of assignments are those that occur. -/
theorem mem_ranksOf {as : List Assignment} {r : Rank} :
    r ∈ ranksOf as ↔ ∃ a ∈ as, a.index = r := by
  simp [ranksOf, List.mem_mergeSort]

private theorem pairwise_mergeSort (ranks : List Rank) :
    (ranks.mergeSort Rank.le).Pairwise fun r s => r.le s := by
  refine List.pairwise_mergeSort (fun r s t hrs hst => ?_) (fun r s => ?_) ranks
  · exact Rank.le_trans hrs hst
  · exact Rank.le_total r s

/-- Ranks in ascending order are determined by which ranks they are. -/
theorem eq_mergeSort_of_perm {ranks sorted : List Rank} (hperm : sorted.Perm ranks)
    (hsorted : sorted.Pairwise fun r s => r.le s) : sorted = ranks.mergeSort Rank.le := by
  refine List.Perm.eq_of_pairwise (fun a b _ _ => Rank.le_antisymm) hsorted
    (pairwise_mergeSort ranks) ?_
  exact hperm.trans (List.mergeSort_perm ranks _).symm

/-- The ranks of assignments with later assignments after them. -/
theorem ranksOf_append {as bs : List Assignment}
    (h : ∀ a ∈ as, ∀ b ∈ bs, ¬ b.index.le a.index) :
    ranksOf (as ++ bs) = ranksOf as ++ ranksOf bs := by
  have hle : ∀ a ∈ as, ∀ b ∈ bs, a.index.le b.index := fun a ha b hb => by
    have := Rank.le_total a.index b.index
    simpa [h a ha b hb] using this
  have hdisjoint : (as.map (·.index)).Disjoint (bs.map (·.index)) := by
    intro r har hbr
    obtain ⟨a, ha, rfl⟩ := List.mem_map.1 har
    obtain ⟨b, hb, he⟩ := List.mem_map.1 hbr
    exact h a ha b hb (he ▸ Rank.le_refl _)
  symm
  unfold ranksOf
  rw [List.map_append, hdisjoint.dedup_append]
  refine eq_mergeSort_of_perm ((List.mergeSort_perm _ _).append (List.mergeSort_perm _ _)) ?_
  rw [List.pairwise_append]
  refine ⟨pairwise_mergeSort _, pairwise_mergeSort _, fun r hr s hs => ?_⟩
  obtain ⟨a, ha, rfl⟩ := mem_ranksOf.1 hr
  obtain ⟨b, hb, rfl⟩ := mem_ranksOf.1 hs
  exact hle a ha b hb

/-- Assignments of which only those of some ranks matter. -/
private theorem foldl_together_congr {as bs : List Assignment} {ranks : List Rank}
    (h : ∀ r ∈ ranks, as.filter (·.index = r) = bs.filter (·.index = r)) (σ : I.Store) :
    ranks.foldl (fun σ r => I.together (as.filter (·.index = r)) σ) σ =
      ranks.foldl (fun σ r => I.together (bs.filter (·.index = r)) σ) σ := by
  induction ranks generalizing σ with
  | nil => rfl
  | cons r rs ih =>
    simp only [List.foldl_cons]
    rw [h r (by simp), ih fun s hs => h s (by simp [hs])]

/-- The assignments of an earlier rank are not among later ones. -/
theorem filter_append_of_mem_left {as bs : List Assignment}
    (h : ∀ a ∈ as, ∀ b ∈ bs, ¬ b.index.le a.index) {r : Rank} (hr : r ∈ ranksOf as) :
    (as ++ bs).filter (·.index = r) = as.filter (·.index = r) := by
  obtain ⟨a, ha, rfl⟩ := mem_ranksOf.1 hr
  have hnone : bs.filter (fun b => decide (b.index = a.index)) = [] := by
    refine List.filter_eq_nil_iff.2 fun b hb he => h a ha b hb ?_
    rw [of_decide_eq_true he]
    exact Rank.le_refl _
  rw [List.filter_append, hnone, List.append_nil]

/-- The assignments of a later rank are not among earlier ones. -/
theorem filter_append_of_mem_right {as bs : List Assignment}
    (h : ∀ a ∈ as, ∀ b ∈ bs, ¬ b.index.le a.index) {r : Rank} (hr : r ∈ ranksOf bs) :
    (as ++ bs).filter (·.index = r) = bs.filter (·.index = r) := by
  obtain ⟨b, hb, rfl⟩ := mem_ranksOf.1 hr
  have hnone : as.filter (fun a => decide (a.index = b.index)) = [] := by
    refine List.filter_eq_nil_iff.2 fun a ha he => h a ha b hb ?_
    rw [of_decide_eq_true he]
    exact Rank.le_refl _
  rw [List.filter_append, hnone, List.nil_append]

/-- **Later assignments** are performed after earlier ones. -/
theorem perform_append {as bs : List Assignment}
    (h : ∀ a ∈ as, ∀ b ∈ bs, ¬ b.index.le a.index) (σ : I.Store) :
    I.perform (as ++ bs) σ = I.perform bs (I.perform as σ) := by
  unfold perform
  rw [ranksOf_append h, List.foldl_append,
    I.foldl_together_congr fun r hr => filter_append_of_mem_left h hr,
    I.foldl_together_congr fun r hr => filter_append_of_mem_right h hr]

/-- A variable that is no target of assignments stays the same. -/
theorem perform_of_ne {as : List Assignment} {x : String}
    (h : ∀ a ∈ as, a.ref.chain?.map (·.root) ≠ some x) (σ : I.Store) : I.perform as σ x = σ x := by
  have hranks : ∀ (ranks : List Rank) (σ : I.Store),
      ranks.foldl (fun σ r => I.together (as.filter (·.index = r)) σ) σ x = σ x := by
    intro ranks
    induction ranks with
    | nil => simp
    | cons r rs ih =>
      intro σ
      rw [List.foldl_cons, ih]
      exact I.foldl_write_of_ne (fun b hb => h b (List.mem_of_mem_filter hb)) σ σ
  exact hranks _ σ

private theorem insertAssignment_perm (a : Assignment) (as : List Assignment) :
    (insertAssignment a as).Perm (a :: as) := by
  induction as with
  | nil => exact .refl _
  | cons b bs ih =>
    rw [insertAssignment]
    split
    · exact .refl _
    · exact (ih.cons b).trans (.swap a b bs)

private theorem sortAssignments_perm (as : List Assignment) : (sortAssignments as).Perm as := by
  induction as with
  | nil => exact .refl _
  | cons a as ih => exact (insertAssignment_perm a _).trans (ih.cons a)

/-- An assignment is put behind others only if their indexes are lower. -/
private theorem filter_insertAssignment (a : Assignment) (as : List Assignment) (r : Rank) :
    (insertAssignment a as).filter (·.index = r) = (a :: as).filter (·.index = r) := by
  induction as with
  | nil => rfl
  | cons b bs ih =>
    rw [insertAssignment]
    split
    · rfl
    · rename_i hlt
      have hne : ¬ (a.index = r ∧ b.index = r) := by
        rintro ⟨rfl, hb⟩
        exact hlt (hb ▸ Rank.le_refl _)
      rw [List.filter_cons, ih]
      by_cases ha : a.index = r
      · by_cases hb : b.index = r
        · exact absurd ⟨ha, hb⟩ hne
        · simp [ha, hb]
      · simp [List.filter_cons, ha]

/-- Sorting by index keeps the order of the assignments of one index. -/
private theorem filter_sortAssignments (as : List Assignment) (r : Rank) :
    (sortAssignments as).filter (·.index = r) = as.filter (·.index = r) := by
  induction as with
  | nil => rfl
  | cons a as ih =>
    rw [sortAssignments, List.foldr_cons, ← sortAssignments, filter_insertAssignment,
      List.filter_cons, List.filter_cons, ih]

/-- **Sorting** assignments by index keeps what they do. -/
theorem perform_sortAssignments (as : List Assignment) (σ : I.Store) :
    I.perform (sortAssignments as) σ = I.perform as σ := by
  have hranks : ranksOf (sortAssignments as) = ranksOf as := by
    refine eq_mergeSort_of_perm ?_ (pairwise_mergeSort _)
    exact (List.mergeSort_perm _ _).trans (((sortAssignments_perm as).map _).dedup)
  unfold perform
  rw [hranks]
  exact I.foldl_together_congr (fun r _ => filter_sortAssignments as r) σ

end Interpretation

/-! ### The next index -/

private theorem le_max_left (r s : Rank) : r.le (r.max s) := by
  unfold Rank.max
  split
  · assumption
  · exact Rank.le_refl r

private theorem le_max_right (r s : Rank) : s.le (r.max s) := by
  unfold Rank.max
  split
  · exact Rank.le_refl s
  · have := Rank.le_total r s
    simp_all

private theorem le_foldl_max (r : Rank) (rs : List Rank) :
    r.le (rs.foldl Rank.max r) ∧ ∀ s ∈ rs, s.le (rs.foldl Rank.max r) := by
  induction rs generalizing r with
  | nil => simp
  | cons t ts ih =>
    obtain ⟨hmax, hts⟩ := ih (r.max t)
    refine ⟨Rank.le_trans (le_max_left r t) hmax, fun s hs => ?_⟩
    rcases List.mem_cons.1 hs with rfl | hs
    · exact Rank.le_trans (le_max_right r s) hmax
    · exact hts s hs

/-- The **next index** is above all indexes so far. -/
theorem not_nextIndex_le {as : List Assignment} {a : Assignment} (ha : a ∈ as) :
    ¬ (nextIndex as).le a.index := by
  cases as with
  | nil => simp at ha
  | cons b bs =>
    simp only [nextIndex, List.map_cons]
    obtain ⟨hb, hbs⟩ := le_foldl_max b.index (bs.map (·.index))
    have hle : a.index.le ((bs.map (·.index)).foldl Rank.max b.index) := by
      rcases List.mem_cons.1 ha with rfl | ha
      · exact hb
      · exact hbs _ (List.mem_map_of_mem ha)
    exact fun h => Rank.not_next_le _ (Rank.le_trans h hle)

end ChartNet
