import Mathlib
import ChartNet.Expr.Draw
import ChartNet.Proofs.Interpretation
import ChartNet.Proofs.Random.Law

/-!
# Sampling

The reference for random assignments: what it means to assign values in which distributions occur.
Every distribution is drawn on its own, from `n` evenly spaced numbers with equal chance, and the
assignments are made by ascending index, those of one index together. The result is a law over
stores.

An **arithmetic** of an interpretation reads numerals as rationals. It also says what the value of
an expression is when its distributions have given numbers, which has to agree with the expression
where numerals stand in their place. Numerals are doubles and a double cannot be every quotient, so
what is needed of them is stated where it is needed (`Arithmetic.Exact`): that the numerals drawn
for a value are read as the quotients they stand for.

`Arithmetic.sample_eq_uniform` is the link to the list of drawn expressions: drawing each
distribution on its own is drawing one of the combinations.
-/

namespace ChartNet

namespace Expr

/-! ### Distributions of an expression -/

/-- The **distributions** of an expression: their bounds, from left to right. -/
def distributions : Expr → List (Float × Float)
  | ident _ | lit _ | array _ => []
  | uniform l u => [(l, u)]
  | unary _ a => a.distributions
  | binary _ a b => a.distributions ++ b.distributions
  | ternary _ a b c => a.distributions ++ (b.distributions ++ c.distributions)
  | quaternary _ a b c d =>
    a.distributions ++ (b.distributions ++ (c.distributions ++ d.distributions))

/-- The expression with **numerals** in place of its distributions, from left to right. -/
def plug : Expr → List Float → Expr
  | ident x, _ => ident x
  | lit v, _ => lit v
  | array v, _ => array v
  | uniform l u, xs => (xs.head?.map real).getD (uniform l u)
  | unary op a, xs => unary op (a.plug xs)
  | binary op a b, xs =>
    let (xs, ys) := xs.splitAt a.distributions.length
    binary op (a.plug xs) (b.plug ys)
  | ternary op a b c, xs =>
    let (xs, ys) := xs.splitAt a.distributions.length
    let (ys, zs) := ys.splitAt b.distributions.length
    ternary op (a.plug xs) (b.plug ys) (c.plug zs)
  | quaternary op a b c d, xs =>
    let (xs, ys) := xs.splitAt a.distributions.length
    let (ys, zs) := ys.splitAt b.distributions.length
    let (zs, ws) := zs.splitAt c.distributions.length
    quaternary op (a.plug xs) (b.plug ys) (c.plug zs) (d.plug ws)

theorem distributions_of_not_isRandom {e : Expr} (h : e.isRandom = false) :
    e.distributions = [] := by
  unfold isRandom at h
  induction e with
  | ident | lit | array => rfl
  | uniform => simp [any, isUniform] at h
  | unary op a ha => simp_all [any, distributions]
  | binary op a b ha hb => simp_all [any, distributions]
  | ternary op a b c ha hb hc => simp_all [any, distributions]
  | quaternary op a b c d ha hb hc hd => simp_all [any, distributions]

@[simp] theorem plug_nil (e : Expr) : e.plug [] = e := by
  induction e with
  | ident | lit | array | uniform => rfl
  | unary op a ha => simp [plug, ha]
  | binary op a b ha hb => simp [plug, ha, hb]
  | ternary op a b c ha hb hc => simp [plug, ha, hb, hc]
  | quaternary op a b c d ha hb hc hd => simp [plug, ha, hb, hc, hd]

/-- The numerals that stand for a distribution. -/
def spaced (n : Nat) (p : Float × Float) : List Float :=
  (List.range n).map fun k => p.1 + (Float.ofNat k * (p.2 - p.1)) / Float.ofNat n

/-- All **combinations** of numerals for some distributions; the first varies slowest. -/
def combinations (n : Nat) : List (Float × Float) → List (List Float)
  | [] => [[]]
  | p :: ps => (spaced n p).flatMap fun x => (combinations n ps).map (x :: ·)

theorem length_combinations (n : Nat) (ps : List (Float × Float)) :
    (combinations n ps).length = n ^ ps.length := by
  induction ps with
  | nil => rfl
  | cons p ps ih =>
    simp [combinations, spaced, List.length_flatMap, ih, pow_succ', Function.comp_def]

theorem length_of_mem_combinations {n : Nat} {ps : List (Float × Float)} {xs : List Float}
    (h : xs ∈ combinations n ps) : xs.length = ps.length := by
  induction ps generalizing xs with
  | nil => simp_all [combinations]
  | cons p ps ih =>
    simp only [combinations, List.mem_flatMap, List.mem_map] at h
    obtain ⟨x, -, ys, hys, rfl⟩ := h
    simp [ih hys]

theorem combinations_append (n : Nat) (ps qs : List (Float × Float)) :
    combinations n (ps ++ qs) =
      (combinations n ps).flatMap fun xs => (combinations n qs).map (xs ++ ·) := by
  induction ps with
  | nil => simp [combinations]
  | cons p ps ih =>
    simp [combinations, ih, List.flatMap_assoc, List.map_flatMap, List.flatMap_map,
      Function.comp_def]

private theorem splitAt_append {xs ys : List Float} {k : Nat} (h : xs.length = k) :
    (xs ++ ys).splitAt k = (xs, ys) := by
  simp [← h]

/-- The drawn expressions are those with **each combination** of numerals. -/
theorem draws_eq_map_plug (n : Nat) (e : Expr) :
    e.draws (.whole n) = (combinations n e.distributions).map e.plug := by
  induction e with
  | ident | lit | array => simp [draws, distributions, combinations, plug]
  | uniform l u =>
    simp only [draws, uniformDraws, distributions, combinations, List.map_singleton, spaced,
      List.flatMap_map, ← List.map_eq_flatMap, List.map_map]
    rfl
  | unary op a ha => simp [draws, distributions, ha, plug]
  | binary op a b ha hb =>
    simp only [draws, distributions, combinations_append, ha, hb, List.map_flatMap,
      List.flatMap_map, List.map_map]
    refine List.flatMap_congr fun xs hxs => List.map_congr_left fun ys _ => ?_
    simp only [Function.comp_apply, plug, splitAt_append (length_of_mem_combinations hxs)]
  | ternary op a b c ha hb hc =>
    simp only [draws, distributions, combinations_append, ha, hb, hc, List.map_flatMap,
      List.flatMap_map, List.map_map]
    refine List.flatMap_congr fun xs hxs => List.flatMap_congr fun ys hys =>
      List.map_congr_left fun zs _ => ?_
    simp only [Function.comp_apply, plug, splitAt_append (length_of_mem_combinations hxs),
      splitAt_append (length_of_mem_combinations hys)]
  | quaternary op a b c d ha hb hc hd =>
    simp only [draws, distributions, combinations_append, ha, hb, hc, hd, List.map_flatMap,
      List.flatMap_map, List.map_map]
    refine List.flatMap_congr fun xs hxs => List.flatMap_congr fun ys hys =>
      List.flatMap_congr fun zs hzs => List.map_congr_left fun ws _ => ?_
    simp only [Function.comp_apply, plug, splitAt_append (length_of_mem_combinations hxs),
      splitAt_append (length_of_mem_combinations hys),
        splitAt_append (length_of_mem_combinations hzs)]

end Expr

namespace Interpretation

/-- Makes an assignment of a **given value**; only the indexes of its target read the store
`before`. -/
def put (I : Interpretation) (before after : I.Store) (a : Assignment) (new : I.Value) : I.Store :=
  match a.ref.chain? with
  | none => after
  | some c =>
    Function.update after c.root
      (if c.indexes.isEmpty then new
        else I.replace (after c.root) (c.indexes.map (I.eval before)) new)

theorem write_eq_put (I : Interpretation) (before after : I.Store) (a : Assignment) :
    I.write before after a = I.put before after a (I.eval before a.value) := rfl

/-- An **arithmetic**: numerals are rational numbers, the weight of a choice is a number, and an
expression has a value for any numbers of its distributions. -/
structure Arithmetic (I : Interpretation) where
  read : Float → ℚ
  weight : I.Value → ℚ
  value : I.Store → Expr → List ℚ → I.Value
  read_one : read 1 = 1
  weight_real : ∀ σ x, weight (I.eval σ (.real x)) = read x
  eval_plug : ∀ σ e xs, xs.length = e.distributions.length →
    I.eval σ (e.plug xs) = value σ e (xs.map read)

namespace Arithmetic

noncomputable section

variable {I : Interpretation} (A : I.Arithmetic) (n : Nat)

/-! ### The reference -/

/-- Numbers for some distributions, each drawn **on its own** and with equal chance from `n` evenly
spaced ones. -/
def drawEach : List (Float × Float) → Law (List ℚ)
  | [] => .certain []
  | (lower, upper) :: rest =>
    (Law.uniform ((List.range n).map fun k : Nat =>
      A.read lower + k * (A.read upper - A.read lower) / n)).bind fun q =>
    (drawEach rest).map (q :: ·)

/-- The law of the **value** of an expression whose distributions are drawn. -/
def sample (σ : I.Store) (e : Expr) : Law I.Value :=
  (A.drawEach n e.distributions).map (A.value σ e)

/-- Assignments made one after another to the store `after`, each with a value **sampled** in the
store `before`. -/
def sampleWrites (before : I.Store) : List Assignment → I.Store → Law I.Store
  | [], after => .certain after
  | a :: as, after => (A.sample n before a.value).bind fun new =>
      sampleWrites before as (I.put before after a new)

/-- The assignments of some indexes, index after index and those of one index together. -/
def sampleRanks (as : List Assignment) : List Rank → I.Store → Law I.Store
  | [], σ => .certain σ
  | r :: rs, σ => (A.sampleWrites n σ (as.filter (·.index = r)) σ).bind (sampleRanks as rs)

/-- The law of the store after assignments are **performed**, with their distributions drawn. -/
def samplePerform (as : List Assignment) (σ : I.Store) : Law I.Store :=
  A.sampleRanks n as (ranksOf as) σ

/-- A **choice** among destinations by their probabilities, each followed by a law of its own. -/
def choose {α : Type} (σ : I.Store) (destinations : List Destination) (law : Destination → Law α) :
    Law α :=
  .mix (destinations.map fun d => (A.weight (I.eval σ d.probability), law d))

/-- The **outcomes** of an edge: a destination is chosen, its assignments are performed with their
distributions drawn, and its location is reached. -/
def outcomes (e : Edge) (σ : I.Store) : Law (Option String × I.Store) :=
  A.choose σ e.destinations fun d => (A.samplePerform n d.assignments σ).map (d.location, ·)

/-! ### Drawn expressions -/

/-- A value is drawn **exactly** if the numerals that stand for its distributions are read as
evenly spaced numbers, and the share of one combination as a quotient. -/
structure Exact (e : Expr) : Prop where
  spaced : ∀ p ∈ e.distributions, ∀ k < n,
    A.read (p.1 + (Float.ofNat k * (p.2 - p.1)) / Float.ofNat n) =
      A.read p.1 + k * (A.read p.2 - A.read p.1) / n
  share : A.read (1 / Float.ofNat (n ^ e.distributions.length)) =
    1 / ((n ^ e.distributions.length : Nat) : ℚ)

variable {A n}

theorem drawEach_eq_uniform {ps : List (Float × Float)}
    (h : ∀ p ∈ ps, ∀ k < n, A.read (p.1 + (Float.ofNat k * (p.2 - p.1)) / Float.ofNat n) =
      A.read p.1 + k * (A.read p.2 - A.read p.1) / n) :
    A.drawEach n ps = .uniform ((Expr.combinations n ps).map (·.map A.read)) := by
  induction ps with
  | nil => simp [drawEach, Expr.combinations, Law.uniform_singleton]
  | cons p ps ih =>
    rw [List.forall_mem_cons] at h
    have hspaced : (List.range n).map (fun k : Nat =>
        A.read p.1 + k * (A.read p.2 - A.read p.1) / n) = (Expr.spaced n p).map A.read := by
      rw [Expr.spaced, List.map_map]
      exact List.map_congr_left fun k hk => (h.1 k (List.mem_range.1 hk)).symm
    rw [drawEach, hspaced, ih h.2]
    simp only [Law.map_uniform]
    rw [Law.uniform_bind_uniform fun q => List.length_map _]
    simp [Expr.combinations, List.map_flatMap, List.flatMap_map, Function.comp_def]

/-- **Drawing each distribution on its own is drawing one of the combinations.** -/
theorem sample_eq_uniform {σ : I.Store} {e : Expr} (h : A.Exact n e) :
    A.sample n σ e = .uniform ((e.draws (.whole n)).map (I.eval σ)) := by
  rw [sample, drawEach_eq_uniform h.spaced, Law.map_uniform, Expr.draws_eq_map_plug, List.map_map,
    List.map_map]
  congr 1
  refine List.map_congr_left fun xs hxs => ?_
  exact (A.eval_plug σ e xs (Expr.length_of_mem_combinations hxs)).symm

/-! ### Values without distributions -/

/-- A value without distributions is **certain**. -/
theorem sample_of_not_isRandom {σ : I.Store} {e : Expr} (h : e.isRandom = false) :
    A.sample n σ e = .certain (I.eval σ e) := by
  have hnone := Expr.distributions_of_not_isRandom h
  have heval := A.eval_plug σ e [] (by rw [hnone]; rfl)
  rw [Expr.plug_nil] at heval
  rw [sample, hnone, drawEach, Law.map_certain, heval, List.map_nil]

private theorem sampleWrites_of_not_isRandom {before : I.Store} {as : List Assignment}
    (h : ∀ a ∈ as, a.value.isRandom = false) (after : I.Store) :
    A.sampleWrites n before as after = .certain (as.foldl (I.write before) after) := by
  induction as generalizing after with
  | nil => rfl
  | cons a as ih =>
    rw [List.forall_mem_cons] at h
    rw [sampleWrites, sample_of_not_isRandom h.1, Law.certain_bind, ih h.2, List.foldl_cons,
      write_eq_put]

/-- Assignments without distributions are performed as they are. -/
theorem samplePerform_of_not_isRandom {as : List Assignment}
    (h : ∀ a ∈ as, a.value.isRandom = false) (σ : I.Store) :
    A.samplePerform n as σ = .certain (I.perform as σ) := by
  unfold samplePerform perform
  generalize ranksOf as = ranks
  induction ranks generalizing σ with
  | nil => rfl
  | cons r rs ih =>
    have hfilter : ∀ a ∈ as.filter (·.index = r), a.value.isRandom = false :=
      fun a ha => h a (List.mem_of_mem_filter ha)
    rw [sampleRanks, sampleWrites_of_not_isRandom hfilter, Law.certain_bind, ih, List.foldl_cons,
      together]

/-! ### Assignments of several indexes -/

private theorem sampleRanks_append (as : List Assignment) (rs ss : List Rank) (σ : I.Store) :
    A.sampleRanks n as (rs ++ ss) σ =
      (A.sampleRanks n as rs σ).bind (A.sampleRanks n as ss) := by
  induction rs generalizing σ with
  | nil => rw [List.nil_append, sampleRanks, Law.certain_bind]
  | cons r rs ih =>
    rw [List.cons_append, sampleRanks, sampleRanks, Law.bind_assoc]
    exact Law.bind_congr ih

private theorem sampleRanks_congr {as bs : List Assignment} {ranks : List Rank}
    (h : ∀ r ∈ ranks, as.filter (·.index = r) = bs.filter (·.index = r)) (σ : I.Store) :
    A.sampleRanks n as ranks σ = A.sampleRanks n bs ranks σ := by
  induction ranks generalizing σ with
  | nil => rfl
  | cons r rs ih =>
    rw [List.forall_mem_cons] at h
    rw [sampleRanks, sampleRanks, h.1]
    exact Law.bind_congr (ih h.2)

/-- **Later assignments** are performed after earlier ones. -/
theorem samplePerform_append {as bs : List Assignment}
    (h : ∀ a ∈ as, ∀ b ∈ bs, ¬ b.index.le a.index) (σ : I.Store) :
    A.samplePerform n (as ++ bs) σ = (A.samplePerform n as σ).bind (A.samplePerform n bs) := by
  rw [samplePerform, ranksOf_append h, sampleRanks_append,
    sampleRanks_congr fun r hr => filter_append_of_mem_left h hr]
  exact Law.bind_congr fun σ' => sampleRanks_congr (fun r hr => filter_append_of_mem_right h hr) σ'

theorem samplePerform_singleton (a : Assignment) (σ : I.Store) :
    A.samplePerform n [a] σ = (A.sample n σ a.value).map (I.put σ σ a) := by
  simp [samplePerform, sampleRanks, sampleWrites, Law.map, Law.bind_assoc]

end

end Arithmetic

end Interpretation

end ChartNet
