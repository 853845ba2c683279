import ChartNet.Proofs.Random.Elimination
import ChartNet.Proofs.Random.Sampling

/-!
# The order of drawn expressions

The expressions that are drawn from an expression are the ordered product over its distributions.
Which value each distribution has is given by **digits**, one for each distribution, and the
expression with these values stands at the position that the digits are written as, to the base of
the number of values (`Expr.draws_product`).
-/

namespace ChartNet

/-- In a list of blocks of one length, the item `j` of the block `i`. -/
theorem getElem?_flatMap_of_length {α β : Type} {l : List α} {f : α → List β} {n i j : Nat}
    (hlength : ∀ a ∈ l, (f a).length = n) (hj : j < n) :
    (l.flatMap f)[n * i + j]? = l[i]?.bind fun a => (f a)[j]? := by
  induction l generalizing i with
  | nil => simp
  | cons a l ih =>
    obtain ⟨ha, hl⟩ := List.forall_mem_cons.1 hlength
    rw [List.flatMap_cons]
    cases i with
    | zero => simp [List.getElem?_append_left, ha, hj]
    | succ i =>
      have hindex : n * (i + 1) + j - (f a).length = n * i + j := by
        rw [ha, Nat.mul_succ]
        omega
      rw [List.getElem?_append_right (by rw [ha, Nat.mul_succ]; omega), hindex, ih hl,
        List.getElem?_cons_succ]

namespace Expr

/-- The value at place `k` of `n` values that are spaced evenly over a distribution. -/
def spacedAt (n k : Nat) (p : Float × Float) : Float :=
  p.1 + (Float.ofNat k * (p.2 - p.1)) / Float.ofNat n

theorem getElem?_spaced {n k : Nat} (hk : k < n) (p : Float × Float) :
    (spaced n p)[k]? = some (spacedAt n k p) := by
  simp [spaced, spacedAt, List.getElem?_range hk]

/-- The combination with given **digits** stands at the position that they are written as. -/
theorem getElem?_combinations {n : Nat} {ks : List Nat} {ps : List (Float × Float)}
    (hlength : ks.length = ps.length) (hks : ∀ k ∈ ks, k < n) :
    (combinations n ps)[Nat.ofDigits n ks.reverse]? = some (List.zipWith (spacedAt n) ks ps) := by
  induction ps generalizing ks with
  | nil =>
    obtain rfl := List.length_eq_zero_iff.1 hlength
    simp [combinations]
  | cons p ps ih =>
    obtain ⟨k, ks, rfl⟩ := List.exists_cons_of_length_eq_add_one hlength
    obtain ⟨hk, hks⟩ := List.forall_mem_cons.1 hks
    have hrest := ih (by simpa using hlength) hks
    -- the digits that follow lead to a position within one block
    have hwithin : Nat.ofDigits n ks.reverse < n ^ ps.length := by
      rw [← length_combinations n ps]
      exact (List.getElem?_eq_some_iff.1 hrest).1
    have hposition : Nat.ofDigits n (k :: ks).reverse =
        n ^ ps.length * k + Nat.ofDigits n ks.reverse := by
      have hks : ks.length = ps.length := by simpa using hlength
      rw [List.reverse_cons, Nat.ofDigits_append, Nat.ofDigits_singleton, List.length_reverse, hks]
      exact Nat.add_comm _ _
    rw [hposition, combinations,
      getElem?_flatMap_of_length (fun x _ => by rw [List.length_map, length_combinations]) hwithin,
      getElem?_spaced hk, Option.bind_some, List.getElem?_map, hrest]
    rfl

/-- **Drawing is the ordered product over the distributions.** With `n` values for each of `d`
distributions there are `n ^ d` expressions, none of them has a distribution, and at the position
written with the digits `k₁ … k_d` to the base `n` stands the expression in which the value of each
distribution is the one at the place that its digit names. -/
theorem draws_product (n : Nat) (e : Expr) :
    (e.draws (.whole n)).length = n ^ e.distributions.length ∧
    (∀ drawn ∈ e.draws (.whole n), drawn.isRandom = false) ∧
    ∀ ks : List Nat, ks.length = e.distributions.length → (∀ k ∈ ks, k < n) →
      (e.draws (.whole n))[Nat.ofDigits n ks.reverse]? =
        some (e.plug (List.zipWith (spacedAt n) ks e.distributions)) := by
  refine ⟨?_, e.isRandom_of_mem_draws (.whole n), fun ks hlength hks => ?_⟩
  · rw [draws_eq_map_plug, List.length_map, length_combinations]
  · rw [draws_eq_map_plug, List.getElem?_map, getElem?_combinations hlength hks]
    rfl

/-- Three distributions with three values each: the digits `1`, `0` and `2` are the position
eleven. -/
theorem draws_product_of_three :
    let e := binary .add (binary .mul (uniform 0 3) (ident "x"))
      (ternary .ite (ident "b") (uniform (-3) 3) (uniform 1 4))
    (∀ k ∈ [1, 0, 2], k < 3) ∧ [1, 0, 2].length = e.distributions.length ∧
      (e.draws (.whole 3))[11]? = some (binary .add (binary .mul (real 1) (ident "x"))
        (ternary .ite (ident "b") (real (-3)) (real 3))) := by
  intro e
  have hplaces : spacedAt 3 1 (0, 3) = 1 ∧ spacedAt 3 0 (-3, 3) = -3 ∧ spacedAt 3 2 (1, 4) = 3 := by
    decide +kernel
  obtain ⟨hone, htwo, hthree⟩ := hplaces
  refine ⟨by decide, rfl, ((draws_product 3 e).2.2 [1, 0, 2] rfl (by decide)).trans ?_⟩
  simp [e, distributions, plug, hone, htwo, hthree]

end Expr

end ChartNet
