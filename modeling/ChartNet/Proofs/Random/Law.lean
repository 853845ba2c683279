import Mathlib

/-!
# Laws

A **law** gives finitely many outcomes a rational weight each. Laws are mixed, and an outcome may
lead to a further law; both are linear, so a law of laws never has to be taken apart outcome by
outcome. Nothing is normalised: whether the weights of a law sum to one is no concern of its
meaning.
-/

namespace ChartNet

/-- A **law** over outcomes: their weights, of which only finitely many are not zero. -/
abbrev Law (α : Type) : Type := α →₀ ℚ

namespace Law

noncomputable section

variable {α β γ : Type}

/-- The law of one certain outcome. -/
def certain (a : α) : Law α := Finsupp.single a 1

/-- The **mixture** of laws, each with a weight. -/
def mix (parts : List (ℚ × Law α)) : Law α := (parts.map fun p => p.1 • p.2).sum

/-- The law of a choice in two steps: the outcome of the first decides the law of the second. -/
def bind (law : Law α) (f : α → Law β) : Law β := Finsupp.linearCombination ℚ f law

/-- The law of what is made of an outcome. -/
def map (f : α → β) (law : Law α) : Law β := law.bind fun a => certain (f a)

/-- Entries of a list with **equal chance**. -/
def uniform (options : List α) : Law α :=
  mix (options.map fun a => (1 / (options.length : ℚ), certain a))

@[simp] theorem certain_bind (a : α) (f : α → Law β) : (certain a).bind f = f a := by
  simp [bind, certain]

@[simp] theorem map_certain (f : α → β) (a : α) : (certain a).map f = certain (f a) :=
  certain_bind _ _

/-- A mixture is taken apart by what follows it. -/
theorem mix_bind (parts : List (ℚ × Law α)) (f : α → Law β) :
    (mix parts).bind f = mix (parts.map fun p => (p.1, p.2.bind f)) := by
  simp only [mix, bind, map_list_sum, List.map_map]
  congr 1
  refine List.map_congr_left fun p _ => ?_
  simp

theorem bind_assoc (law : Law α) (f : α → Law β) (g : β → Law γ) :
    (law.bind f).bind g = law.bind fun a => (f a).bind g := by
  induction law using Finsupp.induction_linear with
  | zero => simp [bind]
  | add law law' h h' => simpa only [bind, map_add] using congrArg₂ (· + ·) h h'
  | single a w => simp [bind]

theorem bind_congr {law : Law α} {f g : α → Law β} (h : ∀ a, f a = g a) :
    law.bind f = law.bind g := by
  rw [funext h]

theorem bind_map (law : Law α) (f : α → Law β) (g : β → γ) :
    (law.bind f).map g = law.bind fun a => (f a).map g :=
  bind_assoc law f fun b => certain (g b)

theorem map_bind (law : Law α) (f : α → β) (g : β → Law γ) :
    (law.map f).bind g = law.bind fun a => g (f a) := by
  rw [map, bind_assoc]
  exact bind_congr fun a => certain_bind _ _

theorem mix_singleton_one (law : Law α) : mix [(1, law)] = law := by simp [mix]

/-! ### Equal chances -/

theorem uniform_singleton (a : α) : uniform [a] = certain a := by
  simp [uniform, mix_singleton_one]

theorem uniform_bind (options : List α) (f : α → Law β) :
    (uniform options).bind f = mix (options.map fun a => (1 / (options.length : ℚ), f a)) := by
  rw [uniform, mix_bind, List.map_map]
  simp only [Function.comp_def, certain_bind]

theorem map_uniform (f : α → β) (options : List α) :
    (uniform options).map f = uniform (options.map f) := by
  rw [map, uniform_bind, uniform, List.map_map, List.length_map]
  rfl

theorem mix_append (parts parts' : List (ℚ × Law α)) :
    mix (parts ++ parts') = mix parts + mix parts' := by
  simp [mix]

/-- A scaled mixture scales its weights. -/
private theorem smul_mix (w : ℚ) (parts : List (ℚ × Law α)) :
    w • mix parts = mix (parts.map fun p => (w * p.1, p.2)) := by
  rw [mix, mix, List.smul_sum, List.map_map, List.map_map]
  congr 1
  refine List.map_congr_left fun p _ => ?_
  simp [mul_smul]

/-- Equal chances in two steps are **equal chances** of all combinations, if the second step has the
same number of options whatever the first gave. -/
theorem uniform_bind_uniform {options : List α} {f : α → List β} {m : Nat}
    (hm : ∀ a, (f a).length = m) :
    (uniform options).bind (fun a => uniform (f a)) = uniform (options.flatMap f) := by
  have hweight : 1 / ((options.flatMap f).length : ℚ) =
      1 / (options.length : ℚ) * (1 / (m : ℚ)) := by
    have hlength : (options.flatMap f).length = options.length * m := by
      simp [List.length_flatMap, hm]
    rw [hlength, Nat.cast_mul, one_div_mul_one_div]
  rw [uniform_bind, uniform, hweight]
  -- The weight of an option no longer depends on the list, which can now be taken apart.
  clear hweight
  generalize 1 / (options.length : ℚ) = w
  induction options with
  | nil => rfl
  | cons a options ih =>
    have hhead : w • uniform (f a) = mix ((f a).map fun b => (w * (1 / (m : ℚ)), certain b)) := by
      rw [uniform, smul_mix, List.map_map, hm]
      rfl
    have hcons : mix ((a :: options).map fun a => (w, uniform (f a))) =
        w • uniform (f a) + mix (options.map fun a => (w, uniform (f a))) := by
      simp [mix]
    rw [hcons, ih, List.flatMap_cons, List.map_append, mix_append, hhead]

end

end Law

end ChartNet
