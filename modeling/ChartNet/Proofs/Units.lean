import Mathlib
import ChartNet.Text.Units

/-!
# The order by units

The units of characters form a prefix code: a unit of a pair is not the one unit of any character.
So a text is determined by its units, the order by units is antisymmetric, and distinct names that
are sorted by it increase **strictly**.
-/

namespace ChartNet.Text

/-- The units of a character are no beginning of those of another one. -/
theorem unitsOf_append_inj {c d : Char} {us vs : List Nat}
    (h : unitsOf c ++ us = unitsOf d ++ vs) : c = d ∧ us = vs := by
  have hvalid : ∀ c : Char, c.toNat < 0xD800 ∨ 0xDFFF < c.toNat ∧ c.toNat < 0x110000 :=
    fun c => c.valid
  have hc := hvalid c
  have hd := hvalid d
  have heq : c.toNat = d.toNat ∧ us = vs := by
    unfold unitsOf at h
    split at h <;> split at h <;>
      simp only [List.cons_append, List.nil_append, List.cons.injEq] at h
    · exact h
    · omega
    · omega
    · exact ⟨by omega, h.2.2⟩
  exact ⟨Char.toNat_inj.1 heq.1, heq.2⟩

/-- **A text is determined by its units.** -/
theorem units_injective : Function.Injective units := by
  have hlists : ∀ cs ds : List Char, cs.flatMap unitsOf = ds.flatMap unitsOf → cs = ds := by
    have hne : ∀ (c : Char) (us : List Nat), unitsOf c ++ us ≠ [] := by
      intro c us
      unfold unitsOf
      split <;> simp
    intro cs
    induction cs with
    | nil =>
      rintro (_ | ⟨d, ds⟩) h
      · rfl
      · exact absurd h.symm (hne d _)
    | cons c cs ih =>
      rintro (_ | ⟨d, ds⟩) h
      · exact absurd h (hne c _)
      · obtain ⟨rfl, hrest⟩ := unitsOf_append_inj h
        rw [ih ds hrest]
  intro s t h
  exact String.toList_injective (hlists _ _ h)

theorem unitsLe_antisymm {a b : List Nat} (hab : unitsLe a b) (hba : unitsLe b a) : a = b := by
  fun_induction unitsLe a b with
  | case1 b =>
    cases b with
    | nil => rfl
    | cons => simp [unitsLe] at hba
  | case2 => simp at hab
  | case3 m ms n ns ih =>
    simp only [unitsLe, Bool.or_eq_true, Bool.and_eq_true, decide_eq_true_eq, beq_iff_eq] at hab hba
    obtain ⟨rfl, hms⟩ : m = n ∧ unitsLe ms ns := by
      rcases hab with hab | hab
      · omega
      · exact hab
    rw [ih hms (hba.resolve_left (by omega)).2]

/-- A text comes **strictly** before another one in the order by units. -/
def unitLt (a b : String) : Prop := unitLe b a = false

instance (a b : String) : Decidable (unitLt a b) := inferInstanceAs (Decidable (_ = _))

theorem unitLt_iff {a b : String} : unitLt a b ↔ unitLe a b ∧ a ≠ b := by
  unfold unitLt unitLe
  constructor
  · intro h
    refine ⟨by simpa [h] using unitsLe_total (units a) (units b), ?_⟩
    rintro rfl
    simpa [h] using unitsLe_total (units a) (units a)
  · rintro ⟨hle, hne⟩
    exact Bool.eq_false_iff.2 fun hge => hne (units_injective (unitsLe_antisymm hle hge))

theorem mem_sortByUnits {names : List String} {x : String} : x ∈ sortByUnits names ↔ x ∈ names :=
  List.mem_mergeSort

/-- **Distinct names that are sorted increase strictly.** -/
theorem sortByUnits_pairwise {names : List String} (h : names.Nodup) :
    (sortByUnits names).Pairwise unitLt := by
  have hsorted : (sortByUnits names).Pairwise fun a b => unitLe a b :=
    List.pairwise_mergeSort (fun a b c =>
      unitsLe_trans (a := units a) (b := units b) (c := units c))
      (fun a b => unitsLe_total (units a) (units b)) names
  have hnodup : (sortByUnits names).Nodup := (List.mergeSort_perm names unitLe).nodup_iff.2 h
  exact (hsorted.and hnodup).imp unitLt_iff.2

end ChartNet.Text
