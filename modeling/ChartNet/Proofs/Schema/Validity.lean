import ChartNet.Schema
import Mathlib.Data.List.Forall2

/-!
# What schemas find valid

A value is valid for a schema if there is nothing wrong with it. For each kind of schema this is
said in terms of the value, or of the schemas of its parts: a valid list has valid items, and a
choice finds valid what one of its alternatives does.
-/

namespace ChartNet

variable {α β : Type}

/-! ### Valid outcomes -/

namespace Verdict

theorem map_eq_valid {f : α → β} {v : Verdict α} {b : β} :
    v.map f = .valid b ↔ ∃ a, v = .valid a ∧ f a = b := by
  cases v <;> simp [map]

/-- Parts that are read together are valid if both are. -/
theorem seq_eq_valid {f : Verdict (α → β)} {v : Verdict α} {b : β} :
    f.seq v = .valid b ↔ ∃ g a, f = .valid g ∧ v = .valid a ∧ g a = b := by
  cases f <;> cases v <;> simp [seq, map]

theorem addIssues_eq_valid {v : Verdict α} {more : List Issue} {a : α} :
    v.addIssues more = .valid a ↔ v = .valid a ∧ more = [] := by
  unfold addIssues
  cases more with
  | nil => simp
  | cons i is => cases v <;> simp

theorem all_eq_valid {vs : List (Verdict α)} {as : List α} :
    all vs = .valid as ↔ vs = as.map .valid := by
  induction vs generalizing as with
  | nil => cases as <;> simp [all]
  | cons v vs ih =>
    cases as with
    | nil => simp [all, seq_eq_valid, map_eq_valid]
    | cons a as => simp [all, seq_eq_valid, map_eq_valid, ih]

end Verdict

namespace Schema

variable {path : List String}

/-! ### Values without parts -/

theorem text_eq_valid {v : Option Json} {s : String} :
    text path v = .valid s ↔ v = some (.str s) := by
  unfold text
  split
  · simp
  · rename_i hnot
    refine ⟨fun h => ?_, fun hv => absurd hv (hnot s)⟩
    cases v <;> cases h

theorem nonEmpty_eq_valid {message : String} {v : Option Json} {s : String} :
    nonEmpty message path v = .valid s ↔ v = some (.str s) ∧ s ≠ "" := by
  unfold nonEmpty
  split
  · rename_i t
    simp only [checked, Verdict.addIssues_eq_valid, Verdict.valid.injEq, Option.some.injEq,
      Json.str.injEq]
    refine and_congr_right fun ht => ?_
    subst ht
    split <;> simp_all [String.isEmpty_iff]
  · rename_i hnot
    refine ⟨fun h => ?_, fun h => absurd h.1 (hnot s)⟩
    cases v <;> cases h

theorem mem_of_oneOf_eq_valid {cases : List (String × α)} {v : Option Json} {a : α}
    (h : oneOf cases path v = .valid a) : ∃ s, v = some (.str s) ∧ (s, a) ∈ cases := by
  unfold oneOf at h
  split at h
  · rename_i s
    split at h
    · rename_i c hfind
      cases h
      obtain rfl : c.1 = s := by simpa using List.find?_some hfind
      exact ⟨c.1, rfl, List.mem_of_find?_eq_some hfind⟩
    · cases h
  · cases v <;> cases h

theorem exactly_eq_valid {s : String} {v : Option Json} {u : Unit} :
    exactly s path v = .valid u ↔ v = some (.str s) := by
  unfold exactly
  split <;> simp_all [refuse]

theorem number_eq_valid {v : Option Json} {x : Float} :
    number [] path v = .valid x ↔ v = some (.num x) := by
  unfold number
  split
  · simp [checked, Verdict.addIssues]
  · rename_i hnot
    refine ⟨fun h => ?_, fun hv => absurd hv (hnot x)⟩
    cases v <;> cases h

/-! ### Lists and objects -/

/-- A member is read if its value is valid. -/
theorem read_field_eq_valid {key : String} {s : Schema α} {members : List (String × Json)} {a : α} :
    (field key s).read path members = .valid a ↔
      s (path ++ [key]) (Json.lookup key members) = .valid a :=
  Iff.rfl

@[simp] theorem keys_field (key : String) (s : Schema α) : (field key s).keys = [key] := rfl

@[simp] theorem keys_map (f : α → β) (x : Fields α) : (f <$> x).keys = x.keys := rfl

@[simp] theorem keys_seq (f : Fields (α → β)) (x : Fields α) : (f <*> x).keys = f.keys ++ x.keys :=
  rfl

theorem pair_number_eq_valid {v : Option Json} {r : Float × Float} :
    pair (number []) (number []) path v = .valid r ↔ v = some (.arr [.num r.1, .num r.2]) := by
  unfold pair
  split
  · rename_i a b rest
    simp only [Verdict.seq_eq_valid, Verdict.addIssues_eq_valid, number_eq_valid, Option.some.injEq]
    constructor
    · rintro ⟨g, y, ⟨f, x, ⟨hf, hlong⟩, rfl, rfl⟩, rfl, rfl⟩
      cases hf
      cases rest with
      | nil => rfl
      | cons c cs => cases hlong
    · intro h
      cases h
      exact ⟨_, _, ⟨_, _, ⟨rfl, rfl⟩, rfl, rfl⟩, rfl, rfl⟩
  · rename_i hshort
    simpa [refuse] using hshort (.num r.1) (.num r.2) []
  · rename_i hnot
    refine ⟨fun h => ?_, fun hv => absurd hv (hnot _)⟩
    cases v <;> cases h

theorem read_map_eq_valid {f : α → β} {x : Fields α} {path : List String}
    {members : List (String × Json)} {b : β} :
    (f <$> x).read path members = .valid b ↔ ∃ a, x.read path members = .valid a ∧ f a = b := by
  change (Verdict.valid f).seq (x.read path members) = .valid b ↔ _
  rw [Verdict.seq, Verdict.map_eq_valid]

theorem read_seq_eq_valid {f : Fields (α → β)} {x : Fields α} {path : List String}
    {members : List (String × Json)} {b : β} :
    (f <*> x).read path members = .valid b ↔
      ∃ g a, f.read path members = .valid g ∧ x.read path members = .valid a ∧ g a = b :=
  Verdict.seq_eq_valid

theorem refine_eq_valid {message : String} {condition : α → Bool} {s : Schema α} {v : Option Json}
    {a : α} :
    refine message condition s path v = .valid a ↔ s path v = .valid a ∧ condition a = true := by
  unfold refine
  cases hs : s path v with
  | valid b =>
    simp only [Verdict.value?, Verdict.addIssues_eq_valid, Verdict.valid.injEq]
    refine and_congr_right fun hb => ?_
    subst hb
    simp
  | flawed b issues => simp [Verdict.value?, Verdict.addIssues_eq_valid]
  | refused issues => simp [Verdict.value?]

/-- A choice finds valid what one of its alternatives does. -/
theorem exists_of_choice_eq_valid {alternatives : List (Schema α)} {path : List String}
    {v : Option Json} {a : α} (h : choice alternatives path v = .valid a) :
    ∃ s ∈ alternatives, s path v = .valid a := by
  suffices hfirst : ∀ flawed : Option (Verdict α), (∀ b, flawed ≠ some (.valid b)) →
      firstOf path v flawed alternatives = .valid a → ∃ s ∈ alternatives, s path v = .valid a from
    hfirst none (by simp) h
  clear h
  induction alternatives with
  | nil =>
    rintro (_ | flawed) hflawed h
    · simp [firstOf, refuse] at h
    · exact absurd (congrArg some h) (hflawed a)
  | cons s ss ih =>
    intro flawed hflawed h
    rw [firstOf] at h
    split at h
    · next b hs => exact ⟨s, List.mem_cons_self, hs.trans h⟩
    · next b issues hs =>
      obtain ⟨t, ht, hvalid⟩ := ih _ (by cases flawed <;> simp_all) h
      exact ⟨t, List.mem_cons_of_mem _ ht, hvalid⟩
    · obtain ⟨t, ht, hvalid⟩ := ih _ hflawed h
      exact ⟨t, List.mem_cons_of_mem _ ht, hvalid⟩

/-- An object is valid if its members are read. -/
theorem object_eq_valid {fields : Fields α} {v : Option Json} {a : α} :
    object fields path v = .valid a ↔
      ∃ members, v = some (.obj members) ∧ fields.read path members = .valid a := by
  unfold object
  split
  · simp
  · rename_i hnot
    refine ⟨fun h => ?_, fun ⟨members, hv, _⟩ => absurd hv (hnot members)⟩
    cases v <;> cases h

/-- A list is valid if each of its items is. -/
theorem forall₂_of_list_eq_valid {s : Schema α} {least : Nat} {v : Option Json}
    {as : List α} (h : list s least path v = .valid as) :
    ∃ js, v = some (.arr js) ∧
      List.Forall₂ (fun j a => ∃ path, s path (some j) = .valid a) js as := by
  have hitems : ∀ {js : List Json} {as : List α} {i : Nat}, items s path i js = as.map .valid →
      List.Forall₂ (fun j a => ∃ path, s path (some j) = .valid a) js as := by
    intro js as i hjs
    induction js generalizing as i with
    | nil =>
      cases as with
      | nil => exact .nil
      | cons a as => cases hjs
    | cons j js ih =>
      cases as with
      | nil => cases hjs
      | cons a as =>
        obtain ⟨hj, hrest⟩ := List.cons.inj hjs
        exact .cons ⟨_, hj⟩ (ih hrest)
  unfold list at h
  split at h
  · rename_i js
    obtain ⟨g, bs, hg, hbs, rfl⟩ := Verdict.seq_eq_valid.1 h
    obtain ⟨hg, -⟩ := Verdict.addIssues_eq_valid.1 hg
    cases hg
    exact ⟨js, rfl, hitems (Verdict.all_eq_valid.1 hbs)⟩
  · cases v <;> cases h

theorem strictObject_eq_valid {fields : Fields α} {v : Option Json} {a : α} :
    strictObject fields path v = .valid a ↔ ∃ members, v = some (.obj members) ∧
      fields.read path members = .valid a ∧ ∀ m ∈ members, m.1 ∈ fields.keys := by
  unfold strictObject
  split
  · rename_i members
    have hknown : unknownKeys fields members = [] ↔ ∀ m ∈ members, m.1 ∈ fields.keys := by
      simp [unknownKeys, List.filter_eq_nil_iff]
    simp only [Verdict.addIssues_eq_valid, Option.some.injEq, Json.obj.injEq, exists_eq_left',
      ← hknown, List.isEmpty_iff]
    split <;> simp_all
  · rename_i hnot
    refine ⟨fun h => ?_, fun ⟨members, hv, _⟩ => absurd hv (hnot members)⟩
    cases v <;> cases h

/-- The further members of an object are valid if it is. -/
theorem forall_of_openObject_eq_valid {fields : Fields α} {further : Schema β} {v : Option Json}
    {r : α × List (String × β)} (h : openObject fields further path v = .valid r) :
    ∃ members, v = some (.obj members) ∧ fields.read path members = .valid r.1 ∧
      ∀ m ∈ members, m.1 ∉ fields.keys → ∃ path b, further path (some m.2) = .valid b := by
  have hvalues : ∀ {members : List (String × Json)} {bs : List (String × β)},
      values further path members = bs.map .valid →
      ∀ m ∈ members, ∃ path b, further path (some m.2) = .valid b := by
    intro members bs h
    induction members generalizing bs with
    | nil => simp
    | cons m ms ih =>
      cases bs with
      | nil => cases h
      | cons b bs =>
        obtain ⟨hm, hrest⟩ := List.cons.inj h
        obtain ⟨b, hb, -⟩ := Verdict.map_eq_valid.1 hm
        exact List.forall_mem_cons.2 ⟨⟨_, b, hb⟩, ih hrest⟩
  unfold openObject at h
  split at h
  · rename_i members
    obtain ⟨g, bs, hg, hbs, rfl⟩ := Verdict.seq_eq_valid.1 h
    obtain ⟨a, ha, rfl⟩ := Verdict.map_eq_valid.1 hg
    refine ⟨members, rfl, ha, fun m hm hkey => ?_⟩
    exact hvalues (Verdict.all_eq_valid.1 hbs) m (List.mem_filter.2 ⟨hm, by simpa using hkey⟩)
  · cases v <;> cases h

/-- An object told apart by one member is valid in the form of its word. -/
theorem tagged_eq_valid {key : String} {forms : List (String × Schema α)}
    {v : Option Json} {a : α} :
    tagged key forms path v = .valid a ↔ ∃ members word c, v = some (.obj members) ∧
      Json.lookup key members = some (.str word) ∧ forms.find? (·.1 == word) = some c ∧
        c.2 path v = .valid a := by
  cases v with
  | none => simp [tagged, mismatch, refuse]
  | some j =>
    cases j with
    | obj members =>
      cases hkey : Json.lookup key members with
      | none => simp [tagged, hkey, refuse]
      | some w =>
        cases w with
        | str word =>
          cases hc : forms.find? (·.1 == word) with
          | none => simp [tagged, hkey, hc, refuse]
          | some c => simp [tagged, hkey, hc, -Prod.exists]
        | _ => simp [tagged, hkey, refuse]
    | _ => simp [tagged, mismatch, refuse]

/-- A value that may be absent is valid if it is, or is absent. -/
theorem optional_eq_valid {s : Schema α} {v : Option Json} {o : Option α} :
    optional s path v = .valid o ↔
      (v = none ∧ o = none) ∨ ∃ j a, v = some j ∧ s path v = .valid a ∧ o = some a := by
  unfold optional
  split
  · simp [eq_comm]
  · rename_i hne
    obtain ⟨j, rfl⟩ := Option.ne_none_iff_exists'.1 hne
    simp [Verdict.map_eq_valid, eq_comm]

end Schema

end ChartNet
