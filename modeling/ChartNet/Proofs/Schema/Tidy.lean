import ChartNet.Chart.Schema
import Mathlib.Logic.Relation
import Mathlib.Tactic.SplitIfs

/-!
# The tidy form of a chart's JSON

Each part of a chart is an object with members that the schema knows, in the order in which the
schema lists them. The **tidy form** of a value has, in every part, the known members only, and in
that order. It does not tell apart values that differ by **edits**: members that the schema does
not know come and go, and members of different names change places.
-/

namespace ChartNet

/-- The **parts** of a chart that are objects. -/
inductive ChartPart where
  | chart
  | data
  | state
  | transition
  | target
  | step
  | branch
  | param

/-- Names of members, each with the part that its items are if it is a list of parts. -/
abbrev KnownMembers := List (String × Option ChartPart)

namespace ChartPart

/-- The members that the schema knows in a step of the given kind, besides the kind itself. -/
def knownInStep (kind : String) : KnownMembers :=
  if kind = "assign" then [("location", none), ("expr", none)]
  else if kind = "send" then [("event", none), ("params", some .param)]
  else if kind = "if" then [("branches", some .branch), ("else", some .step)]
  else []

/-- The members that the schema **knows** in a part, in its order. What it knows in a step depends
on the kind that is found among the given members. -/
def known (members : List (String × Json)) : ChartPart → KnownMembers
  | chart =>
    [("name", none), ("kind", none), ("initial", none), ("datamodel", some data),
      ("states", some state)]
  | data =>
    [("id", none), ("type", none), ("expr", none), ("lowerBound", none), ("upperBound", none)]
  | state =>
    [("id", none), ("onEntry", some step), ("onExit", some step), ("transitions", some transition)]
  | transition =>
    [("event", none), ("cond", none), ("target", none), ("body", some step),
      ("targets", some target)]
  | target => [("target", none), ("prob", none), ("body", some step)]
  | step =>
    match Json.lookup "kind" members with
    | some (.str kind) => ("kind", none) :: knownInStep kind
    | _ => [("kind", none)]
  | branch => [("cond", none), ("body", some step)]
  | param => [("name", none), ("expr", none)]

/-- The known members of a part have different names. -/
theorem nodup_known (members : List (String × Json)) (p : ChartPart) :
    ((p.known members).map (·.1)).Nodup := by
  cases p
  case step =>
    rw [known]
    split
    · rw [knownInStep]
      split_ifs <;> decide
    · decide
  all_goals exact of_decide_eq_true rfl

/-- What is known in a step of a kind. -/
theorem known_step {members : List (String × Json)} {kind : String}
    (h : Json.lookup "kind" members = some (.str kind)) :
    step.known members = ("kind", none) :: knownInStep kind := by
  rw [known, h]

/-- The kind of a step is known. -/
theorem kind_mem_known (members : List (String × Json)) : ("kind", none) ∈ step.known members := by
  rw [known]
  split <;> exact List.mem_cons_self

/-- What is known in a part depends on the kind of a step only. -/
theorem known_congr {members others : List (String × Json)} {p : ChartPart}
    (h : ∀ m ∈ p.known members, m.2 = none → Json.lookup m.1 members = Json.lookup m.1 others) :
    p.known members = p.known others := by
  cases p
  case step => rw [known, known, ← h _ (kind_mem_known members) rfl]
  all_goals rfl

end ChartPart

/-- In a list of members with different names, each is found under its name. -/
theorem KnownMembers.lookup_eq_some {known : KnownMembers} (hnodup : (known.map (·.1)).Nodup)
    {m : String × Option ChartPart} (hm : m ∈ known) : known.lookup m.1 = some m.2 := by
  induction known with
  | nil => cases hm
  | cons k ks ih =>
    rw [List.map_cons, List.nodup_cons] at hnodup
    rcases List.mem_cons.1 hm with rfl | hks
    · rw [List.lookup_cons_self]
    · have hne : m.1 ≠ k.1 := fun h => hnodup.1 (h ▸ List.mem_map_of_mem hks)
      rw [List.lookup_cons, beq_false_of_ne hne]
      exact ih hnodup.2 hks

namespace Json

/-! ### Looking up names -/

theorem lookup_cons (name : String) (m : String × Json) (members : List (String × Json)) :
    lookup name (m :: members) = if m.1 = name then some m.2 else lookup name members := by
  by_cases h : m.1 = name <;> simp [lookup, h]

/-- What is found among members is the same if other members stand before them. -/
theorem map_lookup_append {α : Type} {f : Json → α} {name : String}
    (before : List (String × Json)) {members others : List (String × Json)}
    (h : (lookup name members).map f = (lookup name others).map f) :
    (lookup name (before ++ members)).map f = (lookup name (before ++ others)).map f := by
  induction before with
  | nil => exact h
  | cons m ms ih =>
    rw [List.cons_append, List.cons_append, lookup_cons, lookup_cons]
    split_ifs
    · rfl
    · exact ih

/-! ### The tidy form -/

mutual

/-- The **tidy form** of a value that stands for a part of a chart. -/
def tidy (p : ChartPart) : Json → Json
  | .obj members =>
    .fields ((p.known members).map fun m =>
      (m.1, lookup m.1 (tidyMembers (p.known members) members)))
  | j => j

/-- The members with their lists of parts in the tidy form. -/
def tidyMembers (known : KnownMembers) : List (String × Json) → List (String × Json)
  | [] => []
  | (name, j) :: members =>
    (name, tidyContent (known.lookup name).join j) :: tidyMembers known members

/-- The tidy form of a value whose items, if it is a list, stand for the given part. -/
def tidyContent (part : Option ChartPart) : Json → Json
  | .arr items =>
    match part with
    | some p => .arr (tidyItems p items)
    | none => .arr items
  | j => j

/-- The tidy forms of the items of a list. -/
def tidyItems (p : ChartPart) : List Json → List Json
  | [] => []
  | j :: js => j.tidy p :: tidyItems p js

end

@[simp] theorem tidyContent_none : tidyContent none = id :=
  funext fun j => by cases j <;> rfl

theorem tidyItems_eq_map (p : ChartPart) (items : List Json) :
    tidyItems p items = items.map (tidy p) := by
  induction items with
  | nil => rw [tidyItems, List.map_nil]
  | cons j js ih => rw [tidyItems, ih, List.map_cons]

@[simp] theorem tidyContent_arr (p : ChartPart) (items : List Json) :
    (arr items).tidyContent (some p) = .arr (items.map (tidy p)) := by
  rw [tidyContent, tidyItems_eq_map]

theorem lookup_tidyMembers (known : KnownMembers) (name : String)
    (members : List (String × Json)) :
    lookup name (tidyMembers known members) =
      (lookup name members).map (tidyContent (known.lookup name).join) := by
  induction members with
  | nil => rw [tidyMembers]; rfl
  | cons m ms ih =>
    obtain ⟨other, j⟩ := m
    rw [tidyMembers, lookup_cons, lookup_cons, ih]
    by_cases h : other = name
    · subst h
      simp
    · simp [h]

/-- The tidy form of an object has what is found under the known names. -/
theorem tidy_obj (p : ChartPart) (members : List (String × Json)) :
    (obj members).tidy p =
      .fields ((p.known members).map fun m =>
        (m.1, (lookup m.1 members).map (tidyContent m.2))) := by
  rw [tidy]
  congr 1
  refine List.map_congr_left fun m hm => ?_
  rw [lookup_tidyMembers, KnownMembers.lookup_eq_some (p.nodup_known members) hm, Option.join_some]

/-- Objects in which the same is found under each known name have one tidy form. -/
theorem tidy_obj_congr {p : ChartPart} {members others : List (String × Json)}
    (h : ∀ m ∈ p.known members, (lookup m.1 members).map (tidyContent m.2) =
      (lookup m.1 others).map (tidyContent m.2)) :
    (obj members).tidy p = (obj others).tidy p := by
  have hknown : p.known members = p.known others := by
    refine ChartPart.known_congr fun m hm hnone => ?_
    have hm := h m hm
    rw [hnone] at hm
    simpa using hm
  rw [tidy_obj, tidy_obj, ← hknown]
  congr 1
  exact List.map_congr_left fun m hm => by rw [h m hm]

/-! ### Edits -/

/-- An **edit** of a value that stands for a part of a chart: a member that the schema does not
know is dropped, two neighbouring members of different names change places, or an item of a known
list of parts is edited. -/
inductive Edit : ChartPart → Json → Json → Prop
  | drop {p : ChartPart} {before after : List (String × Json)} {m : String × Json}
    (h : m.1 ∉ (p.known (before ++ m :: after)).map (·.1)) :
    Edit p (.obj (before ++ m :: after)) (.obj (before ++ after))
  | swap {p : ChartPart} {before after : List (String × Json)} {m n : String × Json}
    (h : m.1 ≠ n.1) :
    Edit p (.obj (before ++ m :: n :: after)) (.obj (before ++ n :: m :: after))
  | inside {p q : ChartPart} {before after : List (String × Json)} {name : String}
    {front back : List Json} {j k : Json}
    (h : (name, some q) ∈ p.known (before ++ (name, .arr (front ++ j :: back)) :: after))
    (edit : Edit q j k) :
    Edit p (.obj (before ++ (name, .arr (front ++ j :: back)) :: after))
      (.obj (before ++ (name, .arr (front ++ k :: back)) :: after))

/-- Two values that stand for a part of a chart are **the same up to edits**, made on either of
them. -/
def SameUpToEdits (p : ChartPart) : Json → Json → Prop :=
  Relation.EqvGen (Edit p)

/-- Edits of an item of a known list of parts are edits of the part that has the list. -/
theorem SameUpToEdits.inside {p q : ChartPart} {before after : List (String × Json)}
    {name : String} {front back : List Json} {j k : Json}
    (h : ∀ i, (name, some q) ∈ p.known (before ++ (name, .arr (front ++ i :: back)) :: after))
    (hjk : SameUpToEdits q j k) :
    SameUpToEdits p (.obj (before ++ (name, .arr (front ++ j :: back)) :: after))
      (.obj (before ++ (name, .arr (front ++ k :: back)) :: after)) := by
  induction hjk with
  | rel j k hjk => exact .rel _ _ (.inside (h j) hjk)
  | refl j => exact .refl _
  | symm j k _ ih => exact ih.symm
  | trans i j k _ _ ih ih' => exact ih.trans _ _ _ ih'

/-- An edit keeps the tidy form. -/
theorem Edit.tidy_eq {p : ChartPart} {j k : Json} (h : Edit p j k) : j.tidy p = k.tidy p := by
  induction h with
  | @drop p before after m h =>
    refine tidy_obj_congr fun n hn => map_lookup_append before ?_
    have hne : m.1 ≠ n.1 := fun he => h (he ▸ List.mem_map_of_mem hn)
    rw [lookup_cons, if_neg hne]
  | @swap p before after m n h =>
    refine tidy_obj_congr fun other _ => map_lookup_append before ?_
    simp only [lookup_cons]
    split_ifs with hm hn
    · exact absurd (hm.trans hn.symm) h
    all_goals rfl
  | @inside p q before after name front back j k h _ ih =>
    refine tidy_obj_congr fun n hn => map_lookup_append before ?_
    rw [lookup_cons, lookup_cons]
    split_ifs with hname
    · -- The name is known once, so that what is found under it is the edited list of parts.
      have hnodup := p.nodup_known (before ++ (name, .arr (front ++ j :: back)) :: after)
      have hfound := KnownMembers.lookup_eq_some hnodup hn
      rw [← hname, KnownMembers.lookup_eq_some hnodup h] at hfound
      rw [← Option.some.inj hfound]
      simp [ih]
    · rfl

/-- Values that are the same up to edits have one tidy form. -/
theorem SameUpToEdits.tidy_eq {p : ChartPart} {j k : Json} (h : SameUpToEdits p j k) :
    j.tidy p = k.tidy p := by
  induction h with
  | rel j k h => exact h.tidy_eq
  | refl j => rfl
  | symm j k _ ih => exact ih.symm
  | trans i j k _ _ ih ih' => exact ih.trans ih'

end Json

end ChartNet
