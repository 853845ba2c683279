import ChartNet.Proofs.Expr.Form
import ChartNet.Proofs.Schema.Tidy
import Mathlib.Data.List.Forall2

/-!
# Reading the tidy form

The schema of charts reads the same outcome, issues included, from a value and from its tidy form.
Each schema is compared with itself, or, where it has steps inside, with the same schema over steps
nested more or less deep: how deep steps may be nested is taken from the value that is read, and
the tidy form may be less deep. So two schemas are compared up to bounds on the depths of the value
and of its tidy form.
-/

namespace ChartNet

open Schema

variable {α β : Type}

/-! ### Members of the tidy form -/

namespace Json

theorem depth_le_of_lookup {name : String} {members : List (String × Json)} {j : Json}
    (h : lookup name members = some j) : j.depth ≤ depthMembers members := by
  obtain ⟨m, hm, rfl⟩ := Option.map_eq_some_iff.1 h
  exact depth_le_depthMembers (List.mem_of_find?_eq_some hm)

/-- What is found among members that are made from given contents of known names. -/
theorem lookup_filterMap {known : KnownMembers} (content : String → Option Json) {name : String}
    (h : ∀ j, content name = some j → name ∈ known.map (·.1)) :
    lookup name (known.filterMap fun k => (content k.1).map (k.1, ·)) = content name := by
  induction known with
  | nil =>
    cases hj : content name with
    | none => rfl
    | some j => cases h j hj
  | cons k ks ih =>
    rw [List.filterMap_cons]
    by_cases hname : k.1 = name
    · subst hname
      cases hk : content k.1 with
      | none => exact (ih fun j hj => by rw [hk] at hj; cases hj).trans hk
      | some j => rw [Option.map_some, lookup_cons, if_pos rfl]
    · have hrest := ih fun j hj => (List.mem_cons.1 (h j hj)).resolve_left (Ne.symm hname)
      cases hk : content k.1 with
      | none => rw [Option.map_none, hrest]
      | some j => rw [Option.map_some, lookup_cons, if_neg hname, hrest]

/-- The tidy form of an object is an object, in which the tidy form of what was there is found
under each known name. -/
theorem exists_tidy_obj (p : ChartPart) (members : List (String × Json)) :
    ∃ tidied, (obj members).tidy p = obj tidied ∧
      ∀ m ∈ p.known members,
        lookup m.1 tidied = (lookup m.1 members).map (tidyContent m.2) := by
  refine ⟨_, by rw [tidy, fields, List.filterMap_map], fun m hm => ?_⟩
  refine (lookup_filterMap (lookup · (tidyMembers (p.known members) members))
    fun _ _ => List.mem_map_of_mem hm).trans ?_
  rw [lookup_tidyMembers, KnownMembers.lookup_eq_some (p.nodup_known members) hm, Option.join_some]

end Json

/-! ### Schemas that read alike -/

/-- A schema `s` **reads alike** from the tidy forms of values that stand for a part as `s'` from
the values, if the values are less deep than `n` and the tidy forms less deep than `m`. -/
def ReadsPart (p : ChartPart) (n m : Nat) (s s' : Schema α) : Prop :=
  ∀ j : Json, j.depth < n → (j.tidy p).depth < m →
    ∀ path, s path (some (j.tidy p)) = s' path (some j)

/-- The same for the contents of members, which may be absent. -/
def ReadsContent (part : Option ChartPart) (n m : Nat) (s s' : Schema α) : Prop :=
  ∀ v : Option Json, (∀ j, v = some j → j.depth < n) →
    (∀ j, v.map (Json.tidyContent part) = some j → j.depth < m) →
    ∀ path, s path (v.map (Json.tidyContent part)) = s' path v

/-- The same for the members of objects, of which the given ones are known. -/
def ReadsMembers (known : KnownMembers) (n m : Nat) (f f' : Fields α) : Prop :=
  ∀ members tidied : List (String × Json),
    (∀ k ∈ known,
      Json.lookup k.1 tidied = (Json.lookup k.1 members).map (Json.tidyContent k.2)) →
    Json.depthMembers members < n → Json.depthMembers tidied < m →
    ∀ path, f.read path tidied = f'.read path members

section Combinators

variable {p : ChartPart} {part : Option ChartPart} {known : KnownMembers} {n m : Nat}

theorem ReadsPart.map {s s' : Schema α} (h : ReadsPart p n m s s') (f : α → β) :
    ReadsPart p n m (Schema.map f s) (Schema.map f s') := fun j hn hm path =>
  congrArg (Verdict.map f) (h j hn hm path)

/-- A further condition is on what is read, and so the same. -/
theorem ReadsPart.refine {s s' : Schema α} (h : ReadsPart p n m s s') (message : String)
    (condition : α → Bool) :
    ReadsPart p n m (Schema.refine message condition s) (Schema.refine message condition s') := by
  intro j hn hm path
  simp only [Schema.refine, h j hn hm path]

/-- What is not a part, nor a list of parts, is its own tidy form. -/
theorem ReadsContent.plain (s : Schema α) : ReadsContent none n m s s := fun v _ _ path => by
  rw [Json.tidyContent_none, Option.map_id, id]

theorem ReadsContent.optional {s s' : Schema α} (h : ReadsContent part n m s s') :
    ReadsContent part n m (optional s) (optional s') := by
  intro v hn hm path
  cases v with
  | none => rfl
  | some j => exact congrArg (Verdict.map some) (h (some j) hn hm path)

theorem ReadsPart.items {s s' : Schema α} (h : ReadsPart p n m s s') {js : List Json}
    (hn : ∀ j ∈ js, j.depth < n) (hm : ∀ j ∈ js, (j.tidy p).depth < m) (path : List String)
    (i : Nat) : Schema.items s path i (js.map (Json.tidy p)) = Schema.items s' path i js := by
  induction js generalizing i with
  | nil => rfl
  | cons j js ih =>
    rw [List.forall_mem_cons] at hn hm
    rw [List.map_cons, Schema.items, Schema.items, h j hn.1 hm.1, ih hn.2 hm.2]

/-- Lists are read alike if their items are. -/
theorem ReadsPart.list {s s' : Schema α} (h : ReadsPart p n m s s') (least : Nat) :
    ReadsContent (some p) n m (list s least) (list s' least) := by
  intro v hn hm path
  cases v with
  | none => rfl
  | some j =>
    cases j with
    | arr js =>
      have hjs : ∀ j ∈ js, j.depth < n := fun j hj =>
        ((Json.depth_le_depthItems hj).trans (Nat.le_succ _)).trans_lt (hn _ rfl)
      have hjs' : ∀ j ∈ js, (j.tidy p).depth < m := fun j hj =>
        ((Json.depth_le_depthItems (List.mem_map_of_mem hj)).trans (Nat.le_succ _)).trans_lt
          (hm (.arr (js.map (Json.tidy p))) (by rw [Option.map_some, Json.tidyContent_arr]))
      simp only [Option.map_some, Json.tidyContent_arr, Schema.list, List.length_map,
        h.items hjs hjs']
    | _ => rfl

theorem ReadsContent.field {s s' : Schema α} {key : String} (h : ReadsContent part n m s s')
    (hkey : (key, part) ∈ known) : ReadsMembers known n m (field key s) (field key s') := by
  intro members tidied hknown hn hm path
  have hlookup := hknown _ hkey
  refine (congrArg (s (path ++ [key])) hlookup).trans (h _ (fun j hj => ?_) (fun j hj => ?_) _)
  · exact (Json.depth_le_of_lookup hj).trans_lt hn
  · exact (Json.depth_le_of_lookup (hlookup.trans hj)).trans_lt hm

theorem ReadsMembers.map {x x' : Fields α} (h : ReadsMembers known n m x x') (f : α → β) :
    ReadsMembers known n m (f <$> x) (f <$> x') := fun members tidied hknown hn hm path =>
  congrArg (Verdict.seq (.valid f)) (h members tidied hknown hn hm path)

theorem ReadsMembers.seq {f f' : Fields (α → β)} {x x' : Fields α}
    (hf : ReadsMembers known n m f f') (hx : ReadsMembers known n m x x') :
    ReadsMembers known n m (f <*> x) (f' <*> x') := fun members tidied hknown hn hm path =>
  congrArg₂ Verdict.seq (hf members tidied hknown hn hm path) (hx members tidied hknown hn hm path)

/-- Objects are read alike if their members are. -/
theorem ReadsMembers.object {f f' : Fields α} (h : ReadsMembers known n m f f')
    (hknown : ∀ members, p.known members = known) : ReadsPart p n m (object f) (object f') := by
  intro j hn hm path
  cases j with
  | obj members =>
    obtain ⟨tidied, htidied, hlookup⟩ := Json.exists_tidy_obj p members
    rw [htidied] at hm ⊢
    rw [hknown] at hlookup
    exact h members tidied hlookup (Nat.lt_of_succ_lt hn) (Nat.lt_of_succ_lt hm) path
  | _ => rfl

/-- An object told apart by one member is read in the form of its word, if there is one. -/
theorem tagged_eq {key word : String} {cases : List (String × Schema α)}
    {members : List (String × Json)} (h : Json.lookup key members = some (.str word))
    (path : List String) :
    tagged key cases path (some (.obj members)) =
      ((cases.find? (·.1 == word)).map (·.2 path (some (.obj members)))).getD
        (refuse (path ++ [key])
          ("Invalid discriminator value. Expected " ++ alternatives (cases.map (·.1)))) := by
  simp only [tagged, h]
  cases cases.find? (·.1 == word) <;> rfl

/-- Objects told apart by one member are read alike if that member is kept and each form is read
alike where the member is its word. -/
theorem tagged_congr {key : String} {cases cases' : List (String × Schema α)}
    {members tidied : List (String × Json)} {path : List String}
    (hkey : Json.lookup key tidied = Json.lookup key members)
    (h : List.Forall₂ (fun c c' => c.1 = c'.1 ∧ (Json.lookup key members = some (.str c.1) →
      c.2 path (some (.obj tidied)) = c'.2 path (some (.obj members)))) cases cases') :
    tagged key cases path (some (.obj tidied)) = tagged key cases' path (some (.obj members)) := by
  have hwords : cases.map (·.1) = cases'.map (·.1) := by
    induction h with
    | nil => rfl
    | cons hc _ ih => rw [List.map_cons, List.map_cons, hc.1, ih]
  have hform : ∀ word, Json.lookup key members = some (.str word) →
      (cases.find? (·.1 == word)).map (·.2 path (some (.obj tidied))) =
        (cases'.find? (·.1 == word)).map (·.2 path (some (.obj members))) := by
    intro word hword
    clear hwords
    induction h with
    | nil => rfl
    | @cons c c' cs cs' hc _ ih =>
      rw [List.find?_cons, List.find?_cons, ← hc.1]
      cases hbeq : c.1 == word with
      | true => exact congrArg some (hc.2 (by rw [hword, eq_of_beq hbeq]))
      | false => exact ih
  cases hfound : Json.lookup key members with
  | none => simp only [tagged, hkey, hfound, hwords]
  | some j =>
    cases j with
    | str word => rw [tagged_eq (hkey.trans hfound), tagged_eq hfound, hform word hfound, hwords]
    | _ => simp only [tagged, hkey, hfound, hwords]

end Combinators

/-! ### The schema of charts -/

section Parts

variable {n m : Nat}

theorem readsPart_param : ReadsPart .param n m paramSchema paramSchema :=
  ReadsMembers.object
    (((ReadsContent.plain _).field (by simp)).map _ |>.seq ((ReadsContent.plain _).field (by simp)))
    fun _ => rfl

theorem readsPart_branch {inner inner' : Schema Step} (h : ReadsPart .step n m inner inner') :
    ReadsPart .branch n m
      (object (Prod.mk <$> field "cond" sourceSchema <*> field "body" (list inner)))
      (object (Prod.mk <$> field "cond" sourceSchema <*> field "body" (list inner'))) :=
  ReadsMembers.object
    (((ReadsContent.plain _).field (by simp)).map _ |>.seq ((h.list 0).field (by simp)))
    fun _ => rfl

theorem ReadsPart.stepForm {inner inner' : Schema Step} (h : ReadsPart .step n m inner inner') :
    ReadsPart .step (n + 1) (m + 1) (stepForm inner) (stepForm inner') := by
  intro j hn hm path
  cases j with
  | obj members =>
    obtain ⟨tidied, htidied, hlookup⟩ := Json.exists_tidy_obj .step members
    rw [htidied] at hm ⊢
    have hkind : Json.lookup "kind" tidied = Json.lookup "kind" members := by
      have hmem : ("kind", none) ∈ ChartPart.step.known members := ChartPart.kind_mem_known members
      simpa using hlookup _ hmem
    have hform {f f' : Fields Step} {kind : String}
        (hf : ReadsMembers (("kind", none) :: ChartPart.knownInStep kind) n m f f')
        (hword : Json.lookup "kind" members = some (.str kind)) :
        object f path (some (.obj tidied)) = object f' path (some (.obj members)) := by
      refine hf members tidied ?_ (Nat.lt_of_succ_lt_succ hn) (Nat.lt_of_succ_lt_succ hm) path
      exact ChartPart.known_step hword ▸ hlookup
    refine tagged_congr hkind (.cons ⟨rfl, ?_⟩ (.cons ⟨rfl, ?_⟩ (.cons ⟨rfl, ?_⟩ .nil)))
    all_goals
      intro hword
      dsimp only at hword ⊢
      refine hform ?_ hword
    · exact ((ReadsContent.plain _).field (by simp [ChartPart.knownInStep])).map _ |>.seq
        ((ReadsContent.plain _).field (by simp [ChartPart.knownInStep]))
    · exact ((ReadsContent.plain _).field (by simp [ChartPart.knownInStep])).map _ |>.seq
        ((readsPart_param.list 0).optional.field (by simp [ChartPart.knownInStep]))
    · exact (((readsPart_branch h).list 1).field (by simp [ChartPart.knownInStep])).map _ |>.seq
        ((h.list 0).optional.field (by simp [ChartPart.knownInStep]))
  | _ => simp only [Json.tidy, ChartNet.stepForm, tagged]

/-- Steps are read alike from their tidy form, over any two bounds on their nesting. -/
theorem readsPart_step (n m : Nat) :
    ReadsPart .step (n + 1) (m + 1) (stepSchema m) (stepSchema n) := by
  induction n generalizing m with
  | zero =>
    cases m with
    | zero => exact ReadsPart.stepForm fun j hj => absurd hj (Nat.not_lt_zero _)
    | succ m => exact ReadsPart.stepForm fun j hj => absurd hj (Nat.not_lt_zero _)
  | succ n ih =>
    cases m with
    | zero => exact ReadsPart.stepForm fun j _ hj => absurd hj (Nat.not_lt_zero _)
    | succ m => exact (ih m).stepForm

variable (n m : Nat)

/-- Lists of steps that may be absent. -/
theorem readsContent_body :
    ReadsContent (some .step) (n + 1) (m + 1) (bodySchema m) (bodySchema n) :=
  ((readsPart_step n m).list 0).optional

theorem readsPart_target :
    ReadsPart .target (n + 1) (m + 1) (targetSchema m) (targetSchema n) :=
  ReadsMembers.object
    (((ReadsContent.plain _).field (by simp)).map _ |>.seq
      ((ReadsContent.plain _).field (by simp)) |>.seq
      ((readsContent_body n m).field (by simp)))
    fun _ => rfl

theorem readsPart_transition :
    ReadsPart .transition (n + 1) (m + 1) (transitionSchema m) (transitionSchema n) :=
  ReadsMembers.object
    (((ReadsContent.plain _).field (by simp)).map _ |>.seq
      ((ReadsContent.plain _).field (by simp)) |>.seq
      ((ReadsContent.plain _).field (by simp)) |>.seq
      ((readsContent_body n m).field (by simp)) |>.seq
      (((readsPart_target n m).list 1).optional.field (by simp)))
    (fun _ => rfl) |>.refine _ _ |>.refine _ _ |>.map _

theorem readsPart_data : ReadsPart .data n m dataSchema dataSchema :=
  ReadsMembers.object
    (((ReadsContent.plain _).field (by simp)).map _ |>.seq
      ((ReadsContent.plain _).field (by simp)) |>.seq
      ((ReadsContent.plain _).field (by simp)) |>.seq
      ((ReadsContent.plain _).field (by simp)) |>.seq
      ((ReadsContent.plain _).field (by simp)))
    fun _ => rfl

theorem readsPart_state :
    ReadsPart .state (n + 1) (m + 1) (stateSchema m) (stateSchema n) :=
  ReadsMembers.object
    (((ReadsContent.plain _).field (by simp)).map _ |>.seq
      ((readsContent_body n m).field (by simp)) |>.seq
      ((readsContent_body n m).field (by simp)) |>.seq
      (((readsPart_transition n m).list 0).optional.field (by simp)))
    fun _ => rfl

theorem readsPart_chart :
    ReadsPart .chart (n + 1) (m + 1) (chartSchema m) (chartSchema n) :=
  ReadsMembers.object
    (((ReadsContent.plain _).field (by simp)).map _ |>.seq
      ((ReadsContent.plain _).field (by simp)) |>.seq
      ((ReadsContent.plain _).field (by simp)) |>.seq
      (((readsPart_data _ _).list 0).optional.field (by simp)) |>.seq
      (((readsPart_state n m).list 1).field (by simp)))
    fun _ => rfl

end Parts

/-- A chart, or what is wrong with it, is read from the tidy form as from the value itself. -/
theorem Chart.ofJson_tidy (j : Json) : Chart.ofJson (j.tidy .chart) = Chart.ofJson j := by
  have hread := readsPart_chart j.depth (j.tidy .chart).depth j (Nat.lt_succ_self _)
    (Nat.lt_succ_self _) []
  rw [ofJson, ofJson, Schema.read, Schema.read, hread]

end ChartNet
