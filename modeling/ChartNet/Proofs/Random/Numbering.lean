import ChartNet.Proofs.Names
import ChartNet.Proofs.Random.Outcomes

/-!
# Names of edges

The draws of an edge happen at locations that are named by the edge, by the destination and by the
assignment. An edge is named by its **key**, its location and action; edges that share a key get a
number as well. Since a key may be any text, it may be the key of other edges with a number. Then an
edge that has this key for itself is called like the one with that number, and both draw at the same
locations. This is the only way in which two edges come to the same name (`edgeIds_nodup_iff`).
-/

namespace ChartNet

/-! ### Numbered keys -/

/-- A key with a **number**. -/
def numbered (key : String) (k : Nat) : String := key ++ "_" ++ Number.natText k

/-- Lists that end in equal marks and texts without the mark are equal in all parts. -/
theorem append_cons_inj_of_not_mem {α : Type} {c : α} {x y s t : List α} (hs : c ∉ s) (ht : c ∉ t)
    (h : x ++ c :: s = y ++ c :: t) : x = y ∧ s = t := by
  have hend : ∀ z u : List α, u <:+ z ++ c :: u := fun z u => ⟨z ++ [c], by simp⟩
  have hst : s <:+ t := suffix_of_suffix_append_cons (h ▸ hend x s) hs
  have hts : t <:+ s := suffix_of_suffix_append_cons (h.symm ▸ hend y t) ht
  obtain rfl := hst.eq_of_length (Nat.le_antisymm hst.length_le hts.length_le)
  exact ⟨List.append_cancel_right h, rfl⟩

theorem numbered_inj {key key' : String} {i j : Nat} :
    numbered key i = numbered key' j ↔ key = key' ∧ i = j := by
  refine ⟨fun h => ?_, by rintro ⟨rfl, rfl⟩; rfl⟩
  have hlist : key.toList ++ '_' :: (Number.natText i).toList =
      key'.toList ++ '_' :: (Number.natText j).toList := by
    simpa [numbered] using congrArg String.toList h
  obtain ⟨hkey, hnumber⟩ := append_cons_inj_of_not_mem (Number.not_mem_natText (by decide) i)
    (Number.not_mem_natText (by decide) j) hlist
  exact ⟨String.toList_inj.1 hkey, Number.natText_injective (String.toList_inj.1 hnumber)⟩

section Keys

variable {keys : List String} {key : String} {j k : Nat}

/-- The **number** of a place is that of the places before it with the same key. -/
theorem getElem?_numberRepeated (keys : List String) (k : Nat) :
    (numberRepeated keys)[k]? = keys[k]?.map fun key =>
      if keys.count key < 2 then key else numbered key ((keys.take k).count key) := by
  simp [numberRepeated, numbered]

/-- Numbers of one key increase from place to place. -/
theorem count_take_lt (hj : keys[j]? = some key) (hjk : j < k) :
    (keys.take j).count key < (keys.take k).count key := by
  have hprefix : (keys.take (j + 1)).Sublist (keys.take k) :=
    (List.take_prefix_take_left (by omega)).sublist
  calc
    (keys.take j).count key < (keys.take (j + 1)).count key := by
      rw [List.take_add_one, hj]
      simp
    _ ≤ (keys.take k).count key := hprefix.count_le key

theorem count_take_lt_count (hj : keys[j]? = some key) :
    (keys.take j).count key < keys.count key := by
  have hlength := (List.getElem?_eq_some_iff.1 hj).1
  simpa using count_take_lt hj hlength

/-- A key at two places is used twice. -/
theorem two_le_count (hj : keys[j]? = some key) (hk : keys[k]? = some key) (hjk : j < k) :
    2 ≤ keys.count key := by
  have hfirst := count_take_lt hj hjk
  have hsecond := count_take_lt_count hk
  omega

/-- Each number below the count of a key is that of a place. -/
theorem exists_count_take_eq (h : k < keys.count key) :
    ∃ j, keys[j]? = some key ∧ (keys.take j).count key = k := by
  induction keys generalizing k with
  | nil => simp at h
  | cons x keys ih =>
    by_cases hx : x = key
    · subst hx
      cases k with
      | zero => exact ⟨0, by simp⟩
      | succ k =>
        obtain ⟨j, hj, hcount⟩ := ih (k := k) (by simpa using h)
        exact ⟨j + 1, by simpa using hj, by simpa using hcount⟩
    · obtain ⟨j, hj, hcount⟩ := ih (k := k) (by simpa [List.count_cons_of_ne hx] using h)
      exact ⟨j + 1, by simpa using hj, by simpa [List.count_cons_of_ne hx] using hcount⟩

/-- Some key is used once, and is another key, used more often, with one of its **numbers**. -/
def NumberTaken (keys : List String) : Prop :=
  ∃ key k, 2 ≤ keys.count key ∧ k < keys.count key ∧ keys.count (numbered key k) = 1

/-- Keys at two places are named alike only if a number is taken. -/
theorem numberTaken_of_eq (hjk : j < k) (hk : k < keys.length)
    (h : (numberRepeated keys)[j]? = (numberRepeated keys)[k]?) : NumberTaken keys := by
  obtain ⟨x, hx⟩ : ∃ x, keys[j]? = some x := ⟨_, List.getElem?_eq_getElem (hjk.trans hk)⟩
  obtain ⟨y, hy⟩ : ∃ y, keys[k]? = some y := ⟨_, List.getElem?_eq_getElem hk⟩
  have honce : ∀ {i z}, keys[i]? = some z → keys.count z < 2 → keys.count z = 1 := fun hi hlt => by
    have hpos := count_take_lt_count hi
    omega
  rw [getElem?_numberRepeated, getElem?_numberRepeated, hx, hy, Option.map_some, Option.map_some,
    Option.some.injEq] at h
  split at h <;> split at h
  · -- One key at two places would be used twice.
    subst h
    exact absurd (two_le_count hx hy hjk) (by omega)
  · exact ⟨y, _, by omega, count_take_lt_count hy, h ▸ honce hx ‹_›⟩
  · exact ⟨x, _, by omega, count_take_lt_count hx, h.symm ▸ honce hy ‹_›⟩
  · -- One key has different numbers at different places.
    obtain ⟨rfl, hnumber⟩ := numbered_inj.1 h
    exact absurd (count_take_lt hx hjk) (by omega)

/-- **Names are distinct exactly if no number is taken.** -/
theorem nodup_numberRepeated : (numberRepeated keys).Nodup ↔ ¬ NumberTaken keys := by
  have hlength : (numberRepeated keys).length = keys.length := by simp [numberRepeated]
  constructor
  · rintro hnodup ⟨key, k, htwice, hk, honce⟩
    obtain ⟨i, hi, hnumber⟩ := exists_count_take_eq hk
    obtain ⟨j, hj⟩ := List.getElem?_of_mem (List.count_pos_iff.1 (honce ▸ Nat.one_pos))
    have hname : (numberRepeated keys)[i]? = (numberRepeated keys)[j]? := by
      rw [getElem?_numberRepeated, getElem?_numberRepeated, hi, hj, Option.map_some,
        Option.map_some, if_neg (by omega), if_pos (by omega), hnumber]
    have hlt : i < (numberRepeated keys).length := hlength ▸ (List.getElem?_eq_some_iff.1 hi).1
    obtain rfl := (List.getElem?_inj hlt hnodup).1 hname
    obtain hkey := Option.some.inj (hi.symm.trans hj)
    rw [← hkey] at honce
    omega
  · intro hfree
    rw [List.nodup_iff_getElem?_ne_getElem?]
    exact fun j k hjk hk hname => hfree (numberTaken_of_eq hjk (hlength ▸ hk) hname)

end Keys

/-! ### Places of draws -/

/-- Where an edge of a name **draws** for an assignment of a destination. -/
def drawSource (id : String) (d i : Nat) : String :=
  id ++ ("_dest_" ++ Number.natText d) ++ "_expanded_assign_" ++ Number.natText i

/-- Where it **goes on** after that draw. -/
def drawTarget (id : String) (d i : Nat) : String :=
  id ++ ("_dest_" ++ Number.natText d) ++ "_after_assign_" ++ Number.natText i

/-- The first draw on the way to a target is that of the first random assignment. -/
theorem drawAll_append {n : Size} {target id : String} {d : Nat} {before rest : List Assignment}
    {a : Assignment} (hbefore : ∀ b ∈ before, b.value.isRandom = false)
    (ha : a.value.isRandom = true)
    (i : Nat) :
    ∃ continuation es, continuation.location = drawTarget id d (i + before.length) ∧
      drawAll n target id d i (before ++ a :: rest) =
        { assignments := before, location := some (drawSource id d (i + before.length))
          edges := drawEdge n (drawSource id d (i + before.length))
            (drawTarget id d (i + before.length)) a :: continuation :: es } := by
  induction before generalizing i with
  | nil => exact ⟨_, _, rfl, by rw [List.nil_append, drawAll, if_pos ha]; rfl⟩
  | cons b before ih =>
    rw [List.forall_mem_cons] at hbefore
    obtain ⟨continuation, es, hlocation, heq⟩ := ih hbefore.2 (i + 1)
    have hlength : i + (b :: before).length = i + 1 + before.length := by
      rw [List.length_cons]
      omega
    rw [hlength]
    refine ⟨continuation, es, hlocation, ?_⟩
    rw [List.cons_append, drawAll_cons_of_not_isRandom hbefore.1, heq]

/-- Expanding a destination of an edge **opens** two locations for its assignment at a place: the
one at which the value is drawn, and the one from which the edge goes on. The draws behind that are
those of the continuation, an edge with a name of its own. -/
def Edge.Opens (n : Size) (e : Edge) (id : String) (d i : Nat) (source after : String) : Prop :=
  ∃ dest dest' draw continuation es, e.destinations[d]? = some dest ∧
    e.expandDestination n id d dest = .ok (dest', draw :: continuation :: es) ∧
    dest'.assignments.length = i ∧ dest'.location = some source ∧ draw.location = source ∧
    continuation.location = after

/-- The locations that an edge opens are named by it. -/
theorem Edge.Opens.eq {n : Size} {e : Edge} {id : String} {d i : Nat} {source after : String}
    (h : e.Opens n id d i source after) :
    source = drawSource id d i ∧ after = drawTarget id d i := by
  obtain ⟨dest, dest', draw, continuation, es, -, hexpand, rfl, hsource, -, rfl⟩ := h
  rcases Edge.expandDestination_eq_ok.1 hexpand with ⟨-, heq⟩ | ⟨hrandom, target, -, heq⟩
  · simp at heq
  · obtain ⟨a, hfirst⟩ := Option.isSome_iff_exists.1 (List.find?_isSome.2 hrandom)
    obtain ⟨ha, before, rest, hsplit, hbefore⟩ := List.find?_eq_some_iff_append.1 hfirst
    obtain ⟨c, es', hlocation, hdrawn⟩ := @drawAll_append n target id d before rest a
      (fun b hb => by simpa using hbefore b hb) ha 0
    rw [hsplit, hdrawn, Nat.zero_add] at heq
    obtain ⟨hdest, hedges⟩ := Prod.mk.inj heq
    obtain ⟨-, hrest⟩ := List.cons.inj hedges
    rw [hdest] at hsource ⊢
    obtain ⟨rfl, -⟩ := List.cons.inj hrest
    exact ⟨(Option.some.inj hsource).symm, by rw [hlocation, Nat.zero_add]⟩

/-! ### Distinct edges -/

/-- **Names of edges are distinct exactly if no number is taken**: unless the key that one edge has
for itself is a key shared by others with one of their numbers. When names are distinct, draws of
different edges at equal places open different locations. -/
theorem edgeIds_nodup_iff (edges : List Edge) :
    ((edgeIds edges).Nodup ↔ ∀ e ∈ edges, ∀ f ∈ edges, ∀ k < (edges.map Edge.key).count e.key,
      2 ≤ (edges.map Edge.key).count e.key → f.key = numbered e.key k →
        2 ≤ (edges.map Edge.key).count f.key) ∧
    ((edgeIds edges).Nodup → ∀ (j k : Nat) (e f : Edge) (x y : String), j ≠ k →
      edges[j]? = some e → edges[k]? = some f →
      (edgeIds edges)[j]? = some x → (edgeIds edges)[k]? = some y →
      ∀ n d i source after source' after', e.Opens n x d i source after →
        f.Opens n y d i source' after' → source ≠ source' ∧ after ≠ after') := by
  constructor
  · rw [edgeIds, nodup_numberRepeated]
    constructor
    · intro hfree e he f hf k hk htwice hkey
      by_contra honce
      have hpos : 0 < (edges.map Edge.key).count f.key :=
        List.count_pos_iff.2 (List.mem_map_of_mem hf)
      exact hfree ⟨e.key, k, htwice, hk, hkey ▸ (by omega)⟩
    · rintro hdistinct ⟨key, k, htwice, hk, honce⟩
      obtain ⟨e, he, rfl⟩ := List.mem_map.1 (List.count_pos_iff.1 (Nat.zero_lt_of_lt hk))
      obtain ⟨f, hf, hkey⟩ := List.mem_map.1 (List.count_pos_iff.1 (honce ▸ Nat.one_pos))
      have hmore := hdistinct e he f hf k hk htwice hkey
      rw [hkey, honce] at hmore
      omega
  · intro hnodup j k e f x y hjk he hf hx hy n d i source after source' after' hopens hopens'
    obtain ⟨rfl, rfl⟩ := hopens.eq
    obtain ⟨rfl, rfl⟩ := hopens'.eq
    have hne : x ≠ y := by
      rintro rfl
      have hlt := (List.getElem?_eq_some_iff.1 hx).1
      exact hjk ((List.getElem?_inj hlt hnodup).1 (hx.trans hy.symm))
    constructor <;> exact fun h => hne (by simpa [drawSource, drawTarget] using h)

/-- Two edges share a location and an action; a third one has a key with the first number that they
leave free. -/
theorem edgeIds_nodup_iff_of_shared_key :
    let draw (action target : String) : Edge :=
      { location := "s", action := some action
        destinations := [{ location := some target
                           assignments := [{ ref := .ident "n", value := .int 1 },
                             { ref := .ident "r", value := .uniform 0 1 }] }] }
    let edges := [draw "go" "b", draw "go" "c", draw "go_2" "d"]
    edgeIds edges = ["s_go_0", "s_go_1", "s_go_2"] ∧ (edgeIds edges).Nodup ∧
      ∃ source after source' after', (draw "go" "b").Opens (.whole 1) "s_go_0" 0 1 source after ∧
        (draw "go_2" "d").Opens (.whole 1) "s_go_2" 0 1 source' after' ∧
        source ≠ source' ∧ after ≠ after' := by
  intro draw edges
  have hids : edgeIds edges = ["s_go_0", "s_go_1", "s_go_2"] := by decide +kernel
  have hnodup : (edgeIds edges).Nodup := (edgeIds_nodup_iff edges).1.2 (by decide +kernel)
  have hopens : ∀ action target id, (draw action target).Opens (.whole 1) id 0 1
      (drawSource id 0 1) (drawTarget id 0 1) := fun action target id =>
    ⟨_, _, _, _, _, rfl, rfl, rfl, rfl, rfl, rfl⟩
  exact ⟨hids, hnodup, _, _, _, _, hopens _ _ _, hopens _ _ _,
    (edgeIds_nodup_iff edges).2 hnodup 0 2 _ _ "s_go_0" "s_go_2" (by decide) rfl rfl
      (by rw [hids]; rfl) (by rw [hids]; rfl) _ 0 1 _ _ _ _ (hopens _ _ _) (hopens _ _ _)⟩

/-- Two edges share a key, and a third one has it with a number for itself. -/
example :
    let edge (action : String) : Edge :=
      { location := "s", action := some action, destinations := [] }
    edgeIds [edge "go", edge "go", edge "go_0"] = ["s_go_0", "s_go_1", "s_go_0"] := by
  decide +kernel

end ChartNet
