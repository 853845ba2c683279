import ChartNet.Descriptor
import ChartNet.Proofs.Assoc
import ChartNet.Proofs.History.Models
import ChartNet.Proofs.Model.Listing
import ChartNet.Proofs.Schema.Validity

/-!
# Compositions by position

A synchronisation keeps its participants by name, and is written as a vector: an action, or nothing,
at the position of each element. As the elements are distinct, a vector says who takes part, and
reading a composition back rebuilds the participants from the positions. What is lost is the order
in which participants and vectors were added, except among vectors of one result: a composition is
written with its vectors **stably sorted** by result.

The participants that are read are collected in an object, which takes up no entry for an element of
the name `__proto__`. So writing, reading and writing again changes nothing exactly if no vector has
an entry there (`Composition.toJson_roundTrips`).
-/

namespace ChartNet

/-! ### Stable sorting -/

/-- A list is another one **stably sorted** by a text of its items: the texts ascend, and the items
of each text are those of the other list, in the same order. -/
structure StablySorted {α : Type} (key : α → String) (items sorted : List α) : Prop where
  ascending : sorted.Pairwise fun a b => Text.unitLe (key a) (key b)
  kept : ∀ text, sorted.filter (key · == text) = items.filter (key · == text)

/-- Sorting by a text is stable. -/
theorem stablySorted_mergeSort {α : Type} (key : α → String) (items : List α) :
    StablySorted key items (items.mergeSort fun a b => Text.unitLe (key a) (key b)) := by
  have htrans (a b c : α) : Text.unitLe (key a) (key b) → Text.unitLe (key b) (key c) →
      Text.unitLe (key a) (key c) := Text.unitsLe_trans
  have htotal (a b : α) : Text.unitLe (key a) (key b) || Text.unitLe (key b) (key a) :=
    Text.unitsLe_total _ _
  refine ⟨List.pairwise_mergeSort htrans htotal items, fun text => ?_⟩
  -- Items of one text ascend in any order, so sorting keeps them as a sublist, and there are no
  -- others.
  have hequal : (items.filter (key · == text)).Pairwise fun a b => Text.unitLe (key a) (key b) := by
    refine List.pairwise_iff_forall_sublist.2 fun {a b} hab => ?_
    have hkey {c : α} (hc : c ∈ [a, b]) : key c = text := by
      simpa using List.of_mem_filter (hab.subset hc)
    rw [hkey (by simp), hkey (by simp)]
    exact (Bool.or_self _).symm.trans (Text.unitsLe_total (Text.units text) (Text.units text))
  have hsub :=
    (List.sublist_mergeSort htrans htotal hequal List.filter_sublist).filter (key · == text)
  rw [List.filter_filter, List.filter_congr fun a _ => Bool.and_self _] at hsub
  exact (hsub.eq_of_length ((List.mergeSort_perm items _).filter _).length_eq.symm).symm

/-- Items that keep their texts and their places among those of one text are the same. -/
theorem StablySorted.eq_of_map {α : Type} {key : α → String} {f : α → α} {items sorted : List α}
    (hkey : ∀ a, key (f a) = key a) (h : StablySorted key items sorted)
    (hmap : StablySorted key (items.map f) sorted) : ∀ a ∈ items, f a = a := by
  intro a ha
  have hfilter := (hmap.kept (key a)).symm.trans (h.kept (key a))
  rw [List.filter_map] at hfilter
  simp only [Function.comp_def, hkey] at hfilter
  exact List.map_inj_left.1 (hfilter.trans (List.map_id _).symm) a (List.mem_filter.2 ⟨ha, by simp⟩)

namespace Composition

/-! ### Participants by position -/

section Participants

variable {elements : List String} {actions : List (Option String)}

/-- What is **kept** of an entry: nothing if the element has the name `__proto__`. -/
def keptEntry (element : String) (action : Option String) : Option String :=
  if element = ObjectMember.proto.name then none else action

theorem participantsOf_cons (x : String) (xs : List String) (a : Option String)
    (as : List (Option String)) :
    participantsOf (x :: xs) (a :: as) =
      ((keptEntry x a).map (x, ·)).toList ++ participantsOf xs as := by
  cases a with
  | none => simp [participantsOf, keptEntry]
  | some a =>
    by_cases hx : x = ObjectMember.proto.name <;>
      simp [participantsOf, objectEntries, keptEntry, hx]

/-- The participants of a vector are elements, in order. -/
theorem map_participantsOf_sublist (elements : List String) (actions : List (Option String)) :
    ((participantsOf elements actions).map (·.1)).Sublist elements := by
  induction elements generalizing actions with
  | nil => simp [participantsOf, objectEntries]
  | cons x xs ih =>
    cases actions with
    | nil => simp [participantsOf, objectEntries]
    | cons a as =>
      rw [participantsOf_cons]
      cases keptEntry x a with
      | none => exact (ih as).cons x
      | some a => exact (ih as).cons_cons x

/-- **A vector over distinct elements says who takes part**: each element does by what is kept of
the entry at its position. -/
theorem map_assocGet?_participantsOf (hnodup : elements.Nodup)
    (hlength : actions.length = elements.length) :
    elements.map (assocGet? (participantsOf elements actions)) =
      List.zipWith keptEntry elements actions := by
  induction elements generalizing actions with
  | nil => rfl
  | cons x xs ih =>
    obtain _ | ⟨a, as⟩ := actions
    · cases hlength
    obtain ⟨hx, hxs⟩ := List.nodup_cons.1 hnodup
    have hrest := ih hxs (Nat.succ_injective hlength)
    rw [participantsOf_cons, List.map_cons, List.zipWith_cons_cons]
    generalize keptEntry x a = a
    have hhead : assocGet? ((a.map (x, ·)).toList ++ participantsOf xs as) x = a := by
      cases a with
      | some a => simp [assocGet?]
      | none =>
        have hnone : (participantsOf xs as).find? (·.1 == x) = none :=
          List.find?_eq_none.2 fun p hp heq => hx <|
            (map_participantsOf_sublist xs as).subset (eq_of_beq heq ▸ List.mem_map_of_mem hp)
        simp [assocGet?, hnone]
    have htail : ∀ y ∈ xs, assocGet? ((a.map (x, ·)).toList ++ participantsOf xs as) y =
        assocGet? (participantsOf xs as) y := by
      intro y hy
      have hne : x ≠ y := fun heq => hx (heq ▸ hy)
      cases a <;> simp [assocGet?, hne]
    rw [hhead, List.map_congr_left htail, hrest]

end Participants

/-! ### Synchronisations and their vectors -/

/-- A synchronisation as it is **written**, by its vector. -/
def syncVector (c : Composition) (s : Sync) : SyncVector := ⟨s.result, c.vector s⟩

/-- A composition as it is **written**. -/
def listing (c : Composition) : Listing := ⟨c.elements, c.sortedSyncs.map c.syncVector⟩

/-- A vector **fits** elements if it has an entry for each, and one of them is an action. -/
structure SyncVector.Fits (elements : List String) (v : SyncVector) : Prop where
  width : v.actions.length = elements.length
  joined : ∃ action, some action ∈ v.actions

/-- What is **kept** of a vector over some elements when it is read. -/
def SyncVector.kept (elements : List String) (v : SyncVector) : SyncVector :=
  ⟨v.result, List.zipWith keptEntry elements v.actions⟩

/-- A vector over some elements **spares** the name `__proto__` if there is no action at an element
of this name. -/
def SyncVector.Spares (elements : List String) (v : SyncVector) : Prop :=
  ∀ action, (ObjectMember.proto.name, some action) ∉ elements.zip v.actions

/-- A vector is kept as it is if and only if it spares the name. -/
theorem SyncVector.kept_eq_iff {elements : List String} {v : SyncVector}
    (hwidth : v.actions.length = elements.length) : v.kept elements = v ↔ v.Spares elements := by
  obtain ⟨result, actions⟩ := v
  simp only [kept, Spares, mk.injEq, true_and]
  induction elements generalizing actions with
  | nil =>
    obtain rfl : actions = [] := List.length_eq_zero_iff.1 hwidth
    simp
  | cons x xs ih =>
    obtain _ | ⟨a, as⟩ := actions
    · cases hwidth
    have hhead : keptEntry x a = a ↔
        ∀ action, ¬(ObjectMember.proto.name = x ∧ some action = a) := by
      unfold keptEntry
      split <;> cases a <;> simp_all [eq_comm]
    simp only [List.zipWith_cons_cons, List.cons.injEq, List.zip_cons_cons, List.mem_cons,
      Prod.mk.injEq, not_or, forall_and, hhead, ih as (Nat.succ_injective hwidth)]

/-- Of vectors that spare the name everything is kept. -/
theorem SyncVector.map_kept {elements : List String} {vs : List SyncVector}
    (hwidth : ∀ v ∈ vs, v.actions.length = elements.length) (h : ∀ v ∈ vs, v.Spares elements) :
    vs.map (·.kept elements) = vs :=
  (List.map_congr_left fun v hv => (kept_eq_iff (hwidth v hv)).2 (h v hv)).trans (List.map_id _)

variable {c c' : Composition}

/-- What is written for a composition is its listing. -/
theorem toJson_eq (c : Composition) : c.toJson = Descriptor.listingJson c.listing := by
  simp [toJson, Descriptor.listingJson, listing, syncVector, Function.comp_def]

/-- The vectors are written stably sorted by result. -/
theorem syncs_listing (c : Composition) :
    c.listing.syncs = (c.syncs.map c.syncVector).mergeSort fun v w =>
      Text.unitLe v.result w.result :=
  List.map_mergeSort fun _ _ _ _ => rfl

theorem stablySorted_listing (c : Composition) :
    StablySorted (·.result) (c.syncs.map c.syncVector) c.listing.syncs := by
  rw [syncs_listing]
  exact stablySorted_mergeSort SyncVector.result _

/-- A synchronisation is added if it has participants and they are elements. -/
theorem addSync_eq_ok {result : String} {participants : List (String × String)} :
    c.addSync result participants = .ok c' ↔
      (Json.arrange (assocOfList participants) ≠ [] ∧
        ∀ p ∈ Json.arrange (assocOfList participants), p.1 ∈ c.elements) ∧
      c' = { c with syncs := c.syncs ++
        [{ result, participants := Json.arrange (assocOfList participants) }] } := by
  refine ⟨fun h => ⟨?_, addSync_ok h⟩, ?_⟩
  · simp only [addSync] at h
    split at h
    · cases h
    · rename_i hne
      split at h
      · cases h
      · rename_i hall
        exact ⟨by simpa using hne, by simpa using hall⟩
  · rintro ⟨⟨hne, hall⟩, rfl⟩
    have hfind : (Json.arrange (assocOfList participants)).find?
      (!c.elements.contains ·.1) = none := by
      simpa using hall
    simp only [addSync, List.isEmpty_iff, hne, if_false, hfind]

/-- Each synchronisation of a composition that was built has participants, and they are elements. -/
theorem Built.participants (h : c.Built) :
    ∀ s ∈ c.syncs, s.participants ≠ [] ∧ ∀ p ∈ s.participants, p.1 ∈ c.elements := by
  induction h with
  | empty => simp
  | addElement _ hadd ih =>
    obtain ⟨-, rfl⟩ := addElement_ok hadd
    exact fun s hs => ⟨(ih s hs).1, fun p hp => List.mem_append_left _ ((ih s hs).2 p hp)⟩
  | addSync _ hadd ih =>
    obtain ⟨hnew, rfl⟩ := addSync_eq_ok.1 hadd
    intro s hs
    rcases List.mem_append.1 hs with hs | hs
    · exact ih s hs
    · rw [List.mem_singleton.1 hs]
      exact hnew

/-- The vectors of a composition that was built fit its elements. -/
theorem Built.fits (h : c.Built) {s : Sync} (hs : s ∈ c.syncs) :
    (c.syncVector s).Fits c.elements := by
  obtain ⟨hne, hall⟩ := h.participants s hs
  obtain ⟨p, hp⟩ := List.exists_mem_of_ne_nil _ hne
  refine ⟨List.length_map _, ?_⟩
  cases hget : assocGet? s.participants p.1 with
  | some action => exact ⟨action, hget ▸ List.mem_map_of_mem (hall p hp)⟩
  | none =>
    rw [assocGet?, Option.map_eq_none_iff, List.find?_eq_none] at hget
    exact absurd (beq_self_eq_true p.1) (hget p hp)

/-! ### Reading by position -/

theorem Built.fits_listing (h : c.Built) : ∀ v ∈ c.listing.syncs, v.Fits c.elements := by
  intro v hv
  rw [syncs_listing, List.mem_mergeSort, List.mem_map] at hv
  obtain ⟨s, hs, rfl⟩ := hv
  exact h.fits hs

/-- A vector is **readable** over some elements if it has an entry for each, and an action is kept
of it. -/
structure SyncVector.Readable (elements : List String) (v : SyncVector) : Prop where
  width : v.actions.length = elements.length
  joined : ∃ action, some action ∈ (v.kept elements).actions

/-- A vector that fits is readable if it is kept as it is. -/
theorem SyncVector.Fits.readable {elements : List String} {v : SyncVector} (h : v.Fits elements)
    (hkept : v.kept elements = v) : v.Readable elements :=
  ⟨h.width, hkept.symm ▸ h.joined⟩

/-- The synchronisation that a vector over some elements is **read** as. -/
def SyncVector.sync (elements : List String) (v : SyncVector) : Sync :=
  ⟨v.result, Json.arrange (participantsOf elements v.actions)⟩

section Reading

variable (hnodup : c.elements.Nodup) {v : SyncVector}

include hnodup

/-- A vector that is read is written with what is kept of it. -/
theorem syncVector_sync (hwidth : v.actions.length = c.elements.length) :
    c.syncVector (v.sync c.elements) = v.kept c.elements := by
  have hnames := (map_participantsOf_sublist c.elements v.actions).nodup hnodup
  have hperm := Json.perm_arrange (participantsOf c.elements v.actions)
  have hvector : c.vector (v.sync c.elements) = (v.kept c.elements).actions := by
    refine Eq.trans (List.map_congr_left fun x _ => ?_)
      (map_assocGet?_participantsOf hnodup hwidth)
    exact (assocGet?_perm hperm.symm hnames x).symm
  rw [syncVector, hvector]
  rfl

/-- An action is kept of a vector if somebody takes part. -/
theorem participantsOf_ne_nil (hwidth : v.actions.length = c.elements.length) :
    participantsOf c.elements v.actions ≠ [] ↔
      ∃ action, some action ∈ (v.kept c.elements).actions := by
  have hactions : _ = (v.kept c.elements).actions := map_assocGet?_participantsOf hnodup hwidth
  have hnames := map_participantsOf_sublist c.elements v.actions
  constructor
  · intro hne
    obtain ⟨p, hp⟩ := List.exists_mem_of_ne_nil _ hne
    have hget := (assocGet?_eq_some (hnames.nodup hnodup)).2 hp
    refine ⟨p.2, hactions ▸ hget ▸ ?_⟩
    exact List.mem_map_of_mem (hnames.subset (List.mem_map_of_mem hp))
  · rintro ⟨action, haction⟩ hnil
    rw [← hactions, List.mem_map] at haction
    obtain ⟨x, -, hx⟩ := haction
    rw [hnil] at hx
    cases hx

/-- A vector of the right width is added if an action is kept of it. -/
theorem addSync_participantsOf (hwidth : v.actions.length = c.elements.length) :
    c.addSync v.result (participantsOf c.elements v.actions) = .ok c' ↔
      (∃ action, some action ∈ (v.kept c.elements).actions) ∧
        c' = { c with syncs := c.syncs ++ [v.sync c.elements] } := by
  have hnames := map_participantsOf_sublist c.elements v.actions
  have hperm := Json.perm_arrange (participantsOf c.elements v.actions)
  have hall : ∀ p ∈ Json.arrange (participantsOf c.elements v.actions), p.1 ∈ c.elements :=
    fun p hp => hnames.subset (List.mem_map_of_mem (hperm.subset hp))
  rw [addSync_eq_ok, assocOfList_of_nodup (hnames.nodup hnodup),
    ← participantsOf_ne_nil hnodup hwidth,
    and_iff_left hall, Ne, ← List.length_eq_zero_iff, hperm.length_eq, List.length_eq_zero_iff]
  rfl

/-- **Vectors are read** if what is kept of each of them fits the elements, in the order in which
they are listed. -/
theorem addVectors_eq_ok {i : Nat} {vs : List SyncVector} :
    c.addVectors i vs = .ok c' ↔ (∀ v ∈ vs, v.Readable c.elements) ∧
      c' = { c with syncs := c.syncs ++ vs.map (·.sync c.elements) } := by
  induction vs generalizing c i with
  | nil => simp [addVectors, eq_comm]
  | cons v vs ih =>
    rw [addVectors]
    by_cases hwidth : v.actions.length = c.elements.length
    · have hrest := @ih { c with syncs := c.syncs ++ [v.sync c.elements] } hnodup (i + 1)
      simp only [List.append_assoc, List.singleton_append] at hrest
      simp only [hwidth, ne_eq, not_true_eq_false, if_false, Result.bind_eq_ok,
        addSync_participantsOf hnodup hwidth, List.forall_mem_cons, List.map_cons]
      constructor
      · rintro ⟨_, ⟨hjoined, rfl⟩, h⟩
        obtain ⟨hreadable, hc'⟩ := hrest.1 h
        exact ⟨⟨⟨hwidth, hjoined⟩, hreadable⟩, hc'⟩
      · rintro ⟨⟨hv, hreadable⟩, hc'⟩
        exact ⟨_, ⟨hv.joined, rfl⟩, hrest.2 ⟨hreadable, hc'⟩⟩
    · have hreadable : ¬ v.Readable c.elements := fun h => hwidth h.width
      simp [hwidth, failModel, hreadable, bind, Except.bind]

end Reading

/-- **A listing is read** if its elements are distinct and its vectors readable over them. -/
theorem ofListing_eq_ok {l : Listing} :
    ofListing l = .ok c ↔ l.elements.Nodup ∧ (∀ v ∈ l.syncs, v.Readable l.elements) ∧
      c = ⟨l.elements, l.syncs.map (·.sync l.elements)⟩ := by
  simp only [ofListing, Result.bind_eq_ok, ofElements_eq_ok]
  constructor
  · rintro ⟨c₀, ⟨hnodup, rfl⟩, h⟩
    exact ⟨hnodup, (addVectors_eq_ok hnodup).1 h⟩
  · rintro ⟨hnodup, hreadable, rfl⟩
    exact ⟨_, ⟨hnodup, rfl⟩, (addVectors_eq_ok hnodup).2 ⟨hreadable, rfl⟩⟩

/-- What is read is written with what is kept of its vectors, sorted. -/
theorem listing_of_ofListing {l : Listing} (h : ofListing l = .ok c) :
    c.listing = ⟨l.elements,
      (l.syncs.map (·.kept l.elements)).mergeSort fun v w => Text.unitLe v.result w.result⟩ := by
  obtain ⟨hnodup, hreadable, rfl⟩ := ofListing_eq_ok.1 h
  have hvectors : (l.syncs.map (·.sync l.elements)).map
      (syncVector ⟨l.elements, l.syncs.map (·.sync l.elements)⟩) =
        l.syncs.map (·.kept l.elements) := by
    rw [List.map_map]
    exact List.map_congr_left fun v hv => syncVector_sync hnodup (hreadable v hv).width
  have hsyncs := syncs_listing ⟨l.elements, l.syncs.map (·.sync l.elements)⟩
  rw [hvectors] at hsyncs
  rw [← hsyncs]
  rfl

theorem stablySorted_of_ofListing {l : Listing} (h : ofListing l = .ok c) :
    StablySorted (·.result) (l.syncs.map (·.kept l.elements)) c.listing.syncs := by
  rw [listing_of_ofListing h]
  exact stablySorted_mergeSort SyncVector.result _

/-- The vectors of a value are written as they are if and only if they spare the name. -/
theorem stablySorted_iff_of_ofListing {l : Listing} (h : ofListing l = .ok c) :
    StablySorted (·.result) l.syncs c.listing.syncs ↔ ∀ v ∈ l.syncs, v.Spares l.elements := by
  have hwidth (v : SyncVector) (hv : v ∈ l.syncs) : v.actions.length = l.elements.length :=
    ((ofListing_eq_ok.1 h).2.1 v hv).width
  have hsorted := stablySorted_of_ofListing h
  constructor
  · intro hsame v hv
    exact (SyncVector.kept_eq_iff (hwidth v hv)).1
      (hsame.eq_of_map (f := (·.kept l.elements)) (fun _ => rfl) hsorted v hv)
  · intro hspares
    rwa [SyncVector.map_kept hwidth hspares] at hsorted

/-- The listing of a composition that was built is read as one with the same listing if and only if
its vectors spare the name. -/
theorem Built.exists_ofListing_iff (h : c.Built) :
    (∃ c', ofListing c.listing = .ok c' ∧ c'.listing = c.listing) ↔
      ∀ v ∈ c.listing.syncs, v.Spares c.elements := by
  have hfits := h.fits_listing
  have hself : StablySorted (·.result) c.listing.syncs c.listing.syncs :=
    ⟨(stablySorted_listing c).ascending, fun _ => rfl⟩
  constructor
  · rintro ⟨c', hok, hagain⟩
    exact (stablySorted_iff_of_ofListing hok).1 (hagain ▸ hself)
  · intro hspares
    have hkept := SyncVector.map_kept (fun v hv => (hfits v hv).width) hspares
    have hok := ofListing_eq_ok.2 ⟨h.nodup, fun v hv => (hfits v hv).readable
      ((SyncVector.kept_eq_iff (hfits v hv).width).2 (hspares v hv)), rfl⟩
    refine ⟨_, hok, (listing_of_ofListing hok).trans ?_⟩
    have hsort : (c.listing.syncs.map (·.kept c.elements)).mergeSort
        (fun v w => Text.unitLe v.result w.result) = c.listing.syncs :=
      hkept.symm ▸ List.mergeSort_of_pairwise hself.ascending
    exact congrArg (Listing.mk c.elements) hsort

end Composition

/-! ### Compositions in JSON -/

namespace Json

/-- The entry of a vector that a value stands for: an action, or nothing. -/
def action? : Json → Option (Option String)
  | .str action => some (some action)
  | .null => some none
  | _ => none

/-- The vector that a value stands for. -/
def syncVector? (j : Json) : Option Composition.SyncVector := do
  let result ← j.text? "result"
  let entries ← j.items? "synchronise"
  return ⟨result, ← entries.mapM action?⟩

/-- The composition that a value stands for, as it is written. -/
def listing? (j : Json) : Option Composition.Listing := do
  let elements ← j.texts? "elements" "automaton"
  let vectors ← j.items? "syncs"
  return ⟨elements, ← vectors.mapM syncVector?⟩

/-- What is written item by item is read item by item. -/
theorem mapM_map_eq_some {α : Type} {write : α → Json} {read? : Json → Option α}
    (h : ∀ a, read? (write a) = some a) (items : List α) :
    (items.map write).mapM read? = some items :=
  mapM_eq_some.2 <| List.forall₂_map_left_iff.2 <| List.forall₂_same.2 fun a _ => h a

theorem syncVector?_eq (v : Composition.SyncVector) :
    syncVector? (.obj [("result", .str v.result),
      ("synchronise", .arr (v.actions.map fun a => (a.map Json.str).getD .null))]) = some v := by
  have hentry (a : Option String) : action? ((a.map Json.str).getD .null) = some a := by
    cases a <;> rfl
  have hentries := mapM_map_eq_some hentry v.actions
  simp [syncVector?, text?, items?, get?, lookup, hentries]

/-- What is written for a listing stands for it. -/
theorem listing?_listingJson (l : Composition.Listing) :
    (Descriptor.listingJson l).listing? = some l := by
  have helements : (Descriptor.listingJson l).texts? "elements" "automaton" = some l.elements :=
    @mapM_map_eq_some _ (fun e => .obj [("automaton", .str e)]) _ (fun _ => rfl) l.elements
  have hvectors : (Descriptor.listingJson l).items? "syncs" = some (l.syncs.map fun v =>
      .obj [("result", .str v.result),
        ("synchronise", .arr (v.actions.map fun a => (a.map Json.str).getD .null))]) := rfl
  simp only [listing?, helements, hvectors, Option.bind_eq_bind, Option.bind_some,
    mapM_map_eq_some syncVector?_eq l.syncs]
  rfl

end Json

section Reading

open Schema

variable {path : List String} {j : Json}

theorem Json.action?_of_valid {a : Option String} (h : nullable nonEmpty path (some j) = .valid a) :
    j.action? = some a := by
  unfold nullable at h
  split at h
  · rename_i hnull
    cases hnull
    cases h
    rfl
  · obtain ⟨s, hs, rfl⟩ := Verdict.map_eq_valid.1 h
    cases (nonEmpty_eq_valid.1 hs).1
    rfl

theorem Json.text?_of_valid {name s : String}
    (h : Schema.object (field name nonEmpty) path (some j) = .valid s) : j.text? name = some s := by
  obtain ⟨members, hj, hread⟩ := object_eq_valid.1 h
  cases hj
  simp only [text?, get?, (nonEmpty_eq_valid.1 hread).1]

theorem Json.syncVector?_of_valid {v : Composition.SyncVector}
    (h : Schema.object (Composition.SyncVector.mk <$> field "result" nonEmpty
      <*> field "synchronise" (Schema.list (nullable nonEmpty))) path (some j) = .valid v) :
    j.syncVector? = some v := by
  obtain ⟨members, hj, hread⟩ := object_eq_valid.1 h
  cases hj
  simp only [read_seq_eq_valid, read_map_eq_valid] at hread
  obtain ⟨_, actions, ⟨result, hresult, rfl⟩, hactions, rfl⟩ := hread
  obtain ⟨entries, hentries, hactions⟩ := forall₂_of_list_eq_valid hactions
  have hmapM := mapM_eq_some.2 (hactions.imp fun _ _ ⟨_, ha⟩ => action?_of_valid ha)
  simp [syncVector?, text?, items?, get?, (nonEmpty_eq_valid.1 hresult).1, hentries, hmapM]

/-- The **schema of compositions** reads a value as the composition that it stands for. -/
theorem Json.listing?_of_valid {l : Composition.Listing}
    (h : Descriptor.compositionSchema path (some j) = .valid l) : j.listing? = some l := by
  obtain ⟨members, hj, hread⟩ := object_eq_valid.1 h
  cases hj
  simp only [read_seq_eq_valid, read_map_eq_valid] at hread
  obtain ⟨_, syncs, ⟨elements, helements, rfl⟩, hsyncs, rfl⟩ := hread
  obtain ⟨named, hnamed, helements⟩ := forall₂_of_list_eq_valid helements
  obtain ⟨vectors, hvectors, hsyncs⟩ := forall₂_of_list_eq_valid hsyncs
  have htexts : (obj members).texts? "elements" "automaton" = some elements :=
    texts?_eq_some.2 ⟨named, by simp [items?, get?, hnamed],
      helements.imp fun _ _ ⟨_, hname⟩ => text?_of_valid hname⟩
  have hmapM := mapM_eq_some.2 (hsyncs.imp fun _ _ ⟨_, hv⟩ => syncVector?_of_valid hv)
  simp [listing?, htexts, items?, get?, hvectors, hmapM]

end Reading

/-! ### The round trip -/

/-- **Compositions round-trip if no action is at an element of the name `__proto__`**, and only
then. What is written for a composition that was built stands for its elements and for vectors that
fit them, stably sorted by result. It is read as a composition that is written in the same way if
and only if all vectors spare the name. And if the composition was read from a value, it is written
with the same elements and with what is kept of the vectors of the value, stably sorted by result.
These are the vectors themselves if and only if all spare the name. -/
theorem Composition.toJson_roundTrips (c : Composition) :
    (c.Built → ∃ l, c.toJson.listing? = some l ∧ l.elements = c.elements ∧
      (∀ v ∈ l.syncs, v.Fits c.elements) ∧
      StablySorted (·.result) (c.syncs.map c.syncVector) l.syncs ∧
      ((∃ c', ofListing l = .ok c' ∧ c'.toJson = c.toJson) ↔
        ∀ v ∈ l.syncs, v.Spares c.elements)) ∧
    ∀ (j : Json) (l : Listing), j.listing? = some l → ofListing l = .ok c →
      ∃ l', c.toJson.listing? = some l' ∧ l'.elements = l.elements ∧
        StablySorted (·.result) (l.syncs.map (·.kept l.elements)) l'.syncs ∧
        (StablySorted (·.result) l.syncs l'.syncs ↔ ∀ v ∈ l.syncs, v.Spares l.elements) := by
  have hread (c : Composition) : c.toJson.listing? = some c.listing := by
    rw [toJson_eq, Json.listing?_listingJson]
  have hsame (c' : Composition) : c'.toJson = c.toJson ↔ c'.listing = c.listing :=
    ⟨fun h => Option.some.inj ((hread c').symm.trans (h ▸ hread c)),
      fun h => by rw [toJson_eq, toJson_eq, h]⟩
  constructor
  · intro h
    refine ⟨c.listing, hread c, rfl, h.fits_listing, stablySorted_listing c, ?_⟩
    simp only [hsame]
    exact h.exists_ofListing_iff
  · intro j l _ h
    have helements : c.elements = l.elements := congrArg Listing.elements (listing_of_ofListing h)
    exact ⟨c.listing, hread c, helements, stablySorted_of_ofListing h,
      stablySorted_iff_of_ofListing h⟩

/-- An element that is added after a vector takes no part in it, and two vectors of one result stay
in the order in which they were added. Of a vector with two actions only one is read if the other is
at the element `__proto__`. -/
theorem Composition.toJson_roundTrips_of_late_element :
    let go : SyncVector := ⟨"go", [none, some "b", none]⟩
    let goOn : SyncVector := ⟨"go", [some "a", none, some "c"]⟩
    let be : SyncVector := ⟨"be", [some "a", none, none]⟩
    let c : Composition := ⟨["left", "right", "late"],
      [⟨"go", [("right", "b")]⟩, ⟨"be", [("left", "a")]⟩, ⟨"go", [("left", "a"), ("late", "c")]⟩]⟩
    let both : SyncVector := ⟨"go", [some "a", some "b"]⟩
    let one : SyncVector := ⟨"go", [none, some "b"]⟩
    let d : Composition := ⟨["__proto__", "robot"], [⟨"go", [("robot", "b")]⟩]⟩
    c.Built ∧ c.toJson.listing? = some ⟨c.elements, [be, go, goOn]⟩ ∧
      (∃ c', ofListing ⟨c.elements, [be, go, goOn]⟩ = .ok c' ∧ c'.toJson = c.toJson) ∧
      ofListing ⟨c.elements, [go, be, goOn]⟩ = .ok c ∧
      StablySorted (·.result) [go, be, goOn] [be, go, goOn] ∧
      ofListing ⟨d.elements, [both]⟩ = .ok d ∧ d.toJson.listing? = some ⟨d.elements, [one]⟩ ∧
      ¬StablySorted (·.result) [both] [one] := by
  intro go goOn be c both one d
  have hbuilt : c.Built := by
    have hleft := Built.empty.addElement (x := "left") rfl
    have hright := hleft.addElement (x := "right") (by rfl)
    have hgo := @Built.addSync _ _ "go" [("right", "b")] hright (by cbv)
    have hlate := hgo.addElement (x := "late") rfl
    have hbe := @Built.addSync _ _ "be" [("left", "a")] hlate (by cbv)
    exact @Built.addSync _ _ "go" [("left", "a"), ("late", "c")] hbe (by cbv)
  have hwritten : c.toJson.listing? = some ⟨c.elements, [be, go, goOn]⟩ := by
    rw [toJson_eq, Json.listing?_listingJson]
    cbv
  have hread : ofListing ⟨c.elements, [go, be, goOn]⟩ = .ok c := by cbv
  have hspares : ∀ v ∈ [be, go, goOn], v.Spares c.elements := by
    simp [SyncVector.Spares, ObjectMember.name, be, go, goOn, c]
  have hspares' : ∀ v ∈ [go, be, goOn], v.Spares c.elements := by
    simp [SyncVector.Spares, ObjectMember.name, be, go, goOn, c]
  obtain ⟨l, hl, -, -, -, hagain⟩ := (toJson_roundTrips c).1 hbuilt
  obtain ⟨l', hl', -, -, hsorted⟩ := (toJson_roundTrips c).2
    (Descriptor.listingJson ⟨c.elements, [go, be, goOn]⟩) _ (Json.listing?_listingJson _) hread
  obtain rfl := Option.some.inj (hwritten.symm.trans hl)
  obtain rfl := Option.some.inj (hwritten.symm.trans hl')
  have hlost : ofListing ⟨d.elements, [both]⟩ = .ok d := by cbv
  have hkept : d.toJson.listing? = some ⟨d.elements, [one]⟩ := by
    rw [toJson_eq, Json.listing?_listingJson]
    cbv
  obtain ⟨m, hm, -, -, hunsorted⟩ := (toJson_roundTrips d).2
    (Descriptor.listingJson ⟨d.elements, [both]⟩) _ (Json.listing?_listingJson _) hlost
  obtain rfl := Option.some.inj (hkept.symm.trans hm)
  refine ⟨hbuilt, hwritten, hagain.2 hspares, hread, hsorted.2 hspares', hlost, hkept, fun h => ?_⟩
  have hproto := hunsorted.1 h _ List.mem_cons_self "a"
  simp [d, both, ObjectMember.name] at hproto

end ChartNet
