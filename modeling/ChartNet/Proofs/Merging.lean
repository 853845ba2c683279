import ChartNet.Chart.Body
import ChartNet.Proofs.Widening

/-!
# Payloads that are merged

What is sent with an event is recorded one value after the other, and each is compared with the type
that those before it have given its field. Still the order does not matter (`Event.accepts_perm`).
Types unify if and only if they **agree**, in their form and in whether they are truth values, and
to agree is an equivalence. So all values are accepted if and only if any two of one field agree
(`Event.Records.accepts_iff`), and a field ends with the **join** of what was sent in it: the least
type that admits all of it.
-/

namespace ChartNet

/-! ### Joins of types -/

namespace DataType

variable {capacity : Size} {s t u : DataType} {S : Set DataType}

/-- A type **agrees** with another of its form, unless just one of them is of truth values. -/
def Agrees (s t : DataType) : Prop := s.SameForm t ∧ (s.base = .bool ↔ t.base = .bool)

theorem Agrees.symm (h : s.Agrees t) : t.Agrees s :=
  ⟨⟨h.1.1.symm, h.1.2.symm⟩, h.2.symm⟩

theorem Agrees.trans (h : s.Agrees t) (h' : t.Agrees u) : s.Agrees u :=
  ⟨⟨h.1.1.trans h'.1.1, h.1.2.trans h'.1.2⟩, h.2.trans h'.2⟩

theorem Admits.agrees (h : s.Admits t) : s.Agrees t := by
  obtain ⟨hform, hbase | ⟨hreal, hint⟩⟩ := admits_iff.1 h
  · exact ⟨hform, by rw [hbase]⟩
  · exact ⟨hform, by simp [hreal, hint]⟩

/-- **Types unify if and only if they agree.** -/
theorem exists_unify_iff : (∃ u, s.unify t = some u) ↔ s.Agrees t := by
  rcases s with (_ | _ | _) | ⟨_ | _, _, _⟩ | ⟨_ | _, _⟩ <;>
  rcases t with (_ | _ | _) | ⟨_ | _, _, _⟩ | ⟨_ | _, _⟩ <;>
  simp [Agrees, SameForm, unify, isArray, dimensions, base, real, NumKind.toScalar]

/-- Only reals make real. -/
theorem base_of_unify (h : s.unify t = some u) (hreal : u.base = .real) :
    s.base = .real ∨ t.base = .real := by
  rcases s with (_ | _ | _) | ⟨_ | _, _, _⟩ | ⟨_ | _, _⟩ <;>
  rcases t with (_ | _ | _) | ⟨_ | _, _, _⟩ | ⟨_ | _, _⟩ <;>
  simp [unify, base, real, NumKind.toScalar] at h hreal ⊢ <;>
  simp [← h] at hreal

/-- The types in which values are **sent**: scalars, and arrays of one capacity in every
dimension. -/
def Sent (capacity : Size) (t : DataType) : Prop :=
  (∃ s, t = .scalar s) ∨ ∃ base n, t = .array ⟨base, List.replicate n capacity⟩

/-- A value that is sent is given such a type. -/
theorem sent_of_payloadType {scope : BodyScope} {events : Events} {source : Source}
    (h : scope.payloadType events source = .ok t) : t.Sent scope.capacity := by
  unfold BodyScope.payloadType at h
  split at h
  · cases h
    exact .inr ⟨_, _, rfl⟩
  · obtain ⟨type, -, h⟩ := Result.bind_eq_ok.1 h
    split at h
    · cases h
      exact .inr ⟨_, _, by rw [← List.map_const']⟩
    · cases h
      exact .inl ⟨_, rfl⟩
    · cases h

theorem Sent.unify (hs : s.Sent capacity) (ht : t.Sent capacity) (h : s.unify t = some u) :
    u.Sent capacity := by
  rcases hs with ⟨b, rfl⟩ | ⟨b, n, rfl⟩ <;> rcases ht with ⟨b', rfl⟩ | ⟨b', n', rfl⟩
  · rcases b with _ | _ | _ <;> rcases b' with _ | _ | _ <;>
      simp [DataType.unify] at h <;> cases h <;>
      exact .inl ⟨_, rfl⟩
  · simp [DataType.unify] at h
  · simp [DataType.unify] at h
  · rcases b with _ | _ <;> rcases b' with _ | _ <;> simp [DataType.unify] at h <;> cases h.2 <;>
      exact .inr ⟨_, _, rfl⟩

/-- Types of values that are sent are told apart by their form and base. -/
theorem Sent.ext (hs : s.Sent capacity) (ht : t.Sent capacity) (hform : s.SameForm t)
    (hbase : s.base = t.base) : s = t := by
  obtain ⟨harray, hdimensions⟩ := hform
  rcases hs with ⟨b, rfl⟩ | ⟨b, n, rfl⟩ <;> rcases ht with ⟨b', rfl⟩ | ⟨b', n', rfl⟩
  · exact congrArg _ hbase
  · cases harray
  · cases harray
  · obtain rfl : n = n' := by simpa [dimensions] using hdimensions
    cases b <;> cases b' <;> first | rfl | cases hbase

/-- A type **joins** some others if it admits them all, and is not real without need. -/
structure Joins (t : DataType) (S : Set DataType) : Prop where
  nonempty : S.Nonempty
  admits : ∀ s ∈ S, t.Admits s
  real : t.base = .real → ∃ s ∈ S, s.base = .real

theorem joins_singleton (t : DataType) : t.Joins {t} where
  nonempty := Set.singleton_nonempty t
  admits := by
    rintro s rfl
    rfl
  real h := ⟨t, rfl, h⟩

/-- What receives a join and one more type joins them. -/
theorem Joins.unify (hs : s.Joins S) (h : s.unify t = some u) : u.Joins (insert t S) where
  nonempty := Set.insert_nonempty t S
  admits := by
    obtain ⟨hadmits, hadmits'⟩ := admits_of_unify h
    rintro r (rfl | hr)
    · exact hadmits'
    · exact hadmits.trans (hs.admits r hr)
  real hreal := by
    rcases base_of_unify h hreal with hs' | ht
    · obtain ⟨r, hr, hrreal⟩ := hs.real hs'
      exact ⟨r, .inr hr, hrreal⟩
    · exact ⟨t, .inl rfl, ht⟩

/-- A join agrees with what agrees with a type in it. -/
theorem Joins.agrees_iff (hs : s.Joins S) : s.Agrees t ↔ ∀ r ∈ S, r.Agrees t := by
  constructor
  · exact fun h r hr => (hs.admits r hr).agrees.symm.trans h
  · intro h
    obtain ⟨r, hr⟩ := hs.nonempty
    exact (hs.admits r hr).agrees.trans (h r hr)

/-- A join is real if and only if a type in it is. -/
theorem Joins.base_eq_real_iff (ht : t.Joins S) : t.base = .real ↔ ∃ s ∈ S, s.base = .real := by
  refine ⟨ht.real, ?_⟩
  rintro ⟨s, hs, hreal⟩
  rcases (admits_iff.1 (ht.admits s hs)).2 with hbase | ⟨-, hint⟩
  · exact hbase.symm.trans hreal
  · simp [hreal] at hint

/-- Types of values that are sent have one join at most. -/
theorem Joins.unique (ht : t.Joins S) (hu : u.Joins S) (ht' : t.Sent capacity)
    (hu' : u.Sent capacity) : t = u := by
  obtain ⟨s, hs⟩ := ht.nonempty
  obtain ⟨hform, hbase⟩ := admits_iff.1 (ht.admits s hs)
  obtain ⟨hform', hbase'⟩ := admits_iff.1 (hu.admits s hs)
  refine ht'.ext hu' ⟨hform.1.trans hform'.1.symm, hform.2.trans hform'.2.symm⟩ ?_
  have hreal : t.base = .real ↔ u.base = .real :=
    ht.base_eq_real_iff.trans hu.base_eq_real_iff.symm
  rcases hbase with heq | ⟨hr, -⟩
  · rcases hbase' with heq' | ⟨hr', -⟩
    · exact heq.symm.trans heq'
    · rw [hr', hreal.2 hr']
  · rw [hr, hreal.1 hr]

end DataType

/-! ### Recording one value after the other -/

namespace Event

variable {capacity : Size} {e : Event} {call : String × DataType}
  {earlier calls calls' : List (String × DataType)}

/-- The event **after** some values were sent, each by itself; one that is refused is left out. -/
def after (e : Event) (calls : List (String × DataType)) : Event :=
  calls.foldl (fun e call => (e.recordPayload [call]).2) e

/-- An event **accepts** values that are sent one after the other. -/
def Accepts (e : Event) : List (String × DataType) → Prop
  | [] => True
  | call :: calls => (e.recordPayload [call]).1 = .ok () ∧ (e.recordPayload [call]).2.Accepts calls

/-- An event that is not declared **records** some values: it has a field for each, and a field has
the join of the types in which it was sent. -/
structure Records (capacity : Size) (e : Event) (calls : List (String × DataType)) : Prop where
  undeclared : e.declared = false
  known : ∀ call ∈ calls, ∃ t, e.fieldType? call.1 = some t
  joins : ∀ {field t}, e.fieldType? field = some t →
    t.Sent capacity ∧ t.Joins {s | (field, s) ∈ calls}

/-- Two values are **compatible** if they agree or are sent in different fields. -/
def Compatible (call call' : String × DataType) : Prop := call.1 = call'.1 → call.2.Agrees call'.2

theorem Compatible.symm {call call' : String × DataType} (h : Compatible call call') :
    Compatible call' call :=
  fun heq => (h heq.symm).symm

/-- The type that a field gets from a value, if that can be sent in it. -/
def merged? (e : Event) (call : String × DataType) : Option DataType :=
  match e.fieldType? call.1 with
  | none => some call.2
  | some known => known.unify call.2

/-- An event that is not declared gives its field the merged type, or refuses the value. -/
theorem recordPayload_cases (h : e.declared = false) (call : String × DataType) :
    (∃ t, e.merged? call = some t ∧
      e.recordPayload [call] = (.ok (), { e with fields := assocPut e.fields call.1 t })) ∨
    e.merged? call = none ∧ ∃ err, e.recordPayload [call] = (.error err, e) := by
  simp only [merged?, Event.recordPayload, recordField]
  cases e.fieldType? call.1 with
  | none => exact .inl ⟨call.2, rfl, by simp [h]⟩
  | some known =>
    dsimp only
    cases known.unify call.2 with
    | none => exact .inr ⟨rfl, _, rfl⟩
    | some merged => exact .inl ⟨merged, rfl, by simp [h]⟩

/-- A declared event stays as it is. -/
theorem after_of_declared (h : e.declared = true) (calls : List (String × DataType)) :
    e.after calls = e := by
  have hcall : ∀ call, (e.recordPayload [call]).2 = e := by
    intro call
    simp only [Event.recordPayload, recordField, h, if_true]
    cases e.fieldType? call.1 with
    | none => rfl
    | some known =>
      dsimp only
      cases known.unify call.2 with
      | none => rfl
      | some merged =>
        dsimp only
        split_ifs <;> rfl
  induction calls with
  | nil => rfl
  | cons call calls ih => rwa [after, List.foldl_cons, hcall]

/-- What an event records depends on which values were sent only. -/
theorem Records.congr (h : e.Records capacity calls) (hmem : ∀ call, call ∈ calls' ↔ call ∈ calls) :
    e.Records capacity calls' where
  undeclared := h.undeclared
  known call hcall := h.known call ((hmem call).1 hcall)
  joins hfield := by simpa only [hmem] using h.joins hfield

/-- Events that record the same values have the same fields. -/
theorem Records.fieldType?_eq {e' : Event} (h : e.Records capacity calls)
    (h' : e'.Records capacity calls) (field : String) :
    e'.fieldType? field = e.fieldType? field := by
  -- A value was sent in a field of the one, so the other has the field too, and joins are unique.
  have hsome : ∀ {e e' : Event} {t}, e.Records capacity calls → e'.Records capacity calls →
      e.fieldType? field = some t → e'.fieldType? field = some t := by
    intro e e' t h h' ht
    obtain ⟨hsent, hjoins⟩ := h.joins ht
    obtain ⟨s, hs⟩ := hjoins.nonempty
    obtain ⟨u, hu⟩ := h'.known _ hs
    obtain ⟨hsent', hjoins'⟩ := h'.joins hu
    rw [hu, hjoins.unique hjoins' hsent hsent']
  exact Option.ext fun t => ⟨hsome h' h, hsome h h'⟩

/-- A value has a merged type if and only if it is compatible with those before it. -/
theorem Records.exists_merged_iff (h : e.Records capacity earlier) :
    (∃ t, e.merged? call = some t) ↔ ∀ call' ∈ earlier, Compatible call' call := by
  unfold merged?
  cases hknown : e.fieldType? call.1 with
  | none =>
    refine ⟨fun _ call' hcall heq => ?_, fun _ => ⟨_, rfl⟩⟩
    obtain ⟨t, ht⟩ := h.known call' hcall
    simp [heq, hknown] at ht
  | some known =>
    refine (DataType.exists_unify_iff.trans (h.joins hknown).2.agrees_iff).trans ?_
    constructor
    · rintro hall ⟨field, s⟩ hs rfl
      exact hall s hs
    · exact fun hall s hs => hall _ hs rfl

/-- A merged type joins what was sent in the field, with the value. -/
theorem Records.joins_merged {t : DataType} (h : e.Records capacity earlier)
    (hsent : call.2.Sent capacity) (hmerged : e.merged? call = some t) :
    t.Sent capacity ∧ t.Joins (insert call.2 {s | (call.1, s) ∈ earlier}) := by
  unfold merged? at hmerged
  cases hknown : e.fieldType? call.1 with
  | none =>
    rw [hknown] at hmerged
    obtain rfl := Option.some.inj hmerged
    have hnone : {s | (call.1, s) ∈ earlier} = ∅ := by
      rw [Set.eq_empty_iff_forall_notMem]
      intro s hs
      obtain ⟨t, ht⟩ := h.known _ hs
      simp [hknown] at ht
    rw [hnone, insert_empty_eq]
    exact ⟨hsent, DataType.joins_singleton _⟩
  | some known =>
    rw [hknown] at hmerged
    obtain ⟨hsent', hjoins⟩ := h.joins hknown
    exact ⟨hsent'.unify hsent hmerged, hjoins.unify hmerged⟩

/-- A value is accepted if and only if it is compatible with those before it. -/
theorem Records.accepts_call_iff (h : e.Records capacity earlier) :
    (e.recordPayload [call]).1 = .ok () ↔ ∀ call' ∈ earlier, Compatible call' call := by
  rw [← h.exists_merged_iff]
  rcases recordPayload_cases h.undeclared call with ⟨t, ht, heq⟩ | ⟨hnone, err, heq⟩
  · simp [ht, heq]
  · simp [hnone, heq]

/-- An event records the next value as well, if it accepts it. -/
theorem Records.recordPayload (h : e.Records capacity earlier) (hsent : call.2.Sent capacity)
    (hok : (e.recordPayload [call]).1 = .ok ()) :
    (e.recordPayload [call]).2.Records capacity (call :: earlier) := by
  rcases recordPayload_cases h.undeclared call with ⟨t, ht, heq⟩ | ⟨-, err, heq⟩
  swap
  · simp [heq] at hok
  rw [heq]
  obtain ⟨hsent', hjoins⟩ := h.joins_merged hsent ht
  -- The field of the value is put with its merged type, and all others stay.
  have hself :
      ({ e with fields := assocPut e.fields call.1 t } : Event).fieldType? call.1 = some t :=
    assocGet?_assocPut_self _ _ _
  have hother : ∀ field, field ≠ call.1 →
      ({ e with fields := assocPut e.fields call.1 t } : Event).fieldType? field =
        e.fieldType? field :=
    fun field hne => assocGet?_assocPut_of_ne _ _ hne
  refine ⟨h.undeclared, fun call' hcall => ?_, fun {field u} hfield => ?_⟩
  · by_cases hfield : call'.1 = call.1
    · exact ⟨t, hfield ▸ hself⟩
    · rw [hother _ hfield]
      exact h.known call' ((List.mem_cons.1 hcall).resolve_left fun heq => hfield (heq ▸ rfl))
  · by_cases hsame : field = call.1
    · subst hsame
      obtain rfl := Option.some.inj (hself.symm.trans hfield)
      refine ⟨hsent', ?_⟩
      convert hjoins using 1
      ext s
      simp [Prod.ext_iff]
    · obtain ⟨hu, hjoins'⟩ := h.joins ((hother _ hsame).symm.trans hfield)
      refine ⟨hu, ?_⟩
      convert hjoins' using 1
      ext s
      simp [Prod.ext_iff, hsame]

/-- **A list of values is accepted if and only if any two of them, and of those before, are
compatible.** -/
theorem Records.accepts_iff (h : e.Records capacity earlier)
    (hsent : ∀ call ∈ calls, call.2.Sent capacity) :
    e.Accepts calls ↔
      calls.Pairwise Compatible ∧ ∀ call ∈ calls, ∀ call' ∈ earlier, Compatible call' call := by
  induction calls generalizing e earlier with
  | nil => simp [Accepts]
  | cons call calls ih =>
    rw [List.forall_mem_cons] at hsent
    -- Once the first value is recorded, the others are compared with it as with those before.
    rw [Accepts, h.accepts_call_iff, List.pairwise_cons, List.forall_mem_cons]
    constructor
    · rintro ⟨hcall, hcalls⟩
      obtain ⟨hpairwise, hearlier⟩ :=
        (ih (h.recordPayload hsent.1 (h.accepts_call_iff.2 hcall)) hsent.2).1 hcalls
      refine ⟨⟨fun c hc => hearlier c hc call List.mem_cons_self, hpairwise⟩, hcall, ?_⟩
      exact fun c hc call' hcall' => hearlier c hc call' (List.mem_cons_of_mem _ hcall')
    · rintro ⟨⟨hhead, hpairwise⟩, hcall, hearlier⟩
      refine ⟨hcall, (ih (h.recordPayload hsent.1 (h.accepts_call_iff.2 hcall)) hsent.2).2
        ⟨hpairwise, fun c hc => List.forall_mem_cons.2 ⟨hhead c hc, hearlier c hc⟩⟩⟩

/-- An event records all values that it accepts. -/
theorem Records.after (h : e.Records capacity earlier)
    (hsent : ∀ call ∈ calls, call.2.Sent capacity)
    (hok : e.Accepts calls) : (e.after calls).Records capacity (earlier ++ calls) := by
  induction calls generalizing e earlier with
  | nil => rwa [List.append_nil]
  | cons call calls ih =>
    rw [List.forall_mem_cons] at hsent
    refine (ih (h.recordPayload hsent.1 hok.1) hsent.2 hok.2).congr fun c => ?_
    simp only [List.cons_append, List.mem_cons, List.mem_append]
    tauto

/-- **The order in which values are sent does not matter.** An event that is new accepts a list of
values if and only if it accepts them in any other order; then it has the same fields with the same
types, one for each field in which a value was sent, of base real if and only if one of these was. A
declared event never changes, so it accepts or refuses a value whatever was sent before. -/
theorem accepts_perm {es : Events} {name : String} (hnew : es.get? name = none)
    (he : (es.ensure name).get? name = some e) (hsent : ∀ call ∈ calls, call.2.Sent capacity)
    (hperm : calls.Perm calls') :
    (e.Accepts calls ↔ e.Accepts calls') ∧
      (e.Accepts calls → ∀ field,
        (e.after calls').fieldType? field = (e.after calls).fieldType? field ∧
        ((∃ t, (e.after calls).fieldType? field = some t) ↔ ∃ s, (field, s) ∈ calls) ∧
        ∀ t, (e.after calls).fieldType? field = some t →
          (t.base = .real ↔ ∃ s, (field, s) ∈ calls ∧ s.base = .real)) ∧
      ∀ declared : Event, declared.declared = true → ∀ earlier call,
        declared.after earlier = declared ∧
        ((declared.after earlier).recordPayload [call]).1 = (declared.recordPayload [call]).1 := by
  have hrecords : e.Records capacity [] := by
    obtain rfl : e = { name := name } := by simpa [Events.get?_ensure, hnew] using he.symm
    exact ⟨rfl, by simp, fun hfield => by cases hfield⟩
  have hsent' : ∀ call ∈ calls', call.2.Sent capacity :=
    fun call hcall => hsent call (hperm.mem_iff.2 hcall)
  -- being accepted is a matter of pairs of calls, in either order
  have hiff : e.Accepts calls ↔ e.Accepts calls' := by
    simp only [hrecords.accepts_iff hsent, hrecords.accepts_iff hsent',
      hperm.pairwise_iff Compatible.symm, hperm.mem_iff]
  refine ⟨hiff, fun hok field => ?_, fun declared hdeclared earlier call => ?_⟩
  · have hafter := hrecords.after hsent hok
    have hafter' : (e.after calls').Records capacity calls :=
      (hrecords.after hsent' (hiff.1 hok)).congr fun _ => hperm.mem_iff
    refine ⟨hafter.fieldType?_eq hafter' field, ⟨?_, ?_⟩, fun t ht => ?_⟩
    · rintro ⟨t, ht⟩
      exact (hafter.joins ht).2.nonempty
    · rintro ⟨s, hs⟩
      exact hafter.known _ hs
    · exact (hafter.joins ht).2.base_eq_real_iff
  · rw [after_of_declared hdeclared]
    exact ⟨rfl, rfl⟩

/-- An int before a real in one field, and an array in another; the last value first is accepted
too. -/
theorem accepts_perm_of_ints :
    (({} : Events).ensure "move").get? "move" = some { name := "move" } ∧
      ({ name := "move" } : Event).Accepts
        [("x", .int), ("path", .array ⟨.int, [.whole 4, .whole 4]⟩), ("x", .real)] ∧
      ({ name := "move" } : Event).Accepts
        [("x", .real), ("path", .array ⟨.int, [.whole 4, .whole 4]⟩), ("x", .int)] ∧
      (({ name := "move" } : Event).after
        [("x", .real), ("path", .array ⟨.int, [.whole 4, .whole 4]⟩), ("x", .int)]).fieldType? "x" =
      (({ name := "move" } : Event).after
        [("x", .int), ("path", .array ⟨.int, [.whole 4, .whole 4]⟩),
          ("x", .real)]).fieldType? "x" := by
  have he : (({} : Events).ensure "move").get? "move" = some { name := "move" } := by decide
  have hsent : ∀ call ∈
      [("x", DataType.int), ("path", .array ⟨.int, [.whole 4, .whole 4]⟩), ("x", .real)],
      call.2.Sent (.whole 4) := by
    simp only [List.forall_mem_cons]
    exact ⟨.inl ⟨.int, rfl⟩, .inr ⟨.int, 2, rfl⟩, .inl ⟨.real, rfl⟩, by simp⟩
  have haccepts : ({ name := "move" } : Event).Accepts
      [("x", .int), ("path", .array ⟨.int, [.whole 4, .whole 4]⟩), ("x", .real)] :=
    ⟨rfl, rfl, rfl, trivial⟩
  obtain ⟨hiff, hfields, -⟩ := accepts_perm rfl he hsent (List.reverse_perm _).symm
  exact ⟨he, haccepts, hiff.1 haccepts, (hfields haccepts "x").1⟩

end Event

end ChartNet
