import Mathlib
import ChartNet.Build

/-!
# What a build yields

`x.Yields s a s'` says that the build `x`, started in the state `s`, succeeds with `a` and leaves
the state `s'`. One equivalence per way of putting builds together takes a successful run apart into
the successful runs of its parts, so that no proof about a build has to open the monad. What each
part does to the state, the whole does if that is a preorder on states (`Build.Follows`).
-/

namespace ChartNet

/-- A sequence of results succeeds if each part does. -/
theorem Result.bind_eq_ok {α β : Type} {x : Result α} {f : α → Result β} {b : β} :
    (x >>= f) = .ok b ↔ ∃ a, x = .ok a ∧ f a = .ok b := by
  cases x <;> simp [bind, Except.bind]

/-- A sequence of results **can** succeed if the first part can and the second from there. -/
theorem Result.exists_bind_eq_ok {α β : Type} {x : Result α} {f : α → Result β} :
    (∃ b, (x >>= f) = .ok b) ↔ ∃ a, x = .ok a ∧ ∃ b, f a = .ok b := by
  simp only [Result.bind_eq_ok]
  exact ⟨fun ⟨b, a, ha, hb⟩ => ⟨a, ha, b, hb⟩, fun ⟨a, ha, b, hb⟩ => ⟨b, a, ha, hb⟩⟩

@[simp] theorem Result.exists_pure_eq_ok {α : Type} {a : α} :
    ∃ b, (pure a : Result α) = .ok b :=
  ⟨a, rfl⟩

theorem Result.map_eq_ok {α β : Type} {x : Result α} {f : α → β} {b : β} :
    x.map f = .ok b ↔ ∃ a, x = .ok a ∧ f a = b := by
  cases x <;> simp [Except.map]

/-- A result that passes a check is one. -/
theorem Result.exists_of_any {α : Type} {x : Result α} {p : α → Bool} (h : x.toOption.any p) :
    ∃ a, x = .ok a ∧ p a := by
  cases x with
  | error e => simp [Except.toOption] at h
  | ok a => exact ⟨a, rfl, by simpa [Except.toOption] using h⟩

/-- A result that is known passes the checks that it was seen to pass. -/
theorem Result.holds_of_any {α : Type} {x : Result α} {a : α} {p : α → Bool} (hx : x = .ok a)
    (h : x.toOption.any p) : p a := by
  obtain ⟨b, hb, hp⟩ := exists_of_any h
  obtain rfl := Except.ok.inj (hx.symm.trans hb)
  exact hp

theorem Result.eq_ok_of_toOption {α : Type} {x : Result α} {a : α} (h : x.toOption = some a) :
    x = .ok a := by
  obtain ⟨b, hb, hab⟩ := exists_of_any (x := x) (p := fun _ => true) (by simp [h])
  rw [hb] at h
  rw [hb, Option.some.inj h]

/-- A list of results succeeds if each of them does. -/
theorem Result.mapM_eq_ok {α β : Type} {f : α → Result β} {l : List α} {l' : List β} :
    l.mapM f = .ok l' ↔ List.Forall₂ (fun a b => f a = .ok b) l l' := by
  induction l generalizing l' with
  | nil =>
    simp only [List.mapM_nil, pure, Except.pure, Except.ok.injEq, List.forall₂_nil_left_iff]
    exact eq_comm
  | cons a l ih =>
    simp only [List.mapM_cons, Result.bind_eq_ok, List.forall₂_cons_left_iff, ih]
    constructor
    · rintro ⟨b, hb, bs, hbs, hpure⟩
      exact ⟨b, bs, hb, hbs, (Except.ok.inj hpure).symm⟩
    · rintro ⟨b, bs, hb, hbs, rfl⟩
      exact ⟨b, hb, bs, hbs, rfl⟩

/-- A value that may be absent is mapped if it is there. -/
theorem Result.option_mapM_eq_ok {α β : Type} {f : α → Result β} {o : Option α} {o' : Option β} :
    o.mapM f = .ok o' ↔ Option.Rel (fun a b => f a = .ok b) o o' := by
  cases o with
  | none =>
    constructor
    · rintro ⟨⟩
      exact .none
    · rintro ⟨⟩
      rfl
  | some a =>
    constructor
    · intro h
      obtain ⟨b, hb, heq⟩ := Result.map_eq_ok.1 h
      cases heq
      exact .some hb
    · rintro (h | _)
      exact Result.map_eq_ok.2 ⟨_, h, rfl⟩

/-- A list can be related to another one if each of its entries can. -/
theorem exists_forall₂_iff {α β : Type} {R : α → β → Prop} {l : List α} :
    (∃ l', List.Forall₂ R l l') ↔ ∀ a ∈ l, ∃ b, R a b := by
  induction l with
  | nil => simp
  | cons a l ih =>
    rw [List.forall_mem_cons, ← ih]
    simp only [List.forall₂_cons_left_iff]
    constructor
    · rintro ⟨_, b, bs, hb, hbs, rfl⟩
      exact ⟨⟨b, hb⟩, bs, hbs⟩
    · rintro ⟨⟨b, hb⟩, bs, hbs⟩
      exact ⟨b :: bs, b, bs, hb, hbs, rfl⟩

/-- A list of results **can** succeed if each of them can. -/
theorem Result.exists_mapM_eq_ok {α β : Type} {f : α → Result β} {l : List α} :
    (∃ l', l.mapM f = .ok l') ↔ ∀ a ∈ l, ∃ b, f a = .ok b := by
  simp only [mapM_eq_ok, exists_forall₂_iff]

/-- A list of checks passes if each of them does. -/
theorem Result.forM_eq_ok {α : Type} {f : α → Result Unit} {l : List α} :
    l.forM f = .ok () ↔ ∀ a ∈ l, f a = .ok () := by
  induction l with
  | nil => simp [List.forM, pure, Except.pure]
  | cons a l ih =>
    rw [List.forall_mem_cons, ← ih]
    exact bind_eq_ok.trans ⟨fun ⟨_, ha, hl⟩ => ⟨ha, hl⟩, fun ⟨ha, hl⟩ => ⟨(), ha, hl⟩⟩

/-- Each entry of a list corresponds to one of the list before. -/
theorem exists_of_mem_forall₂ {α β : Type} {R : α → β → Prop} {l : List α} {l' : List β}
    (h : List.Forall₂ R l l') {b : β} (hb : b ∈ l') : ∃ a ∈ l, R a b := by
  induction h with
  | nil => simp at hb
  | cons hab _ ih =>
    rcases List.mem_cons.1 hb with rfl | hb
    · exact ⟨_, List.mem_cons_self, hab⟩
    · obtain ⟨a, ha, hR⟩ := ih hb
      exact ⟨a, List.mem_cons_of_mem _ ha, hR⟩

namespace Build

variable {σ α β : Type}

/-- A build **yields** a value if it succeeds with it; the states are those before and after. -/
def Yields (x : Build σ α) (s : σ) (a : α) (s' : σ) : Prop :=
  (x.run.run s).run = (.ok a, s')

/-- A build that succeeds yields something. -/
theorem exists_yields {x : Build σ α} {s : σ} (h : (x.run.run s).1.toOption.isSome) :
    ∃ a s', x.Yields s a s' := by
  rcases hrun : x.run.run s with ⟨e | a, s'⟩
  · simp [hrun, Except.toOption] at h
  · exact ⟨a, s', hrun⟩

/-- A build yields at most one value. -/
theorem Yields.unique {x : Build σ α} {s s₁ s₂ : σ} {a b : α} (h₁ : x.Yields s a s₁)
    (h₂ : x.Yields s b s₂) : a = b ∧ s₁ = s₂ := by
  unfold Yields at h₁ h₂
  rw [h₁] at h₂
  simpa using h₂

@[simp] theorem yields_pure {a b : α} {s s' : σ} :
    (pure a : Build σ α).Yields s b s' ↔ b = a ∧ s' = s := by
  constructor
  · rintro ⟨⟩
    exact ⟨rfl, rfl⟩
  · rintro ⟨rfl, rfl⟩
    rfl

/-- A sequence of builds yields a value if each part yields one. -/
@[simp] theorem yields_bind {x : Build σ α} {f : α → Build σ β} {s s' : σ} {b : β} :
    (x >>= f).Yields s b s' ↔ ∃ a s₁, x.Yields s a s₁ ∧ (f a).Yields s₁ b s' := by
  have hbind : ((x >>= f).run.run s).run =
      match (x.run.run s).run with
      | (.ok a, s₁) => ((f a).run.run s₁).run
      | (.error e, s₁) => (.error e, s₁) := by
    simp only [ExceptT.run_bind, StateT.run_bind, Id.run_bind]
    rcases (x.run.run s).run with ⟨e | a, s₁⟩ <;> rfl
  unfold Yields
  rw [hbind]
  rcases (x.run.run s).run with ⟨e | a, s₁⟩
  · simp
  · simp only [Prod.mk.injEq, Except.ok.injEq]
    exact ⟨fun h => ⟨a, s₁, ⟨rfl, rfl⟩, h⟩, fun ⟨_, _, ⟨ha, hs⟩, h⟩ => ha ▸ hs ▸ h⟩

@[simp] theorem yields_map {x : Build σ α} {f : α → β} {s s' : σ} {b : β} :
    (f <$> x).Yields s b s' ↔ ∃ a, x.Yields s a s' ∧ b = f a := by
  rw [← bind_pure_comp, yields_bind]
  constructor
  · rintro ⟨a, s₁, hx, hb⟩
    obtain ⟨rfl, rfl⟩ := yields_pure.1 hb
    exact ⟨a, hx, rfl⟩
  · rintro ⟨a, hx, rfl⟩
    exact ⟨a, s', hx, yields_pure.2 ⟨rfl, rfl⟩⟩

@[simp] theorem yields_ofResult {r : Result α} {s s' : σ} {a : α} :
    (ofResult r : Build σ α).Yields s a s' ↔ r = .ok a ∧ s' = s := by
  constructor
  · intro h
    cases h
    exact ⟨rfl, rfl⟩
  · rintro ⟨rfl, rfl⟩
    rfl

@[simp] theorem yields_get {s s' a : σ} :
    (get : Build σ σ).Yields s a s' ↔ a = s ∧ s' = s := by
  constructor
  · rintro ⟨⟩
    exact ⟨rfl, rfl⟩
  · rintro ⟨rfl, rfl⟩
    rfl

@[simp] theorem yields_modify {f : σ → σ} {s s' : σ} {u : Unit} :
    (modify f : Build σ Unit).Yields s u s' ↔ s' = f s := by
  constructor
  · rintro ⟨⟩
    rfl
  · rintro rfl
    rfl

@[simp] theorem yields_change {f : σ → Result σ} {s s' : σ} {u : Unit} :
    (change f).Yields s u s' ↔ f s = .ok s' := by
  unfold Yields
  cases h : f s with
  | ok t => simp [run_change_ok h, Id.run]
  | error e => simp [run_change_error h, Id.run]

@[simp] theorem yields_within {outer : Context} {x : Build σ α} {s s' : σ} {a : α} :
    (within outer x).Yields s a s' ↔ x.Yields s a s' := by
  have hrun : ((within outer x).run.run s).run =
      (Result.within outer (x.run.run s).run.1, (x.run.run s).run.2) := rfl
  unfold Yields
  rw [hrun]
  rcases (x.run.run s).run with ⟨e | b, s₁⟩
  · simp [Result.within, Except.mapError]
  · simp [Result.within, Except.mapError]

/-! ### Following a relation -/

/-- A build **follows** a relation if it only leads from states to states that are so related. -/
def Follows (R : σ → σ → Prop) (x : Build σ α) : Prop :=
  ∀ ⦃s : σ⦄ ⦃a : α⦄ ⦃s' : σ⦄, x.Yields s a s' → R s s'

namespace Follows

variable {R : σ → σ → Prop} [IsPreorder σ R]

theorem pure (a : α) : Follows R (Pure.pure a) := by
  intro s b s' h
  obtain ⟨-, rfl⟩ := yields_pure.1 h
  exact Std.Refl.refl _

theorem ofResult (r : Result α) : Follows R (.ofResult r) := by
  intro s a s' h
  obtain ⟨-, rfl⟩ := yields_ofResult.1 h
  exact Std.Refl.refl _

theorem get : Follows R get := by
  intro s a s' h
  obtain ⟨-, rfl⟩ := yields_get.1 h
  exact Std.Refl.refl _

theorem bind {x : Build σ α} {f : α → Build σ β} (hx : Follows R x) (hf : ∀ a, Follows R (f a)) :
    Follows R (x >>= f) := by
  intro s b s' h
  obtain ⟨a, s₁, h₁, h₂⟩ := yields_bind.1 h
  exact IsTrans.trans _ _ _ (hx h₁) (hf a h₂)

omit [IsPreorder σ R] in
theorem of_modify {f : σ → σ} (hf : ∀ s, R s (f s)) : Follows R (modify f) := by
  intro s u s' h
  exact yields_modify.1 h ▸ hf s

omit [IsPreorder σ R] in
theorem of_change {f : σ → Result σ} (hf : ∀ {s s'}, f s = .ok s' → R s s') :
    Follows R (change f) := by
  intro s u s' h
  exact hf (yields_change.1 h)

end Follows

/-! ### Simulating along a relation -/

/-- A build **simulates** itself along a relation: what it yields from a state, it yields from every
related state, and the states that it leaves are related again. -/
def Simulates (R : σ → σ → Prop) (x : Build σ α) : Prop :=
  ∀ ⦃s t : σ⦄ ⦃a : α⦄ ⦃s' : σ⦄, R s t → x.Yields s a s' → ∃ t', x.Yields t a t' ∧ R s' t'

end Build

end ChartNet
