import ChartNet.Proofs.Build

/-!
# What a build leaves when it fails

A build that fails keeps what it did until then, so what is true of every state that can come up has
to survive failures too. `x.after s` is the state that the build `x` leaves when it is started in
`s`. It is related to `s` by any preorder that all changes along the way follow
(`Build.after_bind`).
-/

namespace ChartNet

/-! ### Results that fail -/

namespace Result

variable {α β : Type} {e : CompileError}

theorem bind_eq_error {x : Result α} {f : α → Result β} :
    (x >>= f) = .error e ↔ x = .error e ∨ ∃ a, x = .ok a ∧ f a = .error e := by
  cases x <;> simp [bind, Except.bind]

/-- A result either succeeds or fails. -/
theorem exists_error_iff {x : Result α} : (∃ e, x = .error e) ↔ ¬ ∃ a, x = .ok a := by
  cases x <;> simp

/-- A list of results that fails has one that fails so. -/
theorem exists_of_mapM_eq_error {f : α → Result β} {l : List α} (h : l.mapM f = .error e) :
    ∃ a ∈ l, f a = .error e := by
  induction l with
  | nil => cases h
  | cons a l ih =>
    rw [List.mapM_cons, bind_eq_error] at h
    rcases h with ha | ⟨b, -, hrest⟩
    · exact ⟨a, List.mem_cons_self, ha⟩
    · rcases bind_eq_error.1 hrest with hl | ⟨_, -, hpure⟩
      · obtain ⟨c, hc, hfail⟩ := ih hl
        exact ⟨c, List.mem_cons_of_mem _ hc, hfail⟩
      · cases hpure

/-- A list of checks that fails has one that fails so. -/
theorem exists_of_forM_eq_error {f : α → Result Unit} {l : List α} (h : l.forM f = .error e) :
    ∃ a ∈ l, f a = .error e := by
  induction l with
  | nil => cases h
  | cons a l ih =>
    have hbind : (f a >>= fun _ => l.forM f) = .error e := h
    rcases bind_eq_error.1 hbind with ha | ⟨_, -, hl⟩
    · exact ⟨a, List.mem_cons_self, ha⟩
    · obtain ⟨b, hb, hfail⟩ := ih hl
      exact ⟨b, List.mem_cons_of_mem _ hb, hfail⟩

end Result

namespace Build

variable {σ α β : Type}

/-! ### What is left -/

/-- The state that a build **leaves**, also when it fails. -/
def after (x : Build σ α) (s : σ) : σ := (x.run.run s).run.2

/-- Whether a build **succeeds**. -/
def succeeds (x : Build σ α) (s : σ) : Bool := (x.run.run s).run.1.toOption.isSome

/-- A build that yields a value leaves the state that it yields. -/
theorem Yields.after_eq {x : Build σ α} {s s' : σ} {a : α} (h : x.Yields s a s') :
    x.after s = s' := by
  unfold Yields at h
  rw [after, h]

theorem succeeds_iff {x : Build σ α} {s : σ} : x.succeeds s ↔ ∃ a, x.Yields s a (x.after s) := by
  unfold succeeds Yields after
  rcases (x.run.run s).run with ⟨e | a, s'⟩ <;> simp [Except.toOption]

@[simp] theorem after_pure (a : α) (s : σ) : (pure a : Build σ α).after s = s := rfl

@[simp] theorem after_ofResult (r : Result α) (s : σ) : (ofResult r).after s = s := rfl

@[simp] theorem after_get (s : σ) : (get : Build σ σ).after s = s := rfl

@[simp] theorem after_modify (f : σ → σ) (s : σ) : (modify f : Build σ Unit).after s = f s := rfl

/-- A change either succeeds and leaves the changed state, or fails and leaves the state as it
was. -/
theorem after_change (f : σ → Result σ) (s : σ) :
    ((change f).succeeds s = true ∧ f s = .ok ((change f).after s)) ∨
      ((change f).succeeds s = false ∧ (change f).after s = s) := by
  cases h : f s with
  | ok s' =>
    have hyields : (change f).Yields s () s' := yields_change.2 h
    exact .inl ⟨succeeds_iff.2 ⟨(), hyields.after_eq ▸ hyields⟩,
      congrArg Except.ok hyields.after_eq.symm⟩
  | error e => exact .inr (by simp [succeeds, after, run_change_error h, Id.run, Except.toOption])

/-! ### Sequences -/

private theorem run_bind (x : Build σ α) (f : α → Build σ β) (s : σ) :
    ((x >>= f).run.run s).run =
      match (x.run.run s).run with
      | (.ok a, s₁) => ((f a).run.run s₁).run
      | (.error e, s₁) => (.error e, s₁) := by
  simp only [ExceptT.run_bind, StateT.run_bind, Id.run_bind]
  rcases (x.run.run s).run with ⟨e | a, s₁⟩ <;> rfl

/-- A sequence of builds goes on from what its first part yields. -/
theorem Yields.after_bind {x : Build σ α} {f : α → Build σ β} {s s₁ : σ} {a : α}
    (h : x.Yields s a s₁) : (x >>= f).after s = (f a).after s₁ := by
  unfold Yields at h
  rw [after, run_bind, h, after]

/-- A sequence of builds ends with a first part that fails. -/
@[simp] theorem after_error_bind (e : CompileError) (f : α → Build σ β) (s : σ) :
    ((ofResult (.error e) : Build σ α) >>= f).after s = s := by
  rw [after, run_bind]
  rfl

theorem Yields.succeeds_bind {x : Build σ α} {f : α → Build σ β} {s s₁ : σ} {a : α}
    (h : x.Yields s a s₁) : (x >>= f).succeeds s = (f a).succeeds s₁ := by
  have hrun : ((x >>= f).run.run s).run = ((f a).run.run s₁).run := by
    unfold Yields at h
    rw [run_bind, h]
  exact congrArg (·.1.toOption.isSome) hrun

@[simp] theorem succeeds_error_bind (e : CompileError) (f : α → Build σ β) (s : σ) :
    ((ofResult (.error e) : Build σ α) >>= f).succeeds s = false :=
  congrArg (·.1.toOption.isSome) (run_bind _ f s)

/-- **A sequence of builds follows a relation** if its parts do, the second one from each state that
the first one yields. -/
theorem after_bind {R : σ → σ → Prop} [IsTrans σ R] {x : Build σ α} {f : α → Build σ β} {s : σ}
    (hx : R s (x.after s)) (hf : ∀ a s', x.Yields s a s' → R s' ((f a).after s')) :
    R s ((x >>= f).after s) := by
  rcases hrun : (x.run.run s).run with ⟨e | a, s₁⟩
  · have hfail : (x >>= f).after s = x.after s := by rw [after, run_bind, hrun, after, hrun]
    exact hfail ▸ hx
  · have hyields : x.Yields s a s₁ := hrun
    rw [hyields.after_bind]
    exact IsTrans.trans _ _ _ (hyields.after_eq ▸ hx) (hf a s₁ hyields)

/-! ### Failing -/

/-- A build **fails** with an error; the states are those before and after. -/
def Fails (x : Build σ α) (s : σ) (e : CompileError) (s' : σ) : Prop :=
  (x.run.run s).run = (.error e, s')

theorem Fails.after_eq {x : Build σ α} {s s' : σ} {e : CompileError} (h : x.Fails s e s') :
    x.after s = s' := by
  unfold Fails at h
  rw [after, h]

theorem Fails.succeeds_eq {x : Build σ α} {s s' : σ} {e : CompileError} (h : x.Fails s e s') :
    x.succeeds s = false := by
  unfold Fails at h
  rw [succeeds, h]
  rfl

@[simp] theorem fails_pure {a : α} {s s' : σ} {e : CompileError} :
    ¬ (pure a : Build σ α).Fails s e s' := by
  rintro ⟨⟩

@[simp] theorem fails_get {s s' : σ} {e : CompileError} : ¬ (get : Build σ σ).Fails s e s' := by
  rintro ⟨⟩

@[simp] theorem fails_modify {f : σ → σ} {s s' : σ} {e : CompileError} :
    ¬ (modify f : Build σ Unit).Fails s e s' := by
  rintro ⟨⟩

@[simp] theorem fails_ofResult {r : Result α} {s s' : σ} {e : CompileError} :
    (ofResult r : Build σ α).Fails s e s' ↔ r = .error e ∧ s' = s := by
  constructor
  · intro h
    cases h
    exact ⟨rfl, rfl⟩
  · rintro ⟨rfl, rfl⟩
    rfl

/-- A sequence of builds fails if one of its parts does. -/
@[simp] theorem fails_bind {x : Build σ α} {f : α → Build σ β} {s s' : σ} {e : CompileError} :
    (x >>= f).Fails s e s' ↔ x.Fails s e s' ∨ ∃ a s₁, x.Yields s a s₁ ∧ (f a).Fails s₁ e s' := by
  unfold Fails Yields
  rw [run_bind]
  rcases (x.run.run s).run with ⟨e' | a, s₁⟩
  · simp
  · simp only [Prod.mk.injEq, reduceCtorEq, false_and, Except.ok.injEq, false_or]
    exact ⟨fun h => ⟨a, s₁, ⟨rfl, rfl⟩, h⟩, fun ⟨_, _, ⟨ha, hs⟩, h⟩ => ha ▸ hs ▸ h⟩

/-! ### Preserved properties -/

/-- A property is **preserved** from one state to another one if the second has it whenever the
first does. -/
def Preserves (P : σ → Prop) (s s' : σ) : Prop := P s → P s'

instance (P : σ → Prop) : IsPreorder σ (Preserves P) where
  refl _ h := h
  trans _ _ _ h h' hs := h' (h hs)

end Build

end ChartNet
