import Mathlib
import ChartNet.Phrase.Parser

/-!
# The grammar of phrases

What the descent accepts, as rules that can be put together. `Takes` says that a reader takes a
phrase off the front of a token list and leaves the rest; there is one rule per way that a reader
can succeed. From them follow four ways in which tokens can **spell** a phrase, from the tightest to
the loosest: as a head that members, indexes and arguments can follow, as an operand of a level, as
the left end of a chain of a level, and as a whole phrase. Each is about the tokens in front of any
rest that does not go on with the phrase.
-/

namespace ChartNet.Phrase

/-- A reader **takes** something off the front of its tokens and leaves the rest. -/
def Takes {α : Type} {P : List Token → Prop}
    (r : Except ParseError (α × { rest : List Token // P rest })) (a : α) (rest : List Token) :
    Prop :=
  ∃ h, r = .ok (a, ⟨rest, h⟩)

variable {args : Bool} {ts rest r r₁ r₂ : List Token} {t t' : Token} {p q left right : Phrase}
  {k : Nat}

/-! ### Rules -/

theorem takes_phrase_level (h : Takes (level args 6 ts) p rest)
    (hrest : ∀ t ∈ rest.head?, t.kind ≠ .question) : Takes (phrase args ts) p rest := by
  obtain ⟨hlength, h⟩ := h
  refine ⟨hlength, ?_⟩
  rw [phrase, h]
  cases rest with
  | nil => rfl
  | cons t r => simp [hrest t (by simp)]

theorem takes_phrase_conditional (htest : Takes (level args 6 ts) p (t :: r))
    (ht : t.kind = .question) (hleft : Takes (phrase args r) left (t' :: r₁))
    (ht' : t'.kind = .colon) (hright : Takes (phrase args r₁) right rest) :
    Takes (phrase args ts) (.conditional p left right) rest := by
  obtain ⟨h₁, htest⟩ := htest
  obtain ⟨h₂, hleft⟩ := hleft
  obtain ⟨h₃, hright⟩ := hright
  simp only [List.length_cons] at h₁ h₂
  refine ⟨by omega, ?_⟩
  rw [phrase, htest]
  simp [ht, hleft, expect, ht', hright]

theorem takes_level_zero (h : Takes (unaryPhrase args ts) p rest) :
    Takes (level args 0 ts) p rest := by
  obtain ⟨hlength, h⟩ := h
  exact ⟨hlength, by rw [level, h]⟩

theorem takes_level_succ (h : Takes (level args k ts) left r)
    (hrest : Takes (levelRest args k left r) p rest) : Takes (level args (k + 1) ts) p rest := by
  obtain ⟨h₁, h⟩ := h
  obtain ⟨h₂, hrest⟩ := hrest
  refine ⟨by omega, ?_⟩
  rw [level, h]
  simp [hrest]

theorem takes_levelRest_stop (h : ∀ t ∈ rest.head?, isBinary (k + 1) t.kind = false) :
    Takes (levelRest args k left rest) left rest := by
  refine ⟨Nat.le_refl _, ?_⟩
  rw [levelRest.eq_def]
  cases rest with
  | nil => rfl
  | cons t r => simp [h t (by simp)]

theorem takes_levelRest_step (ht : isBinary (k + 1) t.kind = true)
    (hright : Takes (level args k ts) right r)
    (hrest : Takes (levelRest args k (.binary t left right) r) p rest) :
    Takes (levelRest args k left (t :: ts)) p rest := by
  obtain ⟨h₁, hright⟩ := hright
  obtain ⟨h₂, hrest⟩ := hrest
  refine ⟨by simp only [List.length_cons]; omega, ?_⟩
  rw [levelRest, if_pos ht, hright]
  simp [hrest]

theorem takes_unaryPhrase_unary (ht : isUnary t.kind = true)
    (h : Takes (unaryPhrase args ts) p rest) :
    Takes (unaryPhrase args (t :: ts)) (.unary t p) rest := by
  obtain ⟨hlength, h⟩ := h
  refine ⟨by simp only [List.length_cons]; omega, ?_⟩
  rw [unaryPhrase, if_pos ht, h]

theorem takes_unaryPhrase_primary (ht : isUnary t.kind = false)
    (h : Takes (primary args (t :: ts)) p r) (hrest : Takes (suffixes args p r) q rest) :
    Takes (unaryPhrase args (t :: ts)) q rest := by
  obtain ⟨h₁, h⟩ := h
  obtain ⟨h₂, hrest⟩ := hrest
  simp only [List.length_cons] at h₁
  refine ⟨by simp only [List.length_cons]; omega, ?_⟩
  rw [unaryPhrase, if_neg (by simp [ht]), h]
  simp [hrest]

theorem takes_primary_group (ht : t.kind = .leftParen) (h : Takes (phrase args ts) p (t' :: rest))
    (ht' : t'.kind = .rightParen) : Takes (primary args (t :: ts)) (.group t p) rest := by
  obtain ⟨hlength, h⟩ := h
  simp only [List.length_cons] at hlength
  refine ⟨by simp only [List.length_cons]; omega, ?_⟩
  rw [primary]
  simp [ht, h, expect, ht']

theorem takes_primary_list_nil (ht : t.kind = .leftBracket) (ht' : t'.kind = .rightBracket) :
    Takes (primary args (t :: t' :: rest)) (.list t []) rest := by
  refine ⟨by simp only [List.length_cons]; omega, ?_⟩
  rw [primary]
  simp [ht, startsPhrase, isUnary, startsPrimary, expect, ht']

theorem takes_primary_list {ps : List Phrase} (ht : t.kind = .leftBracket)
    (hstart : startsPhrase ts = true) (h : Takes (phrases args ts) ps (t' :: rest))
    (ht' : t'.kind = .rightBracket) : Takes (primary args (t :: ts)) (.list t ps) rest := by
  obtain ⟨hlength, h⟩ := h
  simp only [List.length_cons] at hlength
  refine ⟨by simp only [List.length_cons]; omega, ?_⟩
  rw [primary]
  simp [ht, hstart, h, expect, ht']

/-- Whether members, indexes or arguments go on with a phrase. -/
def isSuffix : TokenKind → Bool
  | .dot | .leftBracket | .leftParen => true
  | _ => false

theorem takes_suffixes_stop (h : ∀ t ∈ rest.head?, isSuffix t.kind = false) :
    Takes (suffixes args p rest) p rest := by
  refine ⟨Nat.le_refl _, ?_⟩
  rw [suffixes.eq_def]
  cases rest with
  | nil => rfl
  | cons t r =>
    have ht := h t (by simp)
    cases hkind : t.kind <;> simp_all [isSuffix]

theorem takes_suffixes_member (ht : t.kind = .dot) (ht' : t'.kind = .word)
    (h : Takes (suffixes args (.member p t') ts) q rest) :
    Takes (suffixes args p (t :: t' :: ts)) q rest := by
  obtain ⟨hlength, h⟩ := h
  refine ⟨by simp only [List.length_cons]; omega, ?_⟩
  rw [suffixes]
  simp [ht, expect, ht', h]

theorem takes_suffixes_index (ht : t.kind = .leftBracket)
    (hposition : Takes (phrase args ts) left (t' :: r)) (ht' : t'.kind = .rightBracket)
    (h : Takes (suffixes args (.index p t left) r) q rest) :
    Takes (suffixes args p (t :: ts)) q rest := by
  obtain ⟨h₁, hposition⟩ := hposition
  obtain ⟨h₂, h⟩ := h
  simp only [List.length_cons] at h₁
  refine ⟨by simp only [List.length_cons]; omega, ?_⟩
  rw [suffixes]
  simp [ht, hposition, expect, ht', h]

theorem takes_suffixes_call_nil (ht : t.kind = .leftParen) (ht' : t'.kind = .rightParen)
    (h : Takes (suffixes args (.call p t []) ts) q rest) :
    Takes (suffixes args p (t :: t' :: ts)) q rest := by
  obtain ⟨hlength, h⟩ := h
  refine ⟨by simp only [List.length_cons]; omega, ?_⟩
  rw [suffixes]
  simp [ht, startsPhrase, isUnary, startsPrimary, expect, ht', h]

theorem takes_suffixes_call {ps : List Phrase} (ht : t.kind = .leftParen)
    (hstart : startsPhrase ts = true) (hps : Takes (phrases true ts) ps (t' :: r))
    (ht' : t'.kind = .rightParen) (h : Takes (suffixes args (.call p t ps) r) q rest) :
    Takes (suffixes args p (t :: ts)) q rest := by
  obtain ⟨h₁, hps⟩ := hps
  obtain ⟨h₂, h⟩ := h
  simp only [List.length_cons] at h₁
  refine ⟨by simp only [List.length_cons]; omega, ?_⟩
  rw [suffixes]
  simp [ht, hstart, hps, expect, ht', h]

theorem takes_phrases_one (h : Takes (phrase args ts) p rest)
    (hrest : ∀ t ∈ rest.head?, t.kind ≠ .comma) : Takes (phrases args ts) [p] rest := by
  obtain ⟨hlength, h⟩ := h
  refine ⟨hlength, ?_⟩
  rw [phrases, h]
  cases rest with
  | nil => rfl
  | cons t r => simp [hrest t (by simp)]

theorem takes_phrases_cons {ps : List Phrase} (h : Takes (phrase args ts) p (t :: r))
    (ht : t.kind = .comma) (hps : Takes (phrases args r) ps rest) :
    Takes (phrases args ts) (p :: ps) rest := by
  obtain ⟨h₁, h⟩ := h
  obtain ⟨h₂, hps⟩ := hps
  simp only [List.length_cons] at h₁
  refine ⟨by omega, ?_⟩
  rw [phrases, h]
  simp [ht, hps]

/-! ### Tokens that spell a phrase -/

/-- Nothing goes on with an operand of a level: neither a suffix nor an operator of the level or a
tighter one. -/
def Stops (k : Nat) (rest : List Token) : Prop :=
  ∀ t ∈ rest.head?, isSuffix t.kind = false ∧ ∀ j ≤ k, isBinary j t.kind = false

/-- Tokens spell a phrase as a **head**. -/
def Heads (ts : List Token) (p : Phrase) : Prop :=
  ∀ args rest q r, Takes (suffixes args p rest) q r → Takes (unaryPhrase args (ts ++ rest)) q r

/-- Tokens spell a phrase as an **operand** of a level. -/
def Fits (k : Nat) (ts : List Token) (p : Phrase) : Prop :=
  ∀ args rest, Stops k rest → Takes (level args k (ts ++ rest)) p rest

/-- Tokens spell a phrase as the left end of a **chain** of level `k + 1`. -/
def Chains (k : Nat) (ts : List Token) (p : Phrase) : Prop :=
  ∀ args rest q r, Stops k rest → Takes (levelRest args k p rest) q r →
    Takes (level args (k + 1) (ts ++ rest)) q r

/-- Nothing goes on with a phrase. -/
def StopsAll (rest : List Token) : Prop :=
  Stops 6 rest ∧ ∀ t ∈ rest.head?, t.kind ≠ .question

/-- Tokens spell a **whole** phrase. -/
def Whole (ts : List Token) (p : Phrase) : Prop :=
  ∀ args rest, StopsAll rest → Takes (phrase args (ts ++ rest)) p rest

theorem Stops.mono {j : Nat} (h : Stops k rest) (hj : j ≤ k) : Stops j rest :=
  fun t ht => ⟨(h t ht).1, fun i hi => (h t ht).2 i (Nat.le_trans hi hj)⟩

theorem Heads.fits (h : Heads ts p) : Fits 0 ts p := fun args rest hrest =>
  takes_level_zero (h args rest p rest (takes_suffixes_stop fun t ht => (hrest t ht).1))

theorem Fits.chains (h : Fits k ts p) : Chains k ts p := fun args rest _ _ hrest hstep =>
  takes_level_succ (h args rest hrest) hstep

theorem Chains.fits (h : Chains k ts p) : Fits (k + 1) ts p := fun args rest hrest =>
  h args rest p rest (hrest.mono (Nat.le_succ k))
    (takes_levelRest_stop fun t ht => (hrest t ht).2 (k + 1) (Nat.le_refl _))

/-- An operand of a level is one of every looser level. -/
theorem Fits.mono {j : Nat} (h : Fits k ts p) (hj : k ≤ j) : Fits j ts p := by
  induction hj with
  | refl => exact h
  | step _ ih => exact ih.chains.fits

theorem Fits.whole (h : Fits 6 ts p) : Whole ts p := fun args rest hrest =>
  takes_phrase_level (h args rest hrest.1) hrest.2

/-- Operators belong to one level, and none is a suffix. -/
private theorem isBinary_unique {j : Nat} {kind : TokenKind} (h : isBinary k kind = true) :
    isSuffix kind = false ∧ (isBinary j kind = true → j = k) := by
  unfold isBinary at h ⊢
  split at h <;> split <;> simp_all [isSuffix]

theorem stops_of_isBinary (ht : isBinary (k + 1) t.kind = true) : Stops k (t :: rest) := by
  intro t' ht'
  obtain rfl := Option.some.inj (Option.mem_def.1 ht')
  refine ⟨(isBinary_unique (j := 0) ht).1, fun j hj => ?_⟩
  by_contra hbinary
  have hj' := (isBinary_unique ht).2 (by simpa using hbinary)
  omega

theorem Chains.binary {tsₗ tsᵣ : List Token} (hleft : Chains k tsₗ left)
    (ht : isBinary (k + 1) t.kind = true) (hright : Fits k tsᵣ right) :
    Chains k (tsₗ ++ t :: tsᵣ) (.binary t left right) := by
  intro args rest q r hrest hstep
  rw [List.append_assoc, List.cons_append]
  exact hleft args _ q r (stops_of_isBinary ht)
    (takes_levelRest_step ht (hright args rest hrest) hstep)

theorem Fits.unary (h : Fits 0 ts p) (ht : isUnary t.kind = true) :
    Fits 0 (t :: ts) (.unary t p) := by
  intro args rest hrest
  obtain ⟨hlength, hlevel⟩ := h args rest hrest
  rw [level] at hlevel
  exact takes_level_zero (takes_unaryPhrase_unary ht ⟨hlength, hlevel⟩)

/-! ### Heads -/

/-- A token that is a phrase by itself heads one. -/
theorem heads_token (hunary : isUnary t.kind = false)
    (h : ∀ args rest, Takes (primary args (t :: rest)) p rest) : Heads [t] p :=
  fun args rest _ _ hstep => takes_unaryPhrase_primary hunary (h args rest) hstep

theorem heads_number (ht : t.kind = .number) : Heads [t] (.number t) :=
  heads_token (by simp [ht, isUnary]) fun _ _ => ⟨by simp, by rw [primary]; simp [ht]⟩

theorem heads_true (ht : t.kind = .trueWord) : Heads [t] (.truth t true) :=
  heads_token (by simp [ht, isUnary]) fun _ _ => ⟨by simp, by rw [primary]; simp [ht]⟩

theorem heads_false (ht : t.kind = .falseWord) : Heads [t] (.truth t false) :=
  heads_token (by simp [ht, isUnary]) fun _ _ => ⟨by simp, by rw [primary]; simp [ht]⟩

theorem heads_name (ht : t.kind = .word) : Heads [t] (.name t) :=
  heads_token (by simp [ht, isUnary]) fun _ _ => ⟨by simp, by rw [primary]; simp [ht]⟩

/-- What closes or separates goes on with no phrase. -/
theorem stopsAll_of_kind (ht : t.kind ∈ [TokenKind.rightParen, .rightBracket, .comma, .colon]) :
    StopsAll (t :: rest) := by
  have hkind : ∀ j, isSuffix t.kind = false ∧ isBinary j t.kind = false ∧ t.kind ≠ .question := by
    intro j
    simp only [List.mem_cons, List.not_mem_nil, or_false] at ht
    rcases ht with ht | ht | ht | ht <;> simp [ht, isSuffix, isBinary]
  refine ⟨fun t' ht' => ?_, fun t' ht' => ?_⟩
  · obtain rfl := Option.some.inj (Option.mem_def.1 ht')
    exact ⟨(hkind 0).1, fun j _ => (hkind j).2.1⟩
  · obtain rfl := Option.some.inj (Option.mem_def.1 ht')
    exact (hkind 0).2.2

theorem Whole.group (h : Whole ts p) (ht : t.kind = .leftParen) (ht' : t'.kind = .rightParen) :
    Heads (t :: ts ++ [t']) (.group t p) := by
  intro args rest q r hstep
  rw [List.append_assoc, List.cons_append, List.singleton_append]
  exact takes_unaryPhrase_primary (by simp [ht, isUnary])
    (takes_primary_group ht (h args _ (stopsAll_of_kind (by simp [ht']))) ht') hstep

theorem Heads.member (h : Heads ts p) (ht : t.kind = .dot) (ht' : t'.kind = .word) :
    Heads (ts ++ [t, t']) (.member p t') := by
  intro args rest q r hstep
  rw [List.append_assoc]
  exact h args _ q r (takes_suffixes_member ht ht' hstep)

theorem Heads.index {tsᵢ : List Token} (h : Heads ts p) (ht : t.kind = .leftBracket)
    (hposition : Whole tsᵢ q) (ht' : t'.kind = .rightBracket) :
    Heads (ts ++ t :: tsᵢ ++ [t']) (.index p t q) := by
  intro args rest q' r hstep
  rw [show ts ++ t :: tsᵢ ++ [t'] ++ rest = ts ++ t :: (tsᵢ ++ t' :: rest) by simp]
  exact h args _ q' r (takes_suffixes_index ht
    (hposition args _ (stopsAll_of_kind (by simp [ht']))) ht' hstep)

theorem Heads.call_nil (h : Heads ts p) (ht : t.kind = .leftParen) (ht' : t'.kind = .rightParen) :
    Heads (ts ++ [t, t']) (.call p t []) := by
  intro args rest q r hstep
  rw [List.append_assoc]
  exact h args _ q r (takes_suffixes_call_nil ht ht' hstep)

/-! ### Lists of phrases -/

/-- Tokens spell phrases that are separated by commas. -/
inductive Items : List Token → List Phrase → Prop
  | one {ts : List Token} {p : Phrase} (h : Whole ts p) : Items ts [p]
  | cons {ts r : List Token} {t : Token} {p : Phrase} {ps : List Phrase} (h : Whole ts p)
      (ht : t.kind = .comma) (hrest : Items r ps) : Items (ts ++ t :: r) (p :: ps)

theorem Items.takes {ps : List Phrase} (h : Items ts ps) (hrest : StopsAll rest)
    (hcomma : ∀ t ∈ rest.head?, t.kind ≠ .comma) : Takes (phrases args (ts ++ rest)) ps rest := by
  induction h with
  | one h => exact takes_phrases_one (h args rest hrest) hcomma
  | cons h ht _ ih =>
    rw [List.append_assoc, List.cons_append]
    exact takes_phrases_cons (h args _ (stopsAll_of_kind (by simp [ht]))) ht ih

private theorem startsPhrase_of_takes_unaryPhrase (h : Takes (unaryPhrase args ts) p rest) :
    startsPhrase ts = true := by
  obtain ⟨_, h⟩ := h
  cases ts with
  | nil =>
    rw [unaryPhrase.eq_def] at h
    cases h
  | cons t ts =>
    by_contra hstart
    simp only [startsPhrase, Bool.or_eq_true, not_or, Bool.not_eq_true] at hstart
    have hprimary : primary args (t :: ts) = .error (wrong args .operand (t :: ts)) := by
      rw [primary]
      cases hkind : t.kind <;> simp_all [startsPrimary]
    rw [unaryPhrase.eq_def] at h
    simp [hstart.1, hprimary] at h

private theorem startsPhrase_of_takes_level (h : Takes (level args k ts) p rest) :
    startsPhrase ts = true := by
  induction k generalizing p rest with
  | zero =>
    obtain ⟨hlength, h⟩ := h
    rw [level.eq_def] at h
    exact startsPhrase_of_takes_unaryPhrase ⟨hlength, h⟩
  | succ k ih =>
    obtain ⟨_, h⟩ := h
    rw [level.eq_def] at h
    cases hlevel : level args k ts with
    | error e => simp [hlevel] at h
    | ok x => exact ih ⟨x.2.2, hlevel⟩

/-- Tokens that spell a phrase start as phrases do. -/
theorem startsPhrase_of_takes (h : Takes (phrase args ts) p rest) : startsPhrase ts = true := by
  obtain ⟨_, h⟩ := h
  rw [phrase.eq_def] at h
  cases hlevel : level args 6 ts with
  | error e => simp [hlevel] at h
  | ok x => exact startsPhrase_of_takes_level ⟨x.2.2, hlevel⟩

theorem Items.startsPhrase {ps : List Phrase} (h : Items ts ps) (hrest : StopsAll rest) :
    startsPhrase (ts ++ rest) = true := by
  cases h with
  | one h => exact startsPhrase_of_takes (h true rest hrest)
  | cons h ht _ =>
    rw [List.append_assoc, List.cons_append]
    exact startsPhrase_of_takes (h true _ (stopsAll_of_kind (by simp [ht])))

theorem Heads.call {ps : List Phrase} {tsᵢ : List Token} (h : Heads ts p) (ht : t.kind = .leftParen)
    (hitems : Items tsᵢ ps) (ht' : t'.kind = .rightParen) :
    Heads (ts ++ t :: tsᵢ ++ [t']) (.call p t ps) := by
  intro args rest q r hstep
  have hstop : StopsAll (t' :: rest) := stopsAll_of_kind (by simp [ht'])
  rw [show ts ++ t :: tsᵢ ++ [t'] ++ rest = ts ++ t :: (tsᵢ ++ t' :: rest) by simp]
  exact h args _ q r (takes_suffixes_call ht (hitems.startsPhrase hstop)
    (hitems.takes hstop (by simp [ht'])) ht' hstep)

theorem heads_list_nil (ht : t.kind = .leftBracket) (ht' : t'.kind = .rightBracket) :
    Heads [t, t'] (.list t []) := fun _ _ _ _ hstep =>
  takes_unaryPhrase_primary (by simp [ht, isUnary]) (takes_primary_list_nil ht ht') hstep

theorem Items.list {ps : List Phrase} (h : Items ts ps) (ht : t.kind = .leftBracket)
    (ht' : t'.kind = .rightBracket) : Heads (t :: ts ++ [t']) (.list t ps) := by
  intro args rest q r hstep
  have hstop : StopsAll (t' :: rest) := stopsAll_of_kind (by simp [ht'])
  rw [List.append_assoc, List.cons_append, List.singleton_append]
  exact takes_unaryPhrase_primary (by simp [ht, isUnary])
    (takes_primary_list ht (h.startsPhrase hstop) (h.takes hstop (by simp [ht'])) ht') hstep

/-! ### Conditionals and whole texts -/

theorem Whole.conditional {tsₗ tsᵣ : List Token} (htest : Fits 6 ts p) (ht : t.kind = .question)
    (hleft : Whole tsₗ left) (ht' : t'.kind = .colon) (hright : Whole tsᵣ right) :
    Whole (ts ++ t :: tsₗ ++ t' :: tsᵣ) (.conditional p left right) := by
  intro args rest hrest
  rw [show ts ++ t :: tsₗ ++ t' :: tsᵣ ++ rest = ts ++ t :: (tsₗ ++ t' :: (tsᵣ ++ rest)) by simp]
  have hstop : Stops 6 (t :: (tsₗ ++ t' :: (tsᵣ ++ rest))) := by
    intro t'' ht''
    obtain rfl := Option.some.inj (Option.mem_def.1 ht'')
    exact ⟨by simp [ht, isSuffix], fun j _ => by simp [ht, isBinary]⟩
  exact takes_phrase_conditional (htest args _ hstop) ht
    (hleft args _ (stopsAll_of_kind (by simp [ht']))) ht' (hright args rest hrest)

/-- **Tokens that spell a whole phrase are parsed as it.** -/
theorem Whole.parse (h : Whole ts p) : parse ts = .ok p := by
  have htakes := h false [] ⟨by simp [Stops], by simp⟩
  rw [List.append_nil] at htakes
  obtain ⟨_, htakes⟩ := htakes
  rw [Phrase.parse, htakes]

end ChartNet.Phrase
