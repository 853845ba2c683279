import ChartNet.Proofs.Source.Derivation

/-!
# The descent finds derivations

Whatever a reader takes off the front of its tokens has a derivation from the rule of the reader.
The first part takes each reader apart: one lemma lists all ways in which it can succeed, as the
converse of the rules of the grammar. The second part puts the derivations together. The readers
call each other on ever shorter lists, so what all of them find is proved for lists of bounded
length at a time.
-/

namespace ChartNet.Phrase

variable {args : Bool} {ts rest : List Token} {t : Token} {p left base : Phrase} {k : Nat}

/-! ### The ways in which a reader succeeds -/

/-- A reader that takes something leaves fewer tokens. -/
theorem Takes.length_lt {α : Type} {r : Parsed α ts} {a : α} (h : Takes r a rest) :
    rest.length < ts.length :=
  h.1

theorem Takes.of_expect {kind : TokenKind} (h : Takes (expect args kind ts) t rest) :
    t.kind = kind ∧ ts = t :: rest := by
  obtain ⟨hlength, h⟩ := h
  unfold expect at h
  split at h
  · split at h
    · cases h
      exact ⟨by assumption, rfl⟩
    · cases h
  · cases h

theorem Takes.phrase_cases (h : Takes (phrase args ts) p rest) :
    Takes (level args 6 ts) p rest ∨
      ∃ test question r whenTrue colon r₁ whenFalse, Takes (level args 6 ts) test (question :: r) ∧
        question.kind = .question ∧ Takes (phrase args r) whenTrue (colon :: r₁) ∧
        colon.kind = .colon ∧ Takes (phrase args r₁) whenFalse rest ∧
        p = .conditional test whenTrue whenFalse := by
  obtain ⟨hlength, h⟩ := h
  rw [phrase.eq_def] at h
  split at h
  · cases h
  · rename_i htest
    cases h
    exact .inl ⟨hlength, htest⟩
  · rename_i test question r hr htest
    split at h
    · rename_i hquestion
      simp only at h
      split at h
      · cases h
      rename_i whenTrue r₁ hr₁ htrue
      split at h
      · cases h
      rename_i colon r₂ hr₂ hexpect
      split at h
      · cases h
      rename_i whenFalse r₃ hr₃ hfalse
      cases h
      obtain ⟨hcolon, rfl⟩ := Takes.of_expect ⟨hr₂, hexpect⟩
      exact .inr ⟨test, question, r, whenTrue, colon, r₂, whenFalse, ⟨hr, htest⟩, hquestion,
        ⟨hr₁, htrue⟩, hcolon, ⟨hr₃, hfalse⟩, rfl⟩
    · cases h
      exact .inl ⟨hr, htest⟩

theorem Takes.level_zero (h : Takes (level args 0 ts) p rest) :
    Takes (unaryPhrase args ts) p rest := by
  obtain ⟨hlength, h⟩ := h
  rw [level.eq_def] at h
  exact ⟨hlength, h⟩

theorem Takes.level_succ (h : Takes (level args (k + 1) ts) p rest) :
    ∃ left r, Takes (level args k ts) left r ∧ Takes (levelRest args k left r) p rest := by
  obtain ⟨hlength, h⟩ := h
  rw [level.eq_def] at h
  simp only at h
  split at h
  · cases h
  rename_i left r hr hleft
  split at h
  · cases h
  rename_i q r₁ hr₁ hrest
  cases h
  exact ⟨left, r, ⟨hr, hleft⟩, hr₁, hrest⟩

theorem Takes.levelRest_cases (h : Takes (levelRest args k left ts) p rest) :
    (p = left ∧ ts = rest) ∨
      ∃ op r right r₁, ts = op :: r ∧ isBinary (k + 1) op.kind = true ∧
        Takes (level args k r) right r₁ ∧
        Takes (levelRest args k (.binary op left right) r₁) p rest := by
  obtain ⟨hlength, h⟩ := h
  rw [levelRest.eq_def] at h
  split at h
  · cases h
    exact .inl ⟨rfl, rfl⟩
  rename_i op r
  split at h
  · rename_i hop
    split at h
    · cases h
    rename_i right r₁ hr₁ hright
    split at h
    · cases h
    rename_i q r₂ hr₂ hrest
    cases h
    exact .inr ⟨op, r, right, r₁, rfl, hop, ⟨hr₁, hright⟩, hr₂, hrest⟩
  · cases h
    exact .inl ⟨rfl, rfl⟩

theorem Takes.unaryPhrase_cases (h : Takes (unaryPhrase args ts) p rest) :
    (∃ op r q, ts = op :: r ∧ isUnary op.kind = true ∧ Takes (unaryPhrase args r) q rest ∧
      p = .unary op q) ∨
      ∃ q r, Takes (primary args ts) q r ∧ Takes (suffixes args q r) p rest := by
  obtain ⟨hlength, h⟩ := h
  rw [unaryPhrase.eq_def] at h
  split at h
  · cases h
  rename_i op r
  split at h
  · rename_i hop
    split at h
    · cases h
    rename_i q r₁ hr₁ hq
    cases h
    exact .inl ⟨op, r, q, rfl, hop, ⟨hr₁, hq⟩, rfl⟩
  · split at h
    · cases h
    rename_i q r₁ hr₁ hq
    split at h
    · cases h
    rename_i p' r₂ hr₂ hsuffixes
    cases h
    exact .inr ⟨q, r₁, ⟨hr₁, hq⟩, hr₂, hsuffixes⟩

/-- The arguments before a closing sign are read as a list, or there are none. -/
private theorem reads_arguments {kind : TokenKind} {ps : List Phrase} {closing : Token}
    {place : Bool} (h : (startsPhrase ts = true ∧ ∃ r, Takes (phrases args ts) ps r ∧
        Takes (expect place kind r) closing rest) ∨
      (startsPhrase ts = false ∧ ps = [] ∧ Takes (expect place kind ts) closing rest)) :
    closing.kind = kind ∧ Rule.Reads args ts .arguments ps (closing :: rest) := by
  obtain ⟨hstart, r, hps, hclosing⟩ | ⟨hstart, rfl, hclosing⟩ := h
  · obtain ⟨hkind, rfl⟩ := hclosing.of_expect
    exact ⟨hkind, .inl ⟨hstart, hps⟩⟩
  · obtain ⟨hkind, rfl⟩ := hclosing.of_expect
    exact ⟨hkind, .inr ⟨hstart, rfl, rfl⟩⟩

/-- A phrase that is one token. -/
def IsAtom (t : Token) (p : Phrase) : Prop :=
  (t.kind = .number ∧ p = .number t) ∨ (t.kind = .string ∧ p = .string t) ∨
    (t.kind = .trueWord ∧ p = .truth t true) ∨ (t.kind = .falseWord ∧ p = .truth t false) ∨
    (t.kind = .word ∧ p = .name t)

theorem Takes.primary_cases (h : Takes (primary args ts) p rest) :
    ∃ t r, ts = t :: r ∧
      ((IsAtom t p ∧ r = rest) ∨
        (∃ inner closing, t.kind = .leftParen ∧ Takes (phrase args r) inner (closing :: rest) ∧
          closing.kind = .rightParen ∧ p = .group t inner) ∨
        ∃ items closing, t.kind = .leftBracket ∧ closing.kind = .rightBracket ∧
          Rule.Reads args r .arguments items (closing :: rest) ∧ p = .list t items) := by
  obtain ⟨hlength, h⟩ := h
  rw [primary.eq_def] at h
  split at h
  · cases h
  rename_i t r
  refine ⟨t, r, rfl, ?_⟩
  split at h
  · rename_i hkind
    cases h
    exact .inl ⟨.inl ⟨hkind, rfl⟩, rfl⟩
  · rename_i hkind
    cases h
    exact .inl ⟨.inr (.inl ⟨hkind, rfl⟩), rfl⟩
  · rename_i hkind
    cases h
    exact .inl ⟨.inr (.inr (.inl ⟨hkind, rfl⟩)), rfl⟩
  · rename_i hkind
    cases h
    exact .inl ⟨.inr (.inr (.inr (.inl ⟨hkind, rfl⟩))), rfl⟩
  · rename_i hkind
    cases h
    exact .inl ⟨.inr (.inr (.inr (.inr ⟨hkind, rfl⟩))), rfl⟩
  · -- a group
    rename_i hkind
    split at h
    · cases h
    rename_i inner r₁ hr₁ hinner
    split at h
    · cases h
    rename_i closing r₂ hr₂ hexpect
    cases h
    obtain ⟨hclosing, rfl⟩ := Takes.of_expect ⟨hr₂, hexpect⟩
    exact .inr (.inl ⟨inner, closing, hkind, ⟨hr₁, hinner⟩, hclosing, rfl⟩)
  · -- a list
    rename_i hkind
    split at h
    · rename_i hstart
      split at h
      · cases h
      rename_i items r₁ hr₁ hitems
      split at h
      · cases h
      rename_i closing r₂ hr₂ hexpect
      cases h
      obtain ⟨hclosing, hreads⟩ :=
        reads_arguments (.inl ⟨hstart, r₁, ⟨hr₁, hitems⟩, hr₂, hexpect⟩)
      exact .inr (.inr ⟨items, closing, hkind, hclosing, hreads, rfl⟩)
    · rename_i hstart
      split at h
      · cases h
      rename_i closing r₂ hr₂ hexpect
      cases h
      obtain ⟨hclosing, hreads⟩ :=
        reads_arguments (.inr ⟨eq_false_of_ne_true hstart, rfl, hr₂, hexpect⟩)
      exact .inr (.inr ⟨[], closing, hkind, hclosing, hreads, rfl⟩)
  · cases h

theorem Takes.suffixes_cases (h : Takes (suffixes args base ts) p rest) :
    (p = base ∧ ts = rest) ∨ ∃ t r r₁, ts = t :: r ∧
      ((∃ word, t.kind = .dot ∧ word.kind = .word ∧ r = word :: r₁ ∧
          Takes (suffixes args (.member base word) r₁) p rest) ∨
        (∃ position closing, t.kind = .leftBracket ∧
          Takes (phrase args r) position (closing :: r₁) ∧ closing.kind = .rightBracket ∧
          Takes (suffixes args (.index base t position) r₁) p rest) ∨
        ∃ arguments closing, t.kind = .leftParen ∧ closing.kind = .rightParen ∧
          Rule.Reads true r .arguments arguments (closing :: r₁) ∧
          Takes (suffixes args (.call base t arguments) r₁) p rest) := by
  obtain ⟨hlength, h⟩ := h
  rw [suffixes.eq_def] at h
  split at h
  · cases h
    exact .inl ⟨rfl, rfl⟩
  rename_i t r
  split at h
  · -- a member
    rename_i hkind
    split at h
    · cases h
    rename_i word r₁ hr₁ hexpect
    split at h
    · cases h
    rename_i q r₂ hr₂ hsuffixes
    cases h
    obtain ⟨hword, rfl⟩ := Takes.of_expect ⟨hr₁, hexpect⟩
    exact .inr ⟨t, _, r₁, rfl, .inl ⟨word, hkind, hword, rfl, hr₂, hsuffixes⟩⟩
  · -- an index
    rename_i hkind
    split at h
    · cases h
    rename_i position r₁ hr₁ hposition
    split at h
    · cases h
    rename_i closing r₂ hr₂ hexpect
    split at h
    · cases h
    rename_i q r₃ hr₃ hsuffixes
    cases h
    obtain ⟨hclosing, rfl⟩ := Takes.of_expect ⟨hr₂, hexpect⟩
    exact .inr ⟨t, r, r₂, rfl,
      .inr (.inl ⟨position, closing, hkind, ⟨hr₁, hposition⟩, hclosing, hr₃, hsuffixes⟩)⟩
  · -- a call
    rename_i hkind
    split at h
    · rename_i hstart
      split at h
      · cases h
      rename_i arguments r₁ hr₁ harguments
      split at h
      · cases h
      rename_i closing r₂ hr₂ hexpect
      split at h
      · cases h
      rename_i q r₃ hr₃ hsuffixes
      cases h
      obtain ⟨hclosing, hreads⟩ :=
        reads_arguments (.inl ⟨hstart, r₁, ⟨hr₁, harguments⟩, hr₂, hexpect⟩)
      exact .inr ⟨t, r, r₂, rfl, .inr (.inr ⟨arguments, closing, hkind, hclosing, hreads, hr₃,
        hsuffixes⟩)⟩
    · rename_i hstart
      split at h
      · cases h
      rename_i closing r₂ hr₂ hexpect
      split at h
      · cases h
      rename_i q r₃ hr₃ hsuffixes
      cases h
      obtain ⟨hclosing, hreads⟩ :=
        reads_arguments (.inr ⟨eq_false_of_ne_true hstart, rfl, hr₂, hexpect⟩)
      exact .inr ⟨t, r, r₂, rfl, .inr (.inr ⟨[], closing, hkind, hclosing, hreads, hr₃,
        hsuffixes⟩)⟩
  · cases h
    exact .inl ⟨rfl, rfl⟩

theorem Takes.phrases_cases {ps : List Phrase} (h : Takes (phrases args ts) ps rest) :
    (∃ p, Takes (phrase args ts) p rest ∧ ps = [p]) ∨
      ∃ p comma r qs, Takes (phrase args ts) p (comma :: r) ∧ comma.kind = .comma ∧
        Takes (phrases args r) qs rest ∧ ps = p :: qs := by
  obtain ⟨hlength, h⟩ := h
  rw [phrases.eq_def] at h
  split at h
  · cases h
  · rename_i hp
    cases h
    exact .inl ⟨_, ⟨hlength, hp⟩, rfl⟩
  · rename_i q comma r hr hq
    split at h
    · rename_i hcomma
      simp only at h
      split at h
      · cases h
      rename_i qs r₁ hr₁ hqs
      cases h
      exact .inr ⟨q, comma, r, qs, ⟨hr, hq⟩, hcomma, ⟨hr₁, hqs⟩, rfl⟩
    · cases h
      exact .inl ⟨q, ⟨hr, hq⟩, rfl⟩

/-! ### Derivations of what is read -/

/-- What is read as a part of a phrase has a derivation. -/
def Rule.Derives (r : Rule) (ts : List Token) (value : r.Reading) (rest : List Token) : Prop :=
  ∃ d : Derivation r, d.tokens ++ rest = ts ∧ d.reading = value

theorem derives_atom (h : IsAtom t p) : Rule.Derives .primary (t :: rest) p rest := by
  obtain ⟨ht, rfl⟩ | ⟨ht, rfl⟩ | ⟨ht, rfl⟩ | ⟨ht, rfl⟩ | ⟨ht, rfl⟩ := h
  · exact ⟨.number ⟨t, ht⟩, rfl, rfl⟩
  · exact ⟨.string ⟨t, ht⟩, rfl, rfl⟩
  · exact ⟨.trueWord ⟨t, ht⟩, rfl, rfl⟩
  · exact ⟨.falseWord ⟨t, ht⟩, rfl, rfl⟩
  · exact ⟨.name ⟨t, ht⟩, rfl, rfl⟩

/-- All readers find derivations, on lists of fewer than `n` tokens. -/
structure AllDerive (n : Nat) : Prop where
  phrase : ∀ {args ts p rest}, ts.length < n → Takes (phrase args ts) p rest →
    Rule.Derives .expression ts p rest
  level : ∀ {args k ts p rest}, ts.length < n → Takes (level args k ts) p rest →
    Rule.Derives (.level k) ts p rest
  levelRest : ∀ {args k left ts p rest}, ts.length < n → Takes (levelRest args k left ts) p rest →
    ∃ d : Derivation (.operators k), d.tokens ++ rest = ts ∧ d.reading left = p
  unaryPhrase : ∀ {args ts p rest}, ts.length < n → Takes (unaryPhrase args ts) p rest →
    Rule.Derives .unary ts p rest
  suffixes : ∀ {args base ts p rest}, ts.length < n → Takes (suffixes args base ts) p rest →
    ∃ d : Derivation .suffixes, d.tokens ++ rest = ts ∧ d.reading base = p
  phrases : ∀ {args ts ps rest}, ts.length < n → Takes (phrases args ts) ps rest →
    Rule.Derives .items ts ps rest

namespace AllDerive

variable {n : Nat}

theorem arguments (ih : AllDerive n) {ps : List Phrase} (hts : ts.length < n)
    (h : Rule.Reads args ts .arguments ps rest) : Rule.Derives .arguments ts ps rest := by
  obtain ⟨-, hps⟩ | ⟨-, rfl, rfl⟩ := h
  · obtain ⟨es, rfl, rfl⟩ := ih.phrases hts hps
    exact ⟨.something es, rfl, rfl⟩
  · exact ⟨.nothing, rfl, rfl⟩

theorem primary_step (ih : AllDerive n) (hts : ts.length ≤ n) (h : Takes (primary args ts) p rest) :
    Rule.Derives .primary ts p rest := by
  obtain ⟨t, r, rfl, ⟨hatom, rfl⟩ | ⟨inner, closing, ht, hinner, hclosing, rfl⟩ |
    ⟨items, closing, ht, hclosing, hitems, rfl⟩⟩ := h.primary_cases
  · exact derives_atom hatom
  · obtain ⟨e, rfl, rfl⟩ := ih.phrase hts hinner
    exact ⟨.group ⟨t, ht⟩ e ⟨closing, hclosing⟩, by simp [Derivation.tokens], rfl⟩
  · obtain ⟨es, rfl, rfl⟩ := ih.arguments hts hitems
    exact ⟨.list ⟨t, ht⟩ es ⟨closing, hclosing⟩, by simp [Derivation.tokens], rfl⟩

theorem suffixes_step (ih : AllDerive n) (hts : ts.length ≤ n)
    (h : Takes (Phrase.suffixes args base ts) p rest) :
    ∃ d : Derivation .suffixes, d.tokens ++ rest = ts ∧ d.reading base = p := by
  obtain ⟨rfl, rfl⟩ | ⟨t, r, r₁, rfl, ⟨word, ht, hword, rfl, hrest⟩ |
    ⟨position, closing, ht, hposition, hclosing, hrest⟩ |
    ⟨arguments, closing, ht, hclosing, harguments, hrest⟩⟩ := h.suffixes_cases
  · exact ⟨.noSuffix, rfl, rfl⟩
  · obtain ⟨ss, rfl, rfl⟩ := ih.suffixes (by simp at hts; omega) hrest
    exact ⟨.suffixed (.member ⟨t, ht⟩ ⟨word, hword⟩) ss, by simp [Derivation.tokens], rfl⟩
  · obtain ⟨e, rfl, rfl⟩ := ih.phrase hts hposition
    obtain ⟨ss, rfl, rfl⟩ := ih.suffixes (by simp at hts; omega) hrest
    exact ⟨.suffixed (.index ⟨t, ht⟩ e ⟨closing, hclosing⟩) ss, by simp [Derivation.tokens], rfl⟩
  · obtain ⟨es, rfl, rfl⟩ := ih.arguments hts harguments
    obtain ⟨ss, rfl, rfl⟩ := ih.suffixes (by simp at hts; omega) hrest
    exact ⟨.suffixed (.call ⟨t, ht⟩ es ⟨closing, hclosing⟩) ss, by simp [Derivation.tokens], rfl⟩

theorem unaryPhrase_step (ih : AllDerive n) (hts : ts.length ≤ n)
    (h : Takes (Phrase.unaryPhrase args ts) p rest) : Rule.Derives .unary ts p rest := by
  obtain ⟨op, r, q, rfl, hop, hq, rfl⟩ | ⟨q, r, hq, hsuffixes⟩ := h.unaryPhrase_cases
  · obtain ⟨e, rfl, rfl⟩ := ih.unaryPhrase hts hq
    exact ⟨.prefixed ⟨op, hop⟩ e, rfl, rfl⟩
  · have hr := hq.length_lt
    obtain ⟨e, rfl, rfl⟩ := ih.primary_step hts hq
    obtain ⟨ss, rfl, rfl⟩ := ih.suffixes_step (by omega) hsuffixes
    exact ⟨.postfixed e ss, by simp [Derivation.tokens], rfl⟩

theorem levelRest_step (ih : AllDerive n) (hts : ts.length ≤ n)
    (h : Takes (Phrase.levelRest args k left ts) p rest) :
    ∃ d : Derivation (.operators k), d.tokens ++ rest = ts ∧ d.reading left = p := by
  obtain ⟨rfl, rfl⟩ | ⟨op, r, right, r₁, rfl, hop, hright, hrest⟩ := h.levelRest_cases
  · exact ⟨.noOperator, rfl, rfl⟩
  · have hr := hright.length_lt
    simp only [List.length_cons] at hts
    obtain ⟨e, rfl, rfl⟩ := ih.level hts hright
    obtain ⟨es, rfl, rfl⟩ := ih.levelRest (by omega) hrest
    exact ⟨.operator ⟨op, hop⟩ e es, by simp [Derivation.tokens], rfl⟩

theorem level_step (ih : AllDerive n) (hts : ts.length ≤ n)
    (h : Takes (Phrase.level args k ts) p rest) : Rule.Derives (.level k) ts p rest := by
  induction k generalizing p rest with
  | zero =>
    obtain ⟨e, rfl, rfl⟩ := ih.unaryPhrase_step hts h.level_zero
    exact ⟨.operand e, rfl, rfl⟩
  | succ k ihk =>
    obtain ⟨left, r, hleft, hrest⟩ := h.level_succ
    have hr := hleft.length_lt
    obtain ⟨e, rfl, rfl⟩ := ihk hleft
    obtain ⟨es, rfl, hes⟩ := ih.levelRest_step (by omega) hrest
    exact ⟨.chain e es, by simp [Derivation.tokens], hes⟩

theorem phrase_step (ih : AllDerive n) (hts : ts.length ≤ n)
    (h : Takes (Phrase.phrase args ts) p rest) : Rule.Derives .expression ts p rest := by
  obtain hlevel | ⟨test, question, r, a, colon, r₁, b, htest, hquestion, ha, hcolon, hb, rfl⟩ :=
    h.phrase_cases
  · obtain ⟨e, rfl, rfl⟩ := ih.level_step hts hlevel
    exact ⟨.plain e, rfl, rfl⟩
  · have hr := htest.length_lt
    have hr₁ := ha.length_lt
    simp only [List.length_cons] at hr hr₁
    obtain ⟨dt, rfl, rfl⟩ := ih.level_step hts htest
    obtain ⟨da, rfl, rfl⟩ := ih.phrase (by omega) ha
    obtain ⟨db, rfl, rfl⟩ := ih.phrase (by omega) hb
    exact ⟨.conditional dt ⟨question, hquestion⟩ da ⟨colon, hcolon⟩ db, by simp [Derivation.tokens],
      rfl⟩

theorem phrases_step (ih : AllDerive n) {ps : List Phrase} (hts : ts.length ≤ n)
    (h : Takes (Phrase.phrases args ts) ps rest) : Rule.Derives .items ts ps rest := by
  obtain ⟨p, hp, rfl⟩ | ⟨p, comma, r, qs, hp, hcomma, hqs, rfl⟩ := h.phrases_cases
  · obtain ⟨e, rfl, rfl⟩ := ih.phrase_step hts hp
    exact ⟨.one e, rfl, rfl⟩
  · have hr := hp.length_lt
    simp only [List.length_cons] at hr
    obtain ⟨e, rfl, rfl⟩ := ih.phrase_step hts hp
    obtain ⟨es, rfl, rfl⟩ := ih.phrases (by omega) hqs
    exact ⟨.more e ⟨comma, hcomma⟩ es, by simp [Derivation.tokens], rfl⟩

/-- All readers find derivations. -/
theorem all (n : Nat) : AllDerive n := by
  induction n with
  | zero => exact ⟨nofun, nofun, nofun, nofun, nofun, nofun⟩
  | succ n ih =>
    exact
      { phrase := fun hts => ih.phrase_step (Nat.le_of_lt_succ hts)
        level := fun hts => ih.level_step (Nat.le_of_lt_succ hts)
        levelRest := fun hts => ih.levelRest_step (Nat.le_of_lt_succ hts)
        unaryPhrase := fun hts => ih.unaryPhrase_step (Nat.le_of_lt_succ hts)
        suffixes := fun hts => ih.suffixes_step (Nat.le_of_lt_succ hts)
        phrases := fun hts => ih.phrases_step (Nat.le_of_lt_succ hts) }

end AllDerive

/-- **A parsed phrase has a derivation** with the tokens that were parsed. -/
theorem exists_derivation_of_parse (h : parse ts = .ok p) :
    ∃ d : Derivation .expression, d.tokens = ts ∧ d.phrase = p := by
  unfold parse at h
  split at h
  · cases h
  · rename_i hlength hphrase
    cases h
    obtain ⟨d, rfl, rfl⟩ :=
      (AllDerive.all (ts.length + 1)).phrase (Nat.lt_succ_self _) ⟨hlength, hphrase⟩
    exact ⟨d, by simp, rfl⟩
  · cases h

end ChartNet.Phrase
