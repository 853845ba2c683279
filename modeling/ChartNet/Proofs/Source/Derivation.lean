import ChartNet.Proofs.Source.Grammar

/-!
# Derivations

The grammar of expressions as a family of trees: a `Derivation` of a rule is built by one
constructor per production, and a repetition is a rule of its own that either ends or goes on. Every
derivation has its `tokens`, read off from left to right, and its `reading`, the phrase that it is a
tree of: a chain of operators is folded to the left, a conditional leans to the right.

The descent of the parser takes the tokens of a derivation off the front of any rest that does not
go on with it (`Derivation.reads`), and so parses them as its phrase (`Derivation.parse`).
-/

namespace ChartNet.Phrase

/-- The **rules** of the grammar. Level six is disjunction, below it stand conjunction, equality,
comparison, the additive and the multiplicative operators, and level zero is the unary operators. -/
inductive Rule where
  | expression
  | level (k : Nat)
  | operators (k : Nat)
  | unary
  | primary
  | suffixes
  | suffix
  | arguments
  | items
deriving DecidableEq

/-- A token of a kind. -/
abbrev Sign (kind : TokenKind) := { t : Token // t.kind = kind }

/-- A **derivation** from a rule. -/
inductive Derivation : Rule → Type where
  | plain (e : Derivation (.level 6)) : Derivation .expression
  | conditional (test : Derivation (.level 6)) (question : Sign .question)
      (whenTrue : Derivation .expression) (colon : Sign .colon)
      (whenFalse : Derivation .expression) : Derivation .expression
  | operand (e : Derivation .unary) : Derivation (.level 0)
  | chain {k : Nat} (first : Derivation (.level k)) (rest : Derivation (.operators k)) :
      Derivation (.level (k + 1))
  | noOperator {k : Nat} : Derivation (.operators k)
  | operator {k : Nat} (op : { t : Token // isBinary (k + 1) t.kind })
    (next : Derivation (.level k))
      (rest : Derivation (.operators k)) : Derivation (.operators k)
  | prefixed (op : { t : Token // isUnary t.kind }) (e : Derivation .unary) : Derivation .unary
  | postfixed (e : Derivation .primary) (suffixes : Derivation .suffixes) : Derivation .unary
  | number (t : Sign .number) : Derivation .primary
  | string (t : Sign .string) : Derivation .primary
  | trueWord (t : Sign .trueWord) : Derivation .primary
  | falseWord (t : Sign .falseWord) : Derivation .primary
  | name (t : Sign .word) : Derivation .primary
  | group (opening : Sign .leftParen) (inner : Derivation .expression)
      (closing : Sign .rightParen) : Derivation .primary
  | list (opening : Sign .leftBracket) (items : Derivation .arguments)
      (closing : Sign .rightBracket) : Derivation .primary
  | noSuffix : Derivation .suffixes
  | suffixed (s : Derivation .suffix) (rest : Derivation .suffixes) : Derivation .suffixes
  | member (dot : Sign .dot) (word : Sign .word) : Derivation .suffix
  | index (opening : Sign .leftBracket) (position : Derivation .expression)
      (closing : Sign .rightBracket) : Derivation .suffix
  | call (opening : Sign .leftParen) (arguments : Derivation .arguments)
      (closing : Sign .rightParen) : Derivation .suffix
  | nothing : Derivation .arguments
  | something (es : Derivation .items) : Derivation .arguments
  | one (e : Derivation .expression) : Derivation .items
  | more (e : Derivation .expression) (comma : Sign .comma) (rest : Derivation .items) :
      Derivation .items

/-- What a derivation from a rule is read as. What goes on with a phrase is read as what it makes of
that phrase. -/
def Rule.Reading : Rule → Type
  | .operators _ | .suffixes | .suffix => Phrase → Phrase
  | .arguments | .items => List Phrase
  | _ => Phrase

namespace Derivation

/-- The **tokens** of a derivation, from left to right. -/
def tokens {r : Rule} : Derivation r → List Token
  | plain e => e.tokens
  | conditional c q a colon b => c.tokens ++ q.1 :: (a.tokens ++ colon.1 :: b.tokens)
  | operand e => e.tokens
  | chain e es => e.tokens ++ es.tokens
  | noOperator => []
  | operator op e es => op.1 :: (e.tokens ++ es.tokens)
  | prefixed op e => op.1 :: e.tokens
  | postfixed e ss => e.tokens ++ ss.tokens
  | number t => [t.1]
  | string t => [t.1]
  | trueWord t => [t.1]
  | falseWord t => [t.1]
  | name t => [t.1]
  | group opening e closing => opening.1 :: (e.tokens ++ [closing.1])
  | list opening es closing => opening.1 :: (es.tokens ++ [closing.1])
  | noSuffix => []
  | suffixed s ss => s.tokens ++ ss.tokens
  | member dot word => [dot.1, word.1]
  | index opening e closing => opening.1 :: (e.tokens ++ [closing.1])
  | call opening es closing => opening.1 :: (es.tokens ++ [closing.1])
  | nothing => []
  | something es => es.tokens
  | one e => e.tokens
  | more e comma es => e.tokens ++ comma.1 :: es.tokens

/-- The **reading** of a derivation. -/
def reading : {r : Rule} → Derivation r → r.Reading
  | _, plain e => e.reading
  | _, conditional c _ a _ b => Phrase.conditional c.reading a.reading b.reading
  | _, operand e => e.reading
  | _, chain e es => es.reading e.reading
  | _, noOperator => fun left => left
  | _, operator op e es => fun left => es.reading (Phrase.binary op.1 left e.reading)
  | _, prefixed op e => Phrase.unary op.1 e.reading
  | _, postfixed e ss => ss.reading e.reading
  | _, number t => Phrase.number t.1
  | _, string t => Phrase.string t.1
  | _, trueWord t => Phrase.truth t.1 true
  | _, falseWord t => Phrase.truth t.1 false
  | _, name t => Phrase.name t.1
  | _, group opening e _ => Phrase.group opening.1 e.reading
  | _, list opening es _ => Phrase.list opening.1 es.reading
  | _, noSuffix => fun base => base
  | _, suffixed s ss => fun base => ss.reading (s.reading base)
  | _, member _ word => fun base => Phrase.member base word.1
  | _, index opening e _ => fun base => Phrase.index base opening.1 e.reading
  | _, call opening es _ => fun base => Phrase.call base opening.1 es.reading
  | _, nothing => ([] : List Phrase)
  | _, something es => es.reading
  | _, one e => [e.reading]
  | _, more e _ es => List.cons e.reading es.reading

/-- The **phrase** of an expression. -/
def phrase (d : Derivation .expression) : Phrase := d.reading

end Derivation

/-! ### What derivations start with and what follows them -/

/-- Whether all derivations from a rule have a first token, with which a phrase can start. -/
def Rule.Opens : Rule → Prop
  | .operators _ | .suffixes | .suffix | .arguments => False
  | _ => True

/-- What may **follow** a derivation from a rule without going on with it. -/
def Rule.Follows : Rule → List Token → Prop
  | .expression, rest => StopsAll rest
  | .level k, rest => Stops k rest
  | .operators k, rest => Stops (k + 1) rest
  | .unary, rest | .suffixes, rest => Stops 0 rest
  | .primary, _ | .suffix, _ => True
  | .items, rest => StopsAll rest ∧ ∀ t ∈ rest.head?, t.kind ≠ .comma
  | .arguments, rest =>
    (StopsAll rest ∧ ∀ t ∈ rest.head?, t.kind ≠ .comma) ∧ startsPhrase rest = false

/-- What the reader of a rule takes off the front of its tokens. A suffix has no reader of its own:
it is a step of the reader of suffixes. -/
def Rule.Reads (args : Bool) (ts : List Token) : (r : Rule) → r.Reading → List Token → Prop
  | .expression, p, rest => Takes (Phrase.phrase args ts) p rest
  | .level k, p, rest => Takes (Phrase.level args k ts) p rest
  | .operators k, f, rest => ∀ left, Takes (Phrase.levelRest args k left ts) (f left) rest
  | .unary, p, rest => Takes (Phrase.unaryPhrase args ts) p rest
  | .primary, p, rest => Takes (Phrase.primary args ts) p rest
  | .suffixes, f, rest => ∀ base, Takes (Phrase.suffixes args base ts) (f base) rest
  | .suffix, f, rest => ∀ base p r, Takes (Phrase.suffixes args (f base) rest) p r →
      Takes (Phrase.suffixes args base ts) p r
  | .items, ps, rest => Takes (Phrase.phrases args ts) ps rest
  | .arguments, ps, rest => (startsPhrase ts = true ∧ Takes (Phrase.phrases args ts) ps rest) ∨
      (startsPhrase ts = false ∧ ps = [] ∧ ts = rest)

namespace Derivation

theorem startsPrimary_head (d : Derivation .primary) :
    ∃ t ts, d.tokens = t :: ts ∧ startsPrimary t.kind = true := by
  cases d with
  | number t | string t | trueWord t | falseWord t | name t => exact ⟨_, _, rfl, by rw [t.2]; rfl⟩
  | group opening | list opening => exact ⟨_, _, rfl, by rw [opening.2]; rfl⟩

/-- A phrase that starts with a primary one does not start with a unary operator. -/
theorem isUnary_of_startsPrimary {kind : TokenKind} (h : startsPrimary kind = true) :
    isUnary kind = false := by
  cases kind <;> first | rfl | cases h

theorem startsPhrase_tokens {r : Rule} (d : Derivation r) (hr : r.Opens) (rest : List Token) :
    startsPhrase (d.tokens ++ rest) = true := by
  induction d generalizing rest with
  | plain e ih | operand e ih | one e ih => exact ih trivial rest
  | conditional c q a colon b ih | chain e es ih | more e comma es ih =>
    rw [tokens, List.append_assoc]
    exact ih trivial _
  | prefixed op e => simp [tokens, startsPhrase, op.2]
  | postfixed e ss =>
    obtain ⟨t, ts, htokens, ht⟩ := e.startsPrimary_head
    simp [tokens, htokens, startsPhrase, ht]
  | number t | string t | trueWord t | falseWord t | name t =>
    simp [tokens, startsPhrase, startsPrimary, t.2]
  | group opening | list opening => simp [tokens, startsPhrase, startsPrimary, opening.2]
  | _ => exact hr.elim

/-- Operators that follow an operand of a level do not go on with it. -/
theorem stops_operators {k : Nat} (es : Derivation (.operators k)) {rest : List Token}
    (h : Stops (k + 1) rest) : Stops k (es.tokens ++ rest) := by
  cases es with
  | noOperator => exact h.mono (Nat.le_succ k)
  | operator op e es => exact stops_of_isBinary op.2

/-- A question mark goes on with no disjunction. -/
theorem stops_question (t : Sign .question) (rest : List Token) : Stops 6 (t.1 :: rest) := by
  intro t' ht'
  obtain rfl := Option.some.inj (Option.mem_def.1 ht')
  exact ⟨by simp [t.2, isSuffix], fun j _ => by simp [t.2, isBinary]⟩

/-- What closes or separates phrases goes on with none of them. -/
theorem stopsAll_sign {kind : TokenKind} (t : Sign kind) (rest : List Token)
    (h : kind ∈ [TokenKind.rightParen, .rightBracket, .comma, .colon]) : StopsAll (t.1 :: rest) :=
  stopsAll_of_kind (t.2.symm ▸ h)

/-- What closes a list goes on with none of its items. -/
theorem follows_arguments {kind : TokenKind} (t : Sign kind) (rest : List Token)
    (h : kind = .rightParen ∨ kind = .rightBracket) : Rule.Follows .arguments (t.1 :: rest) := by
  refine ⟨⟨stopsAll_sign t rest (by rcases h with rfl | rfl <;> simp), fun t' ht' => ?_⟩, ?_⟩
  · obtain rfl := Option.some.inj (Option.mem_def.1 ht')
    rw [t.2]
    rcases h with rfl | rfl <;> decide
  · rw [startsPhrase, t.2]
    rcases h with rfl | rfl <;> rfl

/-! ### Parsing -/

/-- The reader of a rule takes the tokens of a derivation off the front, as its reading. -/
theorem reads {r : Rule} (d : Derivation r) (args : Bool) {rest : List Token}
    (h : r.Follows rest) : r.Reads args (d.tokens ++ rest) d.reading rest := by
  induction d generalizing args rest with
  | plain e ih => exact takes_phrase_level (ih args h.1) h.2
  | conditional c q a colon b ihc iha ihb =>
    simp only [tokens, List.append_assoc, List.cons_append]
    exact takes_phrase_conditional (ihc args (stops_question q _)) q.2
      (iha args (stopsAll_sign colon _ (by simp))) colon.2 (ihb args h)
  | operand e ih => exact takes_level_zero (ih args h)
  | chain e es ihe ihes =>
    rw [tokens, List.append_assoc]
    exact takes_level_succ (ihe args (es.stops_operators h)) (ihes args h e.reading)
  | noOperator => exact fun left => takes_levelRest_stop fun t ht => (h t ht).2 _ (Nat.le_refl _)
  | operator op e es ihe ihes =>
    intro left
    rw [tokens, List.cons_append, List.append_assoc]
    exact takes_levelRest_step op.2 (ihe args (es.stops_operators h)) (ihes args h _)
  | prefixed op e ih => exact takes_unaryPhrase_unary op.2 (ih args h)
  | postfixed e ss ihe ihss =>
    obtain ⟨t, ts, htokens, ht⟩ := e.startsPrimary_head
    have hfollows : Rule.primary.Follows (ss.tokens ++ rest) := trivial
    have hprimary := ihe args hfollows
    rw [htokens] at hprimary
    rw [tokens, List.append_assoc, htokens]
    exact takes_unaryPhrase_primary (isUnary_of_startsPrimary ht) hprimary (ihss args h e.reading)
  | number t | string t | trueWord t | falseWord t | name t =>
    exact ⟨by simp [tokens], by simp [tokens, Phrase.primary, t.2]; rfl⟩
  | group opening e closing ih =>
    simp only [tokens, List.append_assoc, List.cons_append, List.nil_append]
    exact takes_primary_group opening.2 (ih args (stopsAll_sign closing _ (by simp))) closing.2
  | list opening es closing ih =>
    simp only [tokens, List.append_assoc, List.cons_append, List.nil_append]
    obtain ⟨hstart, htakes⟩ | ⟨-, hnone, heq⟩ :=
      ih args (follows_arguments closing rest (.inr rfl))
    · exact takes_primary_list opening.2 hstart htakes closing.2
    · rw [heq, reading, hnone]
      exact takes_primary_list_nil opening.2 closing.2
  | noSuffix => exact fun base => takes_suffixes_stop fun t ht => (h t ht).1
  | suffixed s ss ihs ihss =>
    rw [tokens, List.append_assoc]
    exact fun base => ihs args trivial base _ _ (ihss args h _)
  | member dot word => exact fun base p r => takes_suffixes_member dot.2 word.2
  | index opening e closing ih =>
    simp only [tokens, List.append_assoc, List.cons_append, List.nil_append]
    exact fun base p r => takes_suffixes_index opening.2
      (ih args (stopsAll_sign closing _ (by simp))) closing.2
  | call opening es closing ih =>
    simp only [tokens, List.append_assoc, List.cons_append, List.nil_append]
    intro base p r hp
    obtain ⟨hstart, htakes⟩ | ⟨-, hnone, heq⟩ := ih true (follows_arguments closing rest (.inl rfl))
    · exact takes_suffixes_call opening.2 hstart htakes closing.2 hp
    · rw [reading, hnone] at hp
      rw [heq]
      exact takes_suffixes_call_nil opening.2 closing.2 hp
  | nothing => exact .inr ⟨h.2, rfl, rfl⟩
  | something es ih => exact .inl ⟨es.startsPhrase_tokens trivial _, ih args h.1⟩
  | one e ih => exact takes_phrases_one (ih args h.1) h.2
  | more e comma es ihe ihes =>
    simp only [tokens, List.append_assoc, List.cons_append]
    exact takes_phrases_cons (ihe args (stopsAll_sign comma _ (by simp))) comma.2 (ihes args h)

/-- **The tokens of a derivation are parsed as its phrase.** -/
theorem parse (d : Derivation .expression) : Phrase.parse d.tokens = .ok d.phrase :=
  Whole.parse fun args _ h => d.reads args h

end Derivation

end ChartNet.Phrase
