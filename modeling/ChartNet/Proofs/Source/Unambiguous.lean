import ChartNet.Proofs.Source.Derivation

/-!
# The grammar is unambiguous

No two derivations of an expression have the same tokens. Derivations from any rule are compared in
front of a rest of the tokens that does not go on with them: the first token tells the productions
of a rule apart, except that a chain, a list or a conditional is told from its first part by what
follows that part.
-/

namespace ChartNet.Phrase.Derivation

/-- Lists that start with the same token of a kind go on in the same way. -/
private theorem sign_inj {P : Token → Prop} {t t' : { t : Token // P t }} {ts ts' : List Token}
    (h : t.1 :: ts = t'.1 :: ts') : t = t' ∧ ts = ts' :=
  ⟨Subtype.ext (List.cons.inj h).1, (List.cons.inj h).2⟩

/-- Lists that start with tokens of different kinds are different. -/
private theorem sign_ne {kind kind' : TokenKind} {t : Sign kind} {t' : Sign kind'}
    {ts ts' : List Token} (hkind : kind ≠ kind') : t.1 :: ts ≠ t'.1 :: ts' := fun h =>
  hkind (t.2.symm.trans ((congrArg Token.kind (List.cons.inj h).1).trans t'.2))

variable {rest rest' : List Token}

/-- Two derivations between signs are the same if those are that are read in front of the closing
signs. -/
private theorem enclosed_inj {r : Rule} {kind kind' : TokenKind} {opening opening' : Sign kind}
    {closing closing' : Sign kind'} {d d' : Derivation r}
    (hinner : d.tokens ++ closing.1 :: rest = d'.tokens ++ closing'.1 :: rest' →
      d = d' ∧ closing.1 :: rest = closing'.1 :: rest')
    (h : opening.1 :: (d.tokens ++ [closing.1]) ++ rest =
      opening'.1 :: (d'.tokens ++ [closing'.1]) ++ rest') :
    (opening = opening' ∧ d = d' ∧ closing = closing') ∧ rest = rest' := by
  simp only [List.append_assoc, List.cons_append, List.nil_append] at h
  obtain ⟨rfl, hrest⟩ := sign_inj h
  obtain ⟨rfl, hclosing⟩ := hinner hrest
  obtain ⟨rfl, rfl⟩ := sign_inj hclosing
  exact ⟨⟨rfl, rfl, rfl⟩, rfl⟩

/-- A phrase with an operator in front is no postfix form. -/
private theorem prefixed_ne_postfixed (op : { t : Token // isUnary t.kind }) (e : Derivation .unary)
    (e' : Derivation .primary) (ss : Derivation .suffixes) :
    (prefixed op e).tokens ++ rest ≠ (postfixed e' ss).tokens ++ rest' := by
  intro h
  obtain ⟨t, ts, hfirst, ht⟩ := e'.startsPrimary_head
  simp only [tokens, hfirst, List.cons_append] at h
  obtain ⟨rfl, -⟩ := List.cons.inj h
  exact absurd op.2 (by simp [isUnary_of_startsPrimary ht])

private theorem isSuffix_head (s : Derivation .suffix) :
    ∃ t ts, s.tokens = t :: ts ∧ isSuffix t.kind = true := by
  cases s with
  | member dot => exact ⟨_, _, rfl, by rw [dot.2]; rfl⟩
  | index opening | call opening => exact ⟨_, _, rfl, by rw [opening.2]; rfl⟩

/-- Two derivations from a rule that are read off the front of the same tokens are the same. The
rest of the tokens tells whether a repetition ends, and the first token which production of a rule
is used. -/
theorem unique_of_append {r : Rule} (d d' : Derivation r) (h : r.Follows rest)
    (h' : r.Follows rest')
    (htokens : d.tokens ++ rest = d'.tokens ++ rest') : d = d' ∧ rest = rest' := by
  induction d generalizing rest rest' with
  | plain e ih =>
    cases d' with
    | plain e' =>
      obtain ⟨rfl, rfl⟩ := ih e' h.1 h'.1 htokens
      exact ⟨rfl, rfl⟩
    | conditional c q a colon b =>
      simp only [tokens, List.append_assoc, List.cons_append] at htokens
      obtain ⟨-, rfl⟩ := ih c h.1 (stops_question q _) htokens
      exact absurd q.2 (h.2 _ rfl)
  | conditional c q a colon b ihc iha ihb =>
    simp only [tokens, List.append_assoc, List.cons_append] at htokens
    cases d' with
    | plain e =>
      obtain ⟨-, rfl⟩ := ihc e (stops_question q _) h'.1 htokens
      exact absurd q.2 (h'.2 _ rfl)
    | conditional c' q' a' colon' b' =>
      simp only [tokens, List.append_assoc, List.cons_append] at htokens
      obtain ⟨rfl, hquestion⟩ := ihc c' (stops_question q _) (stops_question q' _) htokens
      obtain ⟨rfl, hleft⟩ := sign_inj hquestion
      obtain ⟨rfl, hcolon⟩ := iha a' (stopsAll_sign colon _ (by simp))
        (stopsAll_sign colon' _ (by simp)) hleft
      obtain ⟨rfl, hright⟩ := sign_inj hcolon
      obtain ⟨rfl, rfl⟩ := ihb b' h h' hright
      exact ⟨rfl, rfl⟩
  | operand e ih =>
    cases d' with
    | operand e' =>
      obtain ⟨rfl, rfl⟩ := ih e' h h' htokens
      exact ⟨rfl, rfl⟩
  | chain e es ihe ihes =>
    cases d' with
    | chain e' es' =>
      simp only [tokens, List.append_assoc] at htokens
      obtain ⟨rfl, hrest⟩ := ihe e' (es.stops_operators h) (es'.stops_operators h') htokens
      obtain ⟨rfl, rfl⟩ := ihes es' h h' hrest
      exact ⟨rfl, rfl⟩
  | noOperator =>
    cases d' with
    | noOperator => exact ⟨rfl, htokens⟩
    | operator op e es =>
      obtain rfl : rest = _ := htokens
      exact absurd op.2 (by simp [(h _ rfl).2 _ (Nat.le_refl _)])
  | operator op e es ihe ihes =>
    cases d' with
    | noOperator =>
      obtain rfl : _ = rest' := htokens
      exact absurd op.2 (by simp [(h' _ rfl).2 _ (Nat.le_refl _)])
    | operator op' e' es' =>
      simp only [tokens, List.cons_append, List.append_assoc] at htokens
      obtain ⟨rfl, hnext⟩ := sign_inj htokens
      obtain ⟨rfl, hrest⟩ := ihe e' (es.stops_operators h) (es'.stops_operators h') hnext
      obtain ⟨rfl, rfl⟩ := ihes es' h h' hrest
      exact ⟨rfl, rfl⟩
  | prefixed op e ih =>
    cases d' with
    | prefixed op' e' =>
      obtain ⟨rfl, hrest⟩ := sign_inj htokens
      obtain ⟨rfl, rfl⟩ := ih e' h h' hrest
      exact ⟨rfl, rfl⟩
    | postfixed e' ss => exact absurd htokens (prefixed_ne_postfixed op e e' ss)
  | postfixed e ss ihe ihss =>
    cases d' with
    | prefixed op e' => exact absurd htokens.symm (prefixed_ne_postfixed op e' e ss)
    | postfixed e' ss' =>
      simp only [tokens, List.append_assoc] at htokens
      obtain ⟨rfl, hrest⟩ := ihe e' trivial trivial htokens
      obtain ⟨rfl, rfl⟩ := ihss ss' h h' hrest
      exact ⟨rfl, rfl⟩
  | number t | string t | trueWord t | falseWord t | name t =>
    -- one token, whose kind tells the production
    cases d' <;> first
      | exact absurd htokens (sign_ne (by decide))
      | obtain ⟨rfl, rfl⟩ := sign_inj htokens
        exact ⟨rfl, rfl⟩
  | group opening e closing ih =>
    cases d' with
    | group opening' e' closing' =>
      obtain ⟨⟨rfl, rfl, rfl⟩, rfl⟩ := enclosed_inj (ih e' (stopsAll_sign closing _ (by simp))
        (stopsAll_sign closing' _ (by simp))) htokens
      exact ⟨rfl, rfl⟩
    | _ => exact absurd htokens (sign_ne (by decide))
  | list opening es closing ih =>
    cases d' with
    | list opening' es' closing' =>
      obtain ⟨⟨rfl, rfl, rfl⟩, rfl⟩ :=
        enclosed_inj (ih es' (follows_arguments closing rest (.inr rfl))
        (follows_arguments closing' rest' (.inr rfl))) htokens
      exact ⟨rfl, rfl⟩
    | _ => exact absurd htokens (sign_ne (by decide))
  | noSuffix =>
    cases d' with
    | noSuffix => exact ⟨rfl, htokens⟩
    | suffixed s ss =>
      obtain ⟨t, ts, hfirst, ht⟩ := s.isSuffix_head
      simp only [tokens, hfirst, List.cons_append, List.nil_append] at htokens
      exact absurd ht (by simp [(h t (by simp [htokens])).1])
  | suffixed s ss ihs ihss =>
    cases d' with
    | noSuffix =>
      obtain ⟨t, ts, hfirst, ht⟩ := s.isSuffix_head
      simp only [tokens, hfirst, List.cons_append, List.nil_append] at htokens
      exact absurd ht (by simp [(h' t (by simp [← htokens])).1])
    | suffixed s' ss' =>
      simp only [tokens, List.append_assoc] at htokens
      obtain ⟨rfl, hrest⟩ := ihs s' trivial trivial htokens
      obtain ⟨rfl, rfl⟩ := ihss ss' h h' hrest
      exact ⟨rfl, rfl⟩
  | member dot word =>
    cases d' with
    | member dot' word' =>
      obtain ⟨rfl, hword⟩ := sign_inj htokens
      obtain ⟨rfl, rfl⟩ := sign_inj hword
      exact ⟨rfl, rfl⟩
    | _ => exact absurd htokens (sign_ne (by decide))
  | index opening e closing ih =>
    cases d' with
    | index opening' e' closing' =>
      obtain ⟨⟨rfl, rfl, rfl⟩, rfl⟩ := enclosed_inj (ih e' (stopsAll_sign closing _ (by simp))
        (stopsAll_sign closing' _ (by simp))) htokens
      exact ⟨rfl, rfl⟩
    | _ => exact absurd htokens (sign_ne (by decide))
  | call opening es closing ih =>
    cases d' with
    | call opening' es' closing' =>
      obtain ⟨⟨rfl, rfl, rfl⟩, rfl⟩ :=
        enclosed_inj (ih es' (follows_arguments closing rest (.inl rfl))
        (follows_arguments closing' rest' (.inl rfl))) htokens
      exact ⟨rfl, rfl⟩
    | _ => exact absurd htokens (sign_ne (by decide))
  | nothing =>
    cases d' with
    | nothing => exact ⟨rfl, htokens⟩
    | something es =>
      have hstart := es.startsPhrase_tokens trivial rest'
      rw [← show rest = es.tokens ++ rest' from htokens, h.2] at hstart
      cases hstart
  | something es ih =>
    cases d' with
    | nothing =>
      have hstart := es.startsPhrase_tokens trivial rest
      rw [show es.tokens ++ rest = rest' from htokens, h'.2] at hstart
      cases hstart
    | something es' =>
      obtain ⟨rfl, rfl⟩ := ih es' h.1 h'.1 htokens
      exact ⟨rfl, rfl⟩
  | one e ih =>
    cases d' with
    | one e' =>
      obtain ⟨rfl, rfl⟩ := ih e' h.1 h'.1 htokens
      exact ⟨rfl, rfl⟩
    | more e' comma es =>
      simp only [tokens, List.append_assoc, List.cons_append] at htokens
      obtain ⟨-, rfl⟩ := ih e' h.1 (stopsAll_sign comma _ (by simp)) htokens
      exact absurd comma.2 (h.2 _ rfl)
  | more e comma es ihe ihes =>
    simp only [tokens, List.append_assoc, List.cons_append] at htokens
    cases d' with
    | one e' =>
      obtain ⟨-, rfl⟩ := ihe e' (stopsAll_sign comma _ (by simp)) h'.1 htokens
      exact absurd comma.2 (h'.2 _ rfl)
    | more e' comma' es' =>
      simp only [tokens, List.append_assoc, List.cons_append] at htokens
      obtain ⟨rfl, hcomma⟩ := ihe e' (stopsAll_sign comma _ (by simp))
        (stopsAll_sign comma' _ (by simp)) htokens
      obtain ⟨rfl, hrest⟩ := sign_inj hcomma
      obtain ⟨rfl, rfl⟩ := ihes es' h h' hrest
      exact ⟨rfl, rfl⟩

/-- **The grammar is unambiguous**: no two derivations of an expression have the same tokens. -/
theorem unique {d d' : Derivation .expression} (h : d.tokens = d'.tokens) : d = d' :=
  have hends : Rule.expression.Follows [] := ⟨by simp [Stops], by simp⟩
  (unique_of_append d d' hends hends (by rw [h])).1

end ChartNet.Phrase.Derivation
