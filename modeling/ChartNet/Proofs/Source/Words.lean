import ChartNet.Proofs.Source.Descent
import ChartNet.Proofs.Source.Lexing

/-!
# Names in parsed text

The **names** in a phrase are words of the text that was parsed: a parsed phrase is the reading of a
derivation with the same tokens, and each production takes its names from its own tokens.
-/

namespace ChartNet

namespace Phrase

mutual

/-- All words that a phrase takes for **names** have a property. -/
def Named (Q : Token → Prop) : Phrase → Prop
  | number _ | string _ | truth _ _ => True
  | name t => Q t
  | group _ p => p.Named Q
  | list _ ps => NamedAll Q ps
  | member b t => b.Named Q ∧ Q t
  | index b _ p => b.Named Q ∧ p.Named Q
  | call b _ ps => b.Named Q ∧ NamedAll Q ps
  | unary _ p => p.Named Q
  | binary _ l r => l.Named Q ∧ r.Named Q
  | conditional t a b => t.Named Q ∧ a.Named Q ∧ b.Named Q

/-- All words that phrases take for names have a property. -/
def NamedAll (Q : Token → Prop) : List Phrase → Prop
  | [] => True
  | p :: ps => p.Named Q ∧ NamedAll Q ps

end

/-- The tokens that are words have a property. -/
def WordsAre (Q : Token → Prop) (ts : List Token) : Prop := ∀ t ∈ ts, t.kind = .word → Q t

variable {Q : Token → Prop} {ts ts' : List Token}

theorem wordsAre_append : WordsAre Q (ts ++ ts') ↔ WordsAre Q ts ∧ WordsAre Q ts' := by
  simp only [WordsAre, List.forall_mem_append]

theorem wordsAre_cons {t : Token} :
    WordsAre Q (t :: ts) ↔ (t.kind = .word → Q t) ∧ WordsAre Q ts := by
  simp only [WordsAre, List.forall_mem_cons]

/-- What is read from a rule takes its **names** from words with a property. What goes on with a
phrase keeps those of the phrase. -/
def Rule.Named (Q : Token → Prop) : (r : Rule) → r.Reading → Prop
  | .operators _, f | .suffixes, f | .suffix, f => ∀ p : Phrase, p.Named Q → (f p).Named Q
  | .arguments, ps | .items, ps => NamedAll Q ps
  | .expression, p | .level _, p | .unary, p | .primary, p => Phrase.Named Q p

/-- The names in the reading of a derivation are words among its tokens. -/
theorem Derivation.named {r : Rule} (d : Derivation r) (h : WordsAre Q d.tokens) :
    r.Named Q d.reading := by
  induction d with
  | plain e ih | operand e ih | something e ih => exact ih h
  | conditional c q a colon b ihc iha ihb =>
    simp only [tokens, wordsAre_append, wordsAre_cons] at h
    exact ⟨ihc h.1, iha h.2.2.1, ihb h.2.2.2.2⟩
  | chain e es ihe ihes | postfixed e es ihe ihes =>
    rw [tokens, wordsAre_append] at h
    exact ihes h.2 _ (ihe h.1)
  | noOperator | noSuffix => exact fun p hp => hp
  | operator op e es ihe ihes =>
    simp only [tokens, wordsAre_append, wordsAre_cons] at h
    -- what goes on with a phrase keeps the property of that phrase
    exact fun left hleft => ihes h.2.2 _ ⟨hleft, ihe h.2.1⟩
  | prefixed op e ih =>
    rw [tokens, wordsAre_cons] at h
    exact ih h.2
  | number | string | trueWord | falseWord | nothing => trivial
  | name t => exact h t.1 (List.mem_singleton_self _) t.2
  | group opening e closing ih | list opening e closing ih =>
    simp only [tokens, wordsAre_append, wordsAre_cons] at h
    exact ih h.2.1
  | suffixed s ss ihs ihss =>
    rw [tokens, wordsAre_append] at h
    exact fun base hbase => ihss h.2 _ (ihs h.1 base hbase)
  | member dot word =>
    simp only [tokens, wordsAre_cons] at h
    exact fun base hbase => ⟨hbase, h.2.1 word.2⟩
  | index opening e closing ih | call opening e closing ih =>
    simp only [tokens, wordsAre_append, wordsAre_cons] at h
    exact fun base hbase => ⟨hbase, ih h.2.1⟩
  | one e ih => exact ⟨ih h, trivial⟩
  | more e comma es ihe ihes =>
    simp only [tokens, wordsAre_append, wordsAre_cons] at h
    exact ⟨ihe h.1, ihes h.2.2⟩

/-- **The names in a parsed phrase are words of the text.** -/
theorem named_of_parse {p : Phrase} (h : parse ts = .ok p) (hwords : WordsAre Q ts) :
    p.Named Q := by
  obtain ⟨d, rfl, rfl⟩ := exists_derivation_of_parse h
  exact d.named hwords

end Phrase

namespace Token

/-- A token is a **word** that is no truth value. -/
def IsNameWord (t : Token) : Prop := IsWord t.text.toList ∧ wordKind t.text.toList = .word

/-- A lexeme of the kind of words is a word. -/
private theorem isWord_of_lexeme? {cs : List Char} {n : Nat} (h : lexeme? cs = some (.word, n)) :
    n ≠ 0 ∧ IsWord (cs.take n) ∧ wordKind (cs.take n) = .word := by
  unfold lexeme? at h
  split at h
  · cases h
  rename_i c rest
  split at h
  · cases h
  split at h
  · cases h
  split at h
  · rename_i hc
    obtain ⟨hkind, rfl⟩ := Prod.mk.inj (Option.some.inj h)
    have hword : (c :: rest).takeWhile continuesWord = c :: rest.takeWhile continuesWord :=
      List.takeWhile_cons_of_pos (by simp [continuesWord, hc])
    have htake : ∀ l : List Char, l.take (l.takeWhile continuesWord).length =
      l.takeWhile continuesWord :=
      fun l => (List.prefix_iff_eq_take.1 (List.takeWhile_prefix _)).symm
    rw [htake, hword]
    rw [hword] at hkind
    refine ⟨by simp, ⟨hc, fun d hd => ?_⟩, hkind⟩
    exact List.all_eq_true.1 List.all_takeWhile d hd
  · obtain ⟨o, ho, heq⟩ := Option.map_eq_some_iff.1 h
    have hmem := List.mem_of_find?_eq_some ho
    have hnone : ∀ o ∈ operators, o.2 ≠ .word := by decide
    exact absurd (Prod.mk.inj heq).1 (hnone o hmem)

/-- The words that a text is cut into are words. -/
theorem wordsAre_cutFrom (here : Cursor) (cs : List Char) :
    Phrase.WordsAre IsNameWord (cutFrom here cs).tokens := by
  fun_induction cutFrom here cs with
  | case1 => simp [Phrase.WordsAre]
  | case2 _ _ _ _ ih => exact ih
  | case3 here c rest hblank kind n hlexeme text more ih =>
    intro t ht hkind
    rcases List.mem_cons.1 ht with rfl | ht
    · obtain rfl : kind = .word := hkind
      obtain ⟨hn, hword, hwordKind⟩ := isWord_of_lexeme? hlexeme
      have htext : text = (c :: rest).take n := by rw [← Nat.sub_one_add_one hn]
      simp only [IsNameWord, String.toList_ofList, htext]
      exact ⟨hword, hwordKind⟩
    · exact ih t ht hkind
  | case4 _ _ _ _ _ _ _ _ ih => exact ih

end Token

end ChartNet
