import ChartNet.Proofs.Build
import ChartNet.Proofs.Source.Descent
import ChartNet.Proofs.Source.Unambiguous
import ChartNet.Source

/-!
# Well-formed text

Which texts have no diagnostics: those that lex, into tokens that are derived from the grammar.
`Lexes` says what it means to lex without going through the cutting of texts: a text is runs of
blanks and lexemes, where the lexeme at a place is the one that the order of the kinds gives.
-/

namespace ChartNet

namespace Token

/-! ### Lexing -/

/-- Characters **lex** into tokens, from a place on: they are runs of blanks, which are skipped, and
lexemes. -/
inductive Lexes : Cursor → List Char → List Token → Prop
  | done {here : Cursor} : Lexes here [] []
  | blanks {here : Cursor} {b : Char} {bs cs : List Char} {ts : List Token}
      (hblank : ∀ c ∈ b :: bs, Text.isBlank c = true) (hend : ∀ c ∈ cs.head?,
        Text.isBlank c = false)
      (h : Lexes (here.after (b :: bs)) cs ts) : Lexes here (b :: bs ++ cs) ts
  | token {here : Cursor} {cs : List Char} {kind : TokenKind} {n : Nat} {ts : List Token}
      (hblank : ∀ c ∈ cs.head?, Text.isBlank c = false) (hlexeme : lexeme? cs = some (kind, n))
      (h : Lexes (here.after (cs.take n)) (cs.drop n) ts) :
      Lexes here cs (⟨kind, String.ofList (cs.take n), here⟩ :: ts)

/-- A lexeme has a character. -/
theorem lexeme?_pos {cs : List Char} {kind : TokenKind} {n : Nat}
    (h : lexeme? cs = some (kind, n)) :
    0 < n := by
  unfold lexeme? at h
  split at h
  · cases h
  rename_i c rest
  split at h
  · cases h
    exact Nat.succ_pos _
  split at h
  · cases h
    exact Nat.succ_pos _
  split at h
  · rename_i hc
    cases h
    have hword : continuesWord c = true := by simp [continuesWord, hc]
    simp [hword]
  · obtain ⟨o, ho, heq⟩ := Option.map_eq_some_iff.1 h
    have hpos : ∀ o ∈ operators, 0 < o.1.length := by decide
    cases heq
    exact hpos o (List.mem_of_find?_eq_some ho)

/-- **A text lexes exactly if it is cut without junk**, into the tokens that it is cut into. -/
theorem lexes_iff {here : Cursor} {cs : List Char} {ts : List Token} :
    Lexes here cs ts ↔ (cutFrom here cs).junk = [] ∧ (cutFrom here cs).tokens = ts := by
  constructor
  · intro h
    induction h with
    | done => simp [cutFrom]
    | @blanks here b bs cs ts hblank hend _ ih =>
      obtain ⟨hb, hbs⟩ := List.forall_mem_cons.1 hblank
      -- blanks are skipped as far as they go, which is where the derivation stops
      have htake : (bs ++ cs).takeWhile Text.isBlank = bs := by
        rw [List.takeWhile_append_of_pos hbs]
        cases cs with
        | nil => simp
        | cons c cs => simp [hend c (by simp)]
      have hdrop : (bs ++ cs).dropWhile Text.isBlank = cs := by
        rw [List.dropWhile_append_of_pos hbs]
        cases cs with
        | nil => rfl
        | cons c cs => simp [hend c (by simp)]
      rw [List.cons_append, cutFrom, if_pos hb, htake, hdrop]
      exact ih
    | @token here cs kind n ts hblank hlexeme _ ih =>
      cases cs with
      | nil => cases hlexeme
      | cons c rest =>
        obtain ⟨n, rfl⟩ := Nat.exists_eq_succ_of_ne_zero (lexeme?_pos hlexeme).ne'
        rw [cutFrom, if_neg (by simp [hblank c (by simp)]), hlexeme]
        exact ⟨ih.1, by simp [← ih.2]⟩
  · rintro ⟨hjunk, rfl⟩
    fun_induction cutFrom here cs with
    | case1 => exact .done
    | case2 here c rest hblank ih =>
      have h := ih hjunk
      have hblanks := @Lexes.blanks here c (rest.takeWhile Text.isBlank) _ _ ?_ ?_ h
      · rwa [List.cons_append, List.takeWhile_append_dropWhile] at hblanks
      · exact List.forall_mem_cons.2 ⟨hblank, fun d hd => List.mem_takeWhile_imp hd⟩
      · intro d hd
        have hfind := (List.find?_eq_head?_dropWhile_not (fun c => !Text.isBlank c) rest).trans
          (by simpa using hd)
        simpa using List.find?_some hfind
    | case3 here c rest hblank kind n hlexeme text more ih =>
      obtain ⟨n, rfl⟩ := Nat.exists_eq_succ_of_ne_zero (lexeme?_pos hlexeme).ne'
      exact @Lexes.token here (c :: rest) kind _ _ (by simpa using hblank) hlexeme (ih hjunk)
    | case4 => cases hjunk

end Token

namespace Phrase

/-- A text is read as a phrase exactly if it lexes into tokens that are parsed as the phrase. -/
theorem ofText_eq_ok {text : String} {p : Phrase} :
    ofText text = .ok p ↔ (Token.cut text).junk = [] ∧ parse (Token.cut text).tokens = .ok p := by
  simp only [ofText]
  cases hjunk : (Token.cut text).junk with
  | nil => cases parse (Token.cut text).tokens <;> simp [Except.mapError]
  | cons => simp

end Phrase

namespace Source

open Phrase

/-- A text has no diagnostics exactly if it is read as some phrase. -/
theorem diagnose_eq_nil {text : String} : diagnose text = [] ↔ ∃ p, ofText text = .ok p := by
  simp only [diagnose, ofText]
  cases hjunk : (Token.cut text).junk with
  | nil => cases Phrase.parse (Token.cut text).tokens <;> simp [Except.mapError]
  | cons => simp

/-- **A text is well formed exactly if it lexes into tokens that are derived from the grammar.** The
derivation is then the only one with these tokens, and the text has the meaning of its phrase. -/
theorem diagnose_eq_nil_iff (text : String) :
    (diagnose text = [] ↔
        ∃ ts, Token.Lexes {} text.toList ts ∧ ∃ d : Derivation .expression, d.tokens = ts) ∧
      ∀ d : Derivation .expression, Token.Lexes {} text.toList d.tokens →
        (∀ d' : Derivation .expression, d'.tokens = d.tokens → d' = d) ∧
          read text = d.phrase.meaning.map (⟨text, ·⟩) := by
  have hphrase (d : Derivation .expression) (h : Token.Lexes {} text.toList d.tokens) :
      ofText text = .ok d.phrase := by
    obtain ⟨hjunk, htokens⟩ := Token.lexes_iff.1 h
    exact ofText_eq_ok.2 ⟨hjunk, (congrArg Phrase.parse htokens).trans d.parse⟩
  refine ⟨⟨fun h => ?_, ?_⟩, fun d h => ⟨fun d' => Derivation.unique, ?_⟩⟩
  · obtain ⟨p, hp⟩ := diagnose_eq_nil.1 h
    obtain ⟨hjunk, hparse⟩ := ofText_eq_ok.1 hp
    obtain ⟨d, htokens, -⟩ := exists_derivation_of_parse hparse
    exact ⟨_, Token.lexes_iff.2 ⟨hjunk, rfl⟩, d, htokens⟩
  · rintro ⟨_, h, d, rfl⟩
    exact diagnose_eq_nil.2 ⟨_, hphrase d h⟩
  · rw [read, hphrase d h]

/-- Differences are grouped to the left, conditionals to the right. -/
theorem diagnose_eq_nil_iff_of_conditionals :
    let text := "a ? b : c ? 1 : x - 2 - 3"
    let difference : Expr := .binary .sub (.binary .sub (.ident "x") (.int 2)) (.int 3)
    diagnose text = [] ∧
      ∃ d : Derivation .expression, Token.Lexes {} text.toList d.tokens ∧
        (∀ d' : Derivation .expression, d'.tokens = d.tokens → d' = d) ∧
        d.phrase.meaning.map (⟨text, ·⟩ : Meaning → Source) = .ok ⟨text, .plain
          (.ite (.ident "a") (.ident "b") (.ite (.ident "c") (.int 1) difference))⟩ := by
  intro text difference
  have hnone : diagnose text = [] := by decide +kernel
  obtain ⟨hiff, hread⟩ := diagnose_eq_nil_iff text
  obtain ⟨ts, hlexes, d, rfl⟩ := hiff.1 hnone
  obtain ⟨hunique, hmeaning⟩ := hread d hlexes
  refine ⟨hnone, d, hlexes, hunique, hmeaning.symm.trans ?_⟩
  exact Result.eq_ok_of_toOption (by decide +kernel)

end Source

end ChartNet
