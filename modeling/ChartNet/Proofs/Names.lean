import Mathlib
import ChartNet.Digest
import ChartNet.Event

/-!
# Generated names

Locations and actions that a compilation makes up are put together from given names, digests and
numbers. Two facts keep them apart from each other and from the actions of events. The text of a
number is a run of digits, so a name that goes on with something else determines the number. And a
name that ends in a dash and a text without an underscore is neither the action of a send nor that
of a receive, because both end in words with underscores.

A new location is named by a text, a digest and a number, joined by dashes. Which text and which
digest is determined by the name as long as the text is not itself of this form
(`generated_append_inj`): the dashes cannot be anywhere else, as neither digests nor numbers have
any.
-/

namespace ChartNet

/-! ### Texts of numbers -/

/-- Whether a text starts with a digit. -/
def startsWithDigit (s : String) : Prop :=
  ∃ c ∈ s.toList.head?, c.isDigit

namespace Number

@[simp] theorem toList_natText (n : Nat) : (natText n).toList = Nat.toDigits 10 n := by
  simp [natText, digitsOf]

theorem isDigit_of_mem_natText {n : Nat} {c : Char} (h : c ∈ (natText n).toList) : c.isDigit := by
  rw [toList_natText] at h
  exact Nat.isDigit_of_mem_toDigits (by decide) (by decide) h

/-- A character that is no digit does not occur in the text of a number. -/
theorem not_mem_natText {c : Char} (h : c.isDigit = false) (n : Nat) : c ∉ (natText n).toList :=
  fun hc => by simp [isDigit_of_mem_natText hc] at h

theorem natText_injective : Function.Injective natText := by
  intro i j h
  have hdigits := congrArg (fun s => Nat.ofDigitChars 10 s.toList 0) h
  simpa using hdigits

/-- A number and what follows it are determined by their text, if no digit follows. -/
theorem natText_append_inj {i j : Nat} {s t : String} (hs : ¬ startsWithDigit s)
    (ht : ¬ startsWithDigit t) (h : natText i ++ s = natText j ++ t) : i = j ∧ s = t := by
  have htake : ∀ (n : Nat) (u : String), ¬ startsWithDigit u →
      (natText n ++ u).toList.takeWhile Char.isDigit = (natText n).toList := by
    intro n u hu
    have hall : ∀ c ∈ (natText n).toList, c.isDigit := fun c => isDigit_of_mem_natText
    rw [String.toList_append, List.takeWhile_append_of_pos hall]
    cases hu' : u.toList with
    | nil => simp
    | cons c cs =>
      have hc : c.isDigit = false := by
        by_contra hc
        exact hu ⟨c, by simp [hu'], by simpa using hc⟩
      simp [hc]
  have heq : natText i = natText j := by
    rw [← String.toList_inj, ← htake i s hs, ← htake j t ht, h]
  rw [heq, String.append_right_inj] at h
  exact ⟨natText_injective heq, h⟩

end Number

/-! ### Names that end in a dash and a text -/

/-- The end of a list of characters that lacks the mark `c` lies behind every mark. -/
theorem suffix_of_suffix_append_cons {α : Type} {c : α} {s x y : List α}
    (h : s <:+ x ++ c :: y) (hc : c ∉ s) : s <:+ y := by
  have hy : y <:+ x ++ c :: y := ⟨x ++ [c], by simp⟩
  rcases List.suffix_or_suffix_of_suffix h hy with hs | hys
  · exact hs
  · -- a longer end would contain the mark
    obtain ⟨u, rfl⟩ := hys
    induction u using List.reverseRecOn with
    | nil => simp
    | append_singleton v d _ =>
      have hsuf : [] ++ d :: y <:+ x ++ c :: y :=
        List.IsSuffix.trans ⟨v, by simp⟩ h
      have hlen : (d :: y).length = (c :: y).length := by simp
      have heq := (List.suffix_append_inj_of_length_eq hlen).1 hsuf
      have hdc : d = c := by simpa using heq.2
      exact absurd (by simp [hdc]) hc

/-- Whether an action is one by which an event is **delivered**: that of a send or of a receive. -/
def IsDelivery (action : String) : Prop :=
  ∃ event, action = sendAction event ∨ action = receiveAction event

/-- A name that ends in a dash and a text without underscores delivers nothing. -/
theorem not_isDelivery_of_dash (x : String) {y : String} (hy : '_' ∉ y.toList) :
    ¬ IsDelivery (x ++ "-" ++ y) := by
  have hend : ∀ event word : String, '-' ∉ word.toList → '_' ∈ word.toList →
      x ++ "-" ++ y ≠ event ++ word := by
    intro event word hdash hline h
    have hsuffix : word.toList <:+ x.toList ++ '-' :: y.toList :=
      ⟨event.toList, by simpa using (congrArg String.toList h).symm⟩
    exact hy ((suffix_of_suffix_append_cons hsuffix hdash).mem hline)
  rintro ⟨event, h | h⟩
  · exact hend event "_on_send" (by decide) (by decide) h
  · exact hend event "_on_receive" (by decide) (by decide) h

/-- The digits of a digest are no underscores. -/
theorem not_mem_digest (parts : List Json) : '_' ∉ (digest parts).toList := by
  have hdigit : ∀ n, n < 16 → Nat.digitChar n ≠ '_' := by decide
  intro h
  simp only [digest, Digest.hex, String.toList_ofList, List.mem_map] at h
  obtain ⟨k, -, hk⟩ := h
  exact hdigit _ (Nat.mod_lt _ (by decide)) hk

/-! ### The actions of events -/

theorem sendAction_injective : Function.Injective sendAction :=
  fun _ _ h => (String.append_left_inj _).1 h

theorem receiveAction_injective : Function.Injective receiveAction :=
  fun _ _ h => (String.append_left_inj _).1 h

/-- No action both sends and receives. -/
theorem sendAction_ne_receiveAction (e f : String) : sendAction e ≠ receiveAction f := by
  intro h
  have hlast := congrArg (fun s => s.toList.getLast?) h
  simp [sendAction, receiveAction] at hlast

/-- Whether an action **sends** some event. -/
def isSend (action : String) : Bool :=
  "_on_send".toList.isSuffixOf action.toList

theorem isSend_iff {action : String} : isSend action ↔ ∃ event, action = sendAction event := by
  rw [isSend, List.isSuffixOf_iff_suffix]
  constructor
  · rintro ⟨cs, hcs⟩
    refine ⟨String.ofList cs, ?_⟩
    rw [← String.toList_inj, sendAction, String.toList_append, String.toList_ofList, hcs]
  · rintro ⟨event, rfl⟩
    rw [sendAction, String.toList_append]
    exact List.suffix_append _ _

@[simp] theorem isSend_sendAction (event : String) : isSend (sendAction event) :=
  isSend_iff.2 ⟨event, rfl⟩

/-- What ends in a dash and a text sends only if the text ends in the mark of a send. -/
theorem isSend_dash_append (x y : String) : isSend (x ++ "-" ++ y) = isSend y := by
  rw [Bool.eq_iff_iff, isSend, isSend, List.isSuffixOf_iff_suffix, List.isSuffixOf_iff_suffix]
  have hdash : (x ++ "-" ++ y).toList = x.toList ++ '-' :: y.toList := by simp
  rw [hdash]
  refine ⟨fun h => suffix_of_suffix_append_cons h (by decide), fun h => ?_⟩
  exact h.trans ⟨x.toList ++ ['-'], by simp⟩

/-- The text of a number sends nothing. -/
@[simp] theorem isSend_natText (n : Nat) : isSend (Number.natText n) = false := by
  rw [Bool.eq_false_iff, ne_eq, isSend, List.isSuffixOf_iff_suffix]
  exact fun h => Number.not_mem_natText (c := '_') (by decide) n (h.mem (by decide))

/-! ### Names of new locations -/

/-- Whether a text has the form of a **digest**: eight hexadecimal digits. -/
def IsDigest (h : String) : Prop :=
  h.toList.length = 8 ∧ ∀ c ∈ h.toList, c ∈ "0123456789abcdef".toList

theorem isDigest_digest (parts : List Json) : IsDigest (digest parts) := by
  have hdigit : ∀ n, n < 16 → Nat.digitChar n ∈ "0123456789abcdef".toList := by decide
  simp only [IsDigest, digest, Digest.hex, String.toList_ofList]
  refine ⟨by simp, fun c hc => ?_⟩
  obtain ⟨k, -, rfl⟩ := List.mem_map.1 hc
  exact hdigit _ (Nat.mod_lt _ (by decide))

theorem IsDigest.not_mem {h : String} (hh : IsDigest h) {c : Char}
    (hc : c ∉ "0123456789abcdef".toList) : c ∉ h.toList :=
  fun hmem => hc (hh.2 c hmem)

/-- Whether a name has the form of a **generated** one: some text, a digest and a number, joined by
dashes, and anything after them. -/
def IsGenerated (l : String) : Prop :=
  ∃ x h t, IsDigest h ∧ startsWithDigit t ∧ l = x ++ "-" ++ h ++ "-" ++ t

/-- Short names are not generated. -/
theorem IsGenerated.length_le {l : String} (h : IsGenerated l) : 11 ≤ l.toList.length := by
  obtain ⟨x, h, t, hh, ⟨d, hd, -⟩, rfl⟩ := h
  have ht : 1 ≤ t.toList.length := List.length_pos_iff.2 fun hnil => by simp [hnil] at hd
  have hdash : "-".toList.length = 1 := rfl
  have hlength := hh.1
  simp only [String.toList_append, List.length_append]
  omega

theorem startsWithDigit_natText_append (i : Nat) (t : String) :
    startsWithDigit (Number.natText i ++ t) := by
  obtain ⟨c, cs, hcs⟩ : ∃ c cs, (Number.natText i).toList = c :: cs := by
    refine List.exists_cons_of_ne_nil ?_
    rw [Number.toList_natText]
    exact Nat.toDigits_ne_nil
  refine ⟨c, by simp [hcs], Number.isDigit_of_mem_natText (n := i) ?_⟩
  simp [hcs]

/-- A number with nothing or an underscore behind it is not a digest with a dash behind it. -/
private theorem number_append_ne {n t k r : List Char} (hn : ∀ c ∈ n, c.isDigit)
    (ht : t = [] ∨ ∃ u, t = '_' :: u) (hk : '_' ∉ k) : n ++ t ≠ k ++ '-' :: r := by
  have hdash : '-' ∉ n := fun hmem => by simpa using hn _ hmem
  intro heq
  rcases List.append_eq_append_iff.1 heq with ⟨b, rfl, hrest⟩ | ⟨b, rfl, hrest⟩
  · rcases ht with rfl | ⟨u, rfl⟩
    · simp at hrest
    · cases b <;> simp_all
  · rcases ht with rfl | ⟨u, rfl⟩ <;> cases b <;> simp_all

/-- Where a new location follows on one text and on a longer one, the longer text is generated. -/
private theorem eq_nil_of_append_eq {a h n t k r : List Char} (hh : '-' ∉ h)
    (hn : ∀ c ∈ n, c.isDigit) (hn' : n ≠ []) (ht : t = [] ∨ ∃ u, t = '_' :: u) (hk : '_' ∉ k)
    (ha : ∀ d b, d.isDigit → a ≠ '-' :: (h ++ '-' :: d :: b))
    (heq : '-' :: (h ++ '-' :: (n ++ t)) = a ++ '-' :: (k ++ '-' :: r)) : a = [] := by
  have hdash : '-' ∉ n := fun hmem => by simpa using hn _ hmem
  obtain ⟨d, n, rfl⟩ := List.exists_cons_of_ne_nil hn'
  cases a with
  | nil => rfl
  | cons c a =>
    exfalso
    simp only [List.cons_append, List.cons.injEq] at heq
    obtain ⟨rfl, heq⟩ := heq
    -- `a` ends within the digest, right behind it, or behind the dash after it
    rcases List.append_eq_append_iff.1 heq with ⟨b, rfl, hrest⟩ | ⟨b, rfl, hrest⟩
    · match b with
      | [] => exact number_append_ne hn ht hk (List.cons.inj hrest).2
      | [c] =>
        simp only [List.cons_append, List.cons.injEq, List.nil_append] at hrest
        exact hdash (by simp [hrest.2.1])
      | c :: d' :: b =>
        simp only [List.cons_append, List.cons.injEq] at hrest
        obtain ⟨rfl, rfl, -⟩ := hrest
        exact ha d b (hn d (by simp)) rfl
    · match b with
      | [] => exact number_append_ne hn ht hk (List.cons.inj hrest).2.symm
      | c :: b =>
        simp only [List.cons_append, List.cons.injEq] at hrest
        exact hh (by simp [← hrest.1])

/-- The longer of the texts before two digests is no longer if it is not generated. -/
private theorem generated_append_inj_of_append {x y h k s t : String} {a : List Char} {i j : Nat}
    (hy : ¬ IsGenerated y) (hh : IsDigest h) (hk : IsDigest k) (hs : s = "" ∨ ∃ u, s = "_" ++ u)
    (hxy : y.toList = x.toList ++ a)
    (heq : '-' :: (h.toList ++ '-' :: ((Number.natText i).toList ++ s.toList)) =
      a ++ '-' :: (k.toList ++ '-' :: ((Number.natText j).toList ++ t.toList))) :
    x = y ∧ h = k := by
  have hnil : a = [] := by
    refine eq_nil_of_append_eq (hh.not_mem (by decide)) (fun c => Number.isDigit_of_mem_natText)
      ?_ ?_ (hk.not_mem (by decide)) (fun d b hd ha => hy ?_) heq
    · rw [Number.toList_natText]
      exact Nat.toDigits_ne_nil
    · exact hs.imp (by simp) fun ⟨u, hu⟩ => ⟨u.toList, by simp [hu]⟩
    · refine ⟨x, h, String.ofList (d :: b), hh, ⟨d, by simp, hd⟩, ?_⟩
      rw [← String.toList_inj, hxy, ha]
      simp
  subst hnil
  rw [List.append_nil] at hxy
  refine ⟨String.toList_inj.1 hxy.symm, String.toList_inj.1 ?_⟩
  exact (List.append_inj (List.cons.inj heq).2 (by rw [hh.1, hk.1])).1

/-- **The name of a new location determines the text before its digest, and the digest**, if that
text is not generated itself. -/
theorem generated_append_inj {x y h k s t : String} {i j : Nat} (hx : ¬ IsGenerated x)
    (hy : ¬ IsGenerated y) (hh : IsDigest h) (hk : IsDigest k) (hs : s = "" ∨ ∃ u, s = "_" ++ u)
    (ht : t = "" ∨ ∃ u, t = "_" ++ u)
    (heq : x ++ "-" ++ h ++ "-" ++ Number.natText i ++ s =
      y ++ "-" ++ k ++ "-" ++ Number.natText j ++ t) : x = y ∧ h = k := by
  have hlist := congrArg String.toList heq
  have hdash : "-".toList = ['-'] := rfl
  simp only [String.toList_append, hdash, List.append_assoc, List.singleton_append] at hlist
  rcases List.append_eq_append_iff.1 hlist with ⟨a, hxy, hrest⟩ | ⟨a, hxy, hrest⟩
  · exact generated_append_inj_of_append hy hh hk hs hxy hrest
  · obtain ⟨rfl, rfl⟩ := generated_append_inj_of_append hx hk hh ht hxy hrest
    exact ⟨rfl, rfl⟩

/-- A text without digits makes no name generated. -/
theorem not_isGenerated_append {x y : String} (hx : ¬ IsGenerated x)
    (hy : ∀ c ∈ y.toList, c.isDigit = false) : ¬ IsGenerated (x ++ y) := by
  rintro ⟨z, h, t, hh, ⟨d, hd, hdigit⟩, heq⟩
  obtain ⟨t', ht⟩ : ∃ t', t.toList = d :: t' := by
    cases hlist : t.toList <;> simp_all
  have hlist : x.toList ++ y.toList = (z.toList ++ '-' :: (h.toList ++ ['-', d])) ++ t' := by
    simpa [ht] using congrArg String.toList heq
  -- The number starts in `x`, so `x` is generated, or in `y`, which has no digit.
  have hgenerated : ∀ b, x.toList ≠ z.toList ++ '-' :: (h.toList ++ ['-', d]) ++ b := fun b hb =>
    hx ⟨z, h, String.ofList (d :: b), hh, ⟨d, by simp, hdigit⟩, by
      rw [← String.toList_inj, hb]
      simp⟩
  rcases List.append_eq_append_iff.1 hlist with ⟨a, ha, hrest⟩ | ⟨b, hb, -⟩
  · cases a using List.reverseRecOn with
    | nil => exact hgenerated [] (by simpa using ha.symm)
    | append_singleton a c =>
      have hlast : (z.toList ++ '-' :: (h.toList ++ ['-'])) ++ [d] = (x.toList ++ a) ++ [c] := by
        simpa using ha
      have hc : d = c := List.singleton_inj.1 (List.append_inj' hlast rfl).2
      have hnone := hy c (by simp [hrest])
      simp [← hc, hdigit] at hnone
  · exact hgenerated b hb

end ChartNet
