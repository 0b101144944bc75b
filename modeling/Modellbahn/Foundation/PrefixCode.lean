import Mathlib.Data.List.TakeWhile
import Mathlib.Logic.Function.Basic

/-!
# Prefix codes

A code `enc : α → List β` is a *prefix code* if from a list that begins with a code word, the word
and the rest of the list can be read in one way only. Prefix codes are put together from words that
a delimiter ends (`PrefixCode.of_delimited`), fixed texts and sequences (`PrefixCode.text_append`,
`PrefixCode.append`), and alternatives that differ in their first letter (`PrefixCode.sum`); a list
of words can be read back from their concatenation (`PrefixCode.flatMap_injective`).
-/

variable {α α' β : Type*}

/-- At the beginning of a list there is one code word at most. -/
def PrefixCode (enc : α → List β) : Prop :=
  ∀ (a b : α) (r r' : List β), enc a ++ r = enc b ++ r' → a = b ∧ r = r'

namespace PrefixCode

variable {enc : α → List β} {enc' : α' → List β}

/-- Words of letters with a property, before a letter without it. -/
theorem of_delimited {p : β → Bool} (hinj : Function.Injective enc) (hall : ∀ a, ∀ x ∈ enc a, p x)
    {x : β} (hx : p x = false) : PrefixCode fun a => enc a ++ [x] := by
  have htake : ∀ a r, (enc a ++ [x] ++ r).takeWhile p = enc a := fun a r => by
    rw [List.append_assoc, List.singleton_append, List.takeWhile_append_of_pos (hall a),
      List.takeWhile_cons_of_neg (by simp [hx]), List.append_nil]
  intro a b r r' h
  obtain rfl : a = b := hinj (by rw [← htake a r, h, htake])
  exact ⟨rfl, List.append_cancel_left h⟩

/-- A fixed text in front. -/
theorem text_append (t : List β) (h : PrefixCode enc) : PrefixCode fun a => t ++ enc a := by
  intro a b r r' heq
  rw [List.append_assoc, List.append_assoc] at heq
  exact h _ _ _ _ (List.append_cancel_left heq)

theorem append (h : PrefixCode enc) (h' : PrefixCode enc') :
    PrefixCode fun c : α × α' => enc c.1 ++ enc' c.2 := by
  intro c d r r' heq
  rw [List.append_assoc, List.append_assoc] at heq
  obtain ⟨hfirst, hrest⟩ := h _ _ _ _ heq
  obtain ⟨hsecond, hr⟩ := h' _ _ _ _ hrest
  exact ⟨Prod.ext hfirst hsecond, hr⟩

/-- Words of two codes that begin with different letters. -/
theorem sum (h : PrefixCode enc) (h' : PrefixCode enc')
    (hhead : ∀ a a', ∃ x y, (enc a).head? = some x ∧ (enc' a').head? = some y ∧ x ≠ y) :
    PrefixCode (Sum.elim enc enc') := by
  have hne : ∀ {a a' r r'}, enc a ++ r ≠ enc' a' ++ r' := fun {a a' r r'} heq => by
    obtain ⟨x, y, hx, hy, hxy⟩ := hhead a a'
    have hfirst := congrArg List.head? heq
    rw [List.head?_append, List.head?_append, hx, hy, Option.some_or, Option.some_or] at hfirst
    exact hxy (Option.some.inj hfirst)
  intro a b r r' heq
  cases a with
  | inl a =>
    cases b with
    | inl b =>
      obtain ⟨rfl, hr⟩ := h _ _ _ _ heq
      exact ⟨rfl, hr⟩
    | inr b => exact absurd heq hne
  | inr a =>
    cases b with
    | inl b => exact absurd heq.symm hne
    | inr b =>
      obtain ⟨rfl, hr⟩ := h' _ _ _ _ heq
      exact ⟨rfl, hr⟩

theorem comp {γ : Type*} {f : γ → α} (h : PrefixCode enc) (hf : Function.Injective f) :
    PrefixCode fun c => enc (f c) := by
  intro c d r r' heq
  obtain ⟨hfirst, hr⟩ := h _ _ _ _ heq
  exact ⟨hf hfirst, hr⟩

/-- **Reading back.** A list of words that are not empty can be read back. -/
theorem flatMap_injective (h : PrefixCode enc) (hne : ∀ a, enc a ≠ []) :
    Function.Injective fun l : List α => l.flatMap enc := by
  intro l l' heq
  dsimp only at heq
  induction l generalizing l' with
  | nil =>
    cases l' with
    | nil => rfl
    | cons b l' =>
      rw [List.flatMap_nil, List.flatMap_cons] at heq
      exact absurd (List.append_eq_nil_iff.mp heq.symm).1 (hne b)
  | cons a l ih =>
    cases l' with
    | nil =>
      rw [List.flatMap_nil, List.flatMap_cons] at heq
      exact absurd (List.append_eq_nil_iff.mp heq).1 (hne a)
    | cons b l' =>
      rw [List.flatMap_cons, List.flatMap_cons] at heq
      obtain ⟨rfl, hrest⟩ := h _ _ _ _ heq
      rw [ih hrest]

end PrefixCode
