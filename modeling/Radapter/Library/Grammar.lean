import Mathlib.Data.List.Forall2

/-!
# Parsers that recognize a grammar

A grammar says which texts stand for a value, and a parser takes one value off the front of its
input. The parser recognizes the grammar when what it takes is a text of the grammar and it takes
every such text, whatever stands behind it. A text of the grammar then tells its own end: no text
is the beginning of another, so sequences of values can be written without anything between them
and are read back in one way only.
-/

namespace Library

variable {α β : Type*}

/-- A parser takes a value off the front of its input. -/
abbrev Parser (α β : Type*) := List α → Option (β × List α)

/-- The parser takes exactly the texts of the grammar off the front of its input. -/
def Recognizes (parse : Parser α β) (R : β → List α → Prop) : Prop :=
  ∀ input b rest, parse input = some (b, rest) ↔ ∃ text, R b text ∧ input = text ++ rest

/-- The text is made up of one text of the grammar for each value. -/
def Sequence (R : β → List α → Prop) (bs : List β) (text : List α) : Prop :=
  ∃ texts, List.Forall₂ R bs texts ∧ text = texts.flatten

/-- Nothing is written as the empty text. -/
theorem sequence_nil {R : β → List α → Prop} {text : List α} : Sequence R [] text ↔ text = [] := by
  simp [Sequence]

/-- What comes first is written in front. -/
theorem sequence_cons {R : β → List α → Prop} {b : β} {bs : List β} {text : List α} :
    Sequence R (b :: bs) text ↔
      ∃ first more, R b first ∧ Sequence R bs more ∧ text = first ++ more := by
  constructor
  · rintro ⟨texts, hforall, rfl⟩
    obtain ⟨first, more, hfirst, hmore, rfl⟩ := List.forall₂_cons_left_iff.mp hforall
    exact ⟨first, more.flatten, hfirst, ⟨more, hmore, rfl⟩, List.flatten_cons⟩
  · rintro ⟨first, more, hfirst, ⟨texts, htexts, rfl⟩, rfl⟩
    exact ⟨first :: texts, .cons hfirst htexts, List.flatten_cons.symm⟩

/-- A sequence written value by value is one of the grammar of its values. -/
theorem sequence_flatMap {R : β → List α → Prop} {encode : β → List α}
    (h : ∀ b, R b (encode b)) (bs : List β) : Sequence R bs (bs.flatMap encode) := by
  induction bs with
  | nil => exact sequence_nil.mpr List.flatMap_nil
  | cons b bs ih =>
    exact sequence_cons.mpr ⟨encode b, bs.flatMap encode, h b, ih, List.flatMap_cons⟩

/-- The parser that takes `n` values. -/
def times (parse : Parser α β) : ℕ → Parser α (List β)
  | 0, input => some ([], input)
  | n + 1, input =>
      (parse input).bind fun (b, rest) => (times parse n rest).map fun (bs, rest) => (b :: bs, rest)

/-- Values are taken until nothing is left, in as many rounds as there are letters at most. -/
def drainAll (parse : Parser α β) : ℕ → List α → Option (List β)
  | _, [] => some []
  | 0, _ :: _ => none
  | fuel + 1, a :: input =>
      (parse (a :: input)).bind fun (b, rest) => (drainAll parse fuel rest).map (b :: ·)

/-- The whole input as a sequence of values. -/
def parseAll (parse : Parser α β) (input : List α) : Option (List β) :=
  drainAll parse input.length input

variable {parse : Parser α β} {R : β → List α → Prop}

/-- Taking `n` values recognizes the sequences of `n` values. -/
theorem Recognizes.times (h : Recognizes parse R) (n : ℕ) :
    Recognizes (times parse n) (fun bs text => bs.length = n ∧ Sequence R bs text) := by
  induction n with
  | zero =>
    intro input bs rest
    simp only [Library.times, Option.some.injEq, Prod.mk.injEq, List.length_eq_zero_iff]
    constructor
    · rintro ⟨rfl, rfl⟩
      exact ⟨[], ⟨rfl, sequence_nil.mpr rfl⟩, rfl⟩
    · rintro ⟨text, ⟨rfl, htext⟩, rfl⟩
      rw [sequence_nil.mp htext]
      exact ⟨rfl, rfl⟩
  | succ n ih =>
    intro input bs rest
    simp only [Library.times, Option.bind_eq_some_iff, Option.map_eq_some_iff, Prod.exists,
      Prod.mk.injEq]
    constructor
    · rintro ⟨b, behind, hb, bs, _, hbs, rfl, rfl⟩
      obtain ⟨first, hfirst, rfl⟩ := (h _ _ _).mp hb
      obtain ⟨more, ⟨hlen, hmore⟩, rfl⟩ := (ih _ _ _).mp hbs
      exact ⟨first ++ more, ⟨by simp [hlen], sequence_cons.mpr ⟨first, more, hfirst, hmore, rfl⟩⟩,
        (List.append_assoc ..).symm⟩
    · rintro ⟨text, ⟨hlen, htext⟩, rfl⟩
      cases bs with
      | nil => cases hlen
      | cons b bs =>
        obtain ⟨first, more, hfirst, hmore, rfl⟩ := sequence_cons.mp htext
        refine ⟨b, more ++ rest, (h _ _ _).mpr ⟨first, hfirst, List.append_assoc ..⟩, bs, rest,
          (ih _ _ _).mpr ⟨more, ⟨by simpa using hlen, hmore⟩, rfl⟩, rfl, rfl⟩

/-- Nothing but the empty sequence is left of an empty input. -/
theorem drainAll_nil_iff (hne : ∀ b text, R b text → text ≠ []) (fuel : ℕ) (bs : List β) :
    drainAll parse fuel [] = some bs ↔ Sequence R bs [] := by
  have hnil : drainAll parse fuel [] = some [] := by cases fuel <;> rfl
  rw [hnil, Option.some.injEq]
  constructor
  · rintro rfl
    exact sequence_nil.mpr rfl
  · intro h
    cases bs with
    | nil => rfl
    | cons b bs =>
      obtain ⟨first, more, hfirst, -, heq⟩ := sequence_cons.mp h
      exact absurd (List.append_eq_nil_iff.mp heq.symm).1 (hne b first hfirst)

/-- Values taken until nothing is left are a sequence of the grammar. Every text of the grammar
has a letter, so there are rounds enough. -/
theorem Recognizes.drainAll (h : Recognizes parse R) (hne : ∀ b text, R b text → text ≠ [])
    {fuel : ℕ} {input : List α} (hfuel : input.length ≤ fuel) (bs : List β) :
    drainAll parse fuel input = some bs ↔ Sequence R bs input := by
  induction fuel generalizing input bs with
  | zero =>
    obtain rfl : input = [] := List.length_eq_zero_iff.mp (by omega)
    exact drainAll_nil_iff hne 0 bs
  | succ fuel ih =>
    cases input with
    | nil => exact drainAll_nil_iff hne (fuel + 1) bs
    | cons a input =>
      simp only [Library.drainAll, Option.bind_eq_some_iff, Option.map_eq_some_iff, Prod.exists]
      have hless {first behind : List α} (heq : a :: input = first ++ behind)
          (hfirst : first ≠ []) : behind.length ≤ fuel := by
        have hlen := congrArg List.length heq
        have hpos := List.length_pos_of_ne_nil hfirst
        simp only [List.length_cons, List.length_append] at hlen hfuel
        omega
      constructor
      · rintro ⟨b, behind, hb, bs, hbs, rfl⟩
        obtain ⟨first, hfirst, heq⟩ := (h _ _ _).mp hb
        have hmore := (ih (hless heq (hne b first hfirst)) bs).mp hbs
        exact sequence_cons.mpr ⟨first, behind, hfirst, hmore, heq⟩
      · intro htext
        cases bs with
        | nil => cases sequence_nil.mp htext
        | cons b bs =>
          obtain ⟨first, more, hfirst, hmore, heq⟩ := sequence_cons.mp htext
          exact ⟨b, more, (h _ _ _).mpr ⟨first, hfirst, heq⟩, bs,
            (ih (hless heq (hne b first hfirst)) bs).mpr hmore, rfl⟩

/-- A parser of whole inputs recognizes the sequences of values. -/
theorem Recognizes.parseAll (h : Recognizes parse R) (hne : ∀ b text, R b text → text ≠ [])
    (input : List α) (bs : List β) : parseAll parse input = some bs ↔ Sequence R bs input :=
  h.drainAll hne (Nat.le_refl _) bs

end Library
