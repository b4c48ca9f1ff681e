import Mathlib.Data.List.Induction

/-!
# What a history says last

A history is a list of events, the oldest first. Some events make a cell, with a default value, and
some say what its value is from then on; an event may do both. A cell that has heard a history has
the value that was said last since it was made.
-/

namespace Library.History

variable {α β : Type*}

/-- What the events say last, of those that say anything. -/
def last (tells : α → Option β) (events : List α) : Option β := (events.filterMap tells).getLast?

/-- The events from the first that makes the cell on. -/
def since (makes : α → Bool) (events : List α) : List α := events.dropWhile (fun e => !makes e)

/-- What a cell holds after an event. -/
def hear (makes : α → Bool) (tells : α → Option β) (default : β) : Option β → α → Option β
  | some b, e => some ((tells e).getD b)
  | none, e => if makes e then some ((tells e).getD default) else none

variable {makes : α → Bool} {tells : α → Option β} {default : β}

/-- The first event that makes the cell begins its history. -/
theorem since_of_makes {e : α} (h : makes e = true) (rest : List α) :
    since makes (e :: rest) = e :: rest :=
  List.dropWhile_cons_of_neg (by simp [h])

/-- An event that does not make the cell is not part of it. -/
theorem since_of_not_makes {e : α} (h : makes e = false) (rest : List α) :
    since makes (e :: rest) = since makes rest :=
  List.dropWhile_cons_of_pos (by simp [h])

/-- The first event has the last word if no other says anything. -/
theorem last_cons (e : α) (rest : List α) :
    last tells (e :: rest) = (last tells rest).or (tells e) := by
  cases h : tells e with
  | none => rw [last, last, List.filterMap_cons_none h, Option.or_none]
  | some b =>
    rw [last, last, List.filterMap_cons_some h, List.getLast?_cons]
    cases (rest.filterMap tells).getLast? with
    | none => rfl
    | some b' => rfl

/-- The last event has the last word, if it says anything. -/
theorem last_concat (events : List α) (e : α) :
    last tells (events ++ [e]) = (tells e).or (last tells events) := by
  rw [last, List.filterMap_append, List.getLast?_append]
  cases h : tells e with
  | none => simp [h, last]
  | some b => simp [h]

/-- Nothing is said before the cell is made, if whatever says something makes the cell. -/
theorem last_since (hmakes : ∀ e, tells e ≠ none → makes e = true) (events : List α) :
    last tells (since makes events) = last tells events := by
  induction events with
  | nil => rfl
  | cons e rest ih =>
    cases he : makes e with
    | true => rw [since_of_makes he]
    | false =>
      have hsilent : tells e = none := by
        by_contra htells
        exact absurd (hmakes e htells) (by simp [he])
      rw [since_of_not_makes he, ih, last_cons, hsilent, Option.or_none]

/-- An event that neither makes the cell nor says anything changes nothing. -/
theorem hear_of_silent {e : α} (hmakes : makes e = false) (htells : tells e = none)
    (cell : Option β) : hear makes tells default cell e = cell := by
  cases cell with
  | none => rw [hear, hmakes, if_neg Bool.false_ne_true]
  | some b => rw [hear, htells, Option.getD_none]

/-- Events that neither make the cell nor say anything change nothing. -/
theorem foldl_hear_of_silent {events : List α}
    (hsilent : ∀ e ∈ events, makes e = false ∧ tells e = none) (cell : Option β) :
    events.foldl (hear makes tells default) cell = cell := by
  induction events with
  | nil => rfl
  | cons e rest ih =>
    obtain ⟨hmakes, htells⟩ := hsilent e List.mem_cons_self
    rw [List.foldl_cons, hear_of_silent hmakes htells]
    exact ih fun e' he' => hsilent e' (List.mem_cons_of_mem e he')

/-- A cell holds what the events said last, or what it held before. -/
private theorem foldl_hear_some (b : β) (events : List α) :
    events.foldl (hear makes tells default) (some b) = some ((last tells events).getD b) := by
  induction events using List.reverseRecOn with
  | nil => rfl
  | append_singleton events e ih =>
    rw [List.foldl_append, ih, List.foldl_cons, List.foldl_nil, hear, last_concat]
    cases tells e with
    | none => rfl
    | some b' => rfl

/-- What a cell holds at the end of a history. -/
theorem foldl_hear (events : List α) :
    events.foldl (hear makes tells default) none =
      if events.any makes then some ((last tells (since makes events)).getD default) else none := by
  induction events with
  | nil => rfl
  | cons e rest ih =>
    cases he : makes e with
    | false =>
      rw [List.foldl_cons, hear, he, if_neg Bool.false_ne_true, ih, List.any_cons, he,
        Bool.false_or, since_of_not_makes he]
    | true =>
      rw [List.foldl_cons, hear, he, if_pos rfl, foldl_hear_some, List.any_cons, he, Bool.true_or,
        if_pos rfl, since_of_makes he, last_cons]
      congr 1
      cases last tells rest with
      | none => rfl
      | some b => rfl

end Library.History
