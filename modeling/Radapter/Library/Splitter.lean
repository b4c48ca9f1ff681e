import Mathlib.Data.List.Basic

/-!
# Splitting items off a growing sequence

A receiver keeps a buffer, appends what arrives and removes complete items from its front until
none is left. This file develops that pattern for an arbitrary way to split one item off. When
more input never changes an item that was already complete, the items found and the rest that
stays do not depend on how the input was cut (`Splitter.drain_append`).

The second half relates a concrete loop, which may run forever, to such a splitter.
-/

namespace Library

variable {α β σ : Type*}

/-- A way to split one complete item off the front of a sequence. -/
structure Splitter (α β : Type*) where
  /-- The first complete item and what follows it. -/
  split : List α → Option (β × List α)
  /-- An item takes up some of the sequence. -/
  shorter : ∀ {xs b rest}, split xs = some (b, rest) → rest.length < xs.length
  /-- A complete item stays complete when more input follows. -/
  stable : ∀ {xs b rest} (ys : List α), split xs = some (b, rest) →
    split (xs ++ ys) = some (b, rest ++ ys)

namespace Splitter

/-- Remove up to `n` items. -/
def drainUpTo (s : Splitter α β) : ℕ → List α → List β × List α
  | 0, xs => ([], xs)
  | n + 1, xs =>
      match s.split xs with
      | none => ([], xs)
      | some (b, rest) => (b :: (s.drainUpTo n rest).1, (s.drainUpTo n rest).2)

/-- Remove every complete item; no sequence has more items than elements. -/
def drain (s : Splitter α β) (xs : List α) : List β × List α := s.drainUpTo xs.length xs

/-- Any two bounds that the input does not exceed give one result. -/
private theorem drainUpTo_eq (s : Splitter α β) {m n : ℕ} {xs : List α} (hm : xs.length ≤ m)
    (hn : xs.length ≤ n) : s.drainUpTo m xs = s.drainUpTo n xs := by
  induction m generalizing n xs with
  | zero =>
    have hxs : xs = [] := List.length_eq_zero_iff.mp (by omega)
    subst hxs
    cases n with
    | zero => rfl
    | succ n =>
      cases hs : s.split [] with
      | none => simp [drainUpTo, hs]
      | some r => exact absurd (s.shorter hs) (by simp)
  | succ m ih =>
    cases hs : s.split xs with
    | none => cases n <;> simp [drainUpTo, hs]
    | some r =>
      have hlt := s.shorter hs
      cases n with
      | zero => omega
      | succ n => simp only [drainUpTo, hs, ih (show r.2.length ≤ m by omega) (n := n) (by omega)]

/-- Nothing is removed when no item is complete. -/
theorem drain_of_none (s : Splitter α β) {xs : List α} (h : s.split xs = none) :
    s.drain xs = ([], xs) := by
  unfold drain
  cases hlen : xs.length <;> simp [drainUpTo, h]

/-- A complete item is removed first, then the rest is drained. -/
theorem drain_of_some (s : Splitter α β) {xs rest : List α} {b : β}
    (h : s.split xs = some (b, rest)) : s.drain xs = (b :: (s.drain rest).1, (s.drain rest).2) := by
  have hlt := s.shorter h
  obtain ⟨n, hn⟩ : ∃ n, xs.length = n + 1 := ⟨xs.length - 1, by omega⟩
  unfold drain
  rw [hn, drainUpTo, h]
  simp only [s.drainUpTo_eq (show rest.length ≤ n by omega) (Nat.le_refl _)]

/-- Induction along the items of a sequence. -/
theorem drain_induction (s : Splitter α β) {motive : List α → Prop}
    (none : ∀ xs, s.split xs = none → motive xs)
    (some : ∀ xs b rest, s.split xs = some (b, rest) → motive rest → motive xs)
    (xs : List α) : motive xs := by
  induction hlen : xs.length using Nat.strongRecOn generalizing xs with
  | ind n ih =>
    cases hs : s.split xs with
    | none => exact none xs hs
    | some r => exact some xs r.1 r.2 hs (ih r.2.length (hlen ▸ s.shorter hs) r.2 rfl)

/-- What stays after draining holds no complete item. -/
theorem split_drain (s : Splitter α β) (xs : List α) : s.split (s.drain xs).2 = none := by
  induction xs using s.drain_induction with
  | none xs h => rw [s.drain_of_none h, h]
  | some xs b rest h ih => rw [s.drain_of_some h, ih]

/-- Draining can be interrupted: the rest goes in front of what arrives later. -/
theorem drain_append (s : Splitter α β) (xs ys : List α) :
    s.drain (xs ++ ys) =
      ((s.drain xs).1 ++ (s.drain ((s.drain xs).2 ++ ys)).1,
        (s.drain ((s.drain xs).2 ++ ys)).2) := by
  induction xs using s.drain_induction with
  | none xs h => simp [s.drain_of_none h]
  | some xs b rest h ih =>
    rw [s.drain_of_some (s.stable ys h), ih, s.drain_of_some h]
    simp

/-- Draining never adds to the sequence. -/
theorem drain_length_le (s : Splitter α β) (xs : List α) : (s.drain xs).2.length ≤ xs.length := by
  induction xs using s.drain_induction with
  | none xs h => exact Nat.le_of_eq (by rw [s.drain_of_none h])
  | some xs b rest h ih =>
    rw [s.drain_of_some h]
    exact Nat.le_trans ih (Nat.le_of_lt (s.shorter h))

/-! ## Items that end in a delimiter -/

/-- Split off what stands before the first delimiter `a`, handed on through `f`; the delimiter
itself is dropped. -/
def delimited [DecidableEq α] (a : α) (f : List α → β) : Splitter α β where
  split xs :=
    match xs.idxOf? a with
    | none => none
    | some i => some (f (xs.take i), xs.drop (i + 1))
  shorter {xs b rest} h := by
    cases hi : xs.idxOf? a with
    | none => simp [hi] at h
    | some i =>
      simp only [hi, Option.some.injEq, Prod.mk.injEq] at h
      obtain ⟨hlt, -⟩ := List.idxOf?_eq_some_iff.mp hi
      rw [← h.2, List.length_drop]
      omega
  stable {xs b rest} ys h := by
    cases hi : xs.idxOf? a with
    | none => simp [hi] at h
    | some i =>
      simp only [hi, Option.some.injEq, Prod.mk.injEq] at h
      obtain ⟨hlt, ha, hbefore⟩ := List.idxOf?_eq_some_iff.mp hi
      have hi' : (xs ++ ys).idxOf? a = some i := by
        refine List.idxOf?_eq_some_iff.mpr ⟨by simp; omega, ?_, ?_⟩
        · rw [List.getElem_append_left hlt, ha]
        · intro j hj
          rw [List.getElem_append_left (by omega)]
          exact hbefore j hj
      simp only [hi', Option.some.injEq, Prod.mk.injEq]
      rw [List.take_append_of_le_length (by omega), List.drop_append_of_le_length (by omega)]
      exact ⟨h.1, by rw [h.2]⟩

/-- A sequence up to its first delimiter splits there. -/
theorem delimited_split [DecidableEq α] (a : α) (f : List α → β) {item : List α} (h : a ∉ item)
    (rest : List α) : (delimited a f).split (item ++ a :: rest) = some (f item, rest) := by
  have hi : (item ++ a :: rest).idxOf? a = some item.length := by
    refine List.idxOf?_eq_some_iff.mpr ⟨by simp, by simp, ?_⟩
    intro j hj
    rw [List.getElem_append_left hj]
    intro hja
    exact h (hja ▸ List.getElem_mem hj)
  simp [delimited, hi]

/-- Draining hands on the items between the delimiters and keeps what follows the last one. -/
theorem delimited_drain [DecidableEq α] (a : α) (f : List α → β) (xs : List α) :
    (delimited a f).drain xs =
      ((xs.splitOn a).dropLast.map f, (xs.splitOn a).getLast (List.splitOn_ne_nil a xs)) := by
  induction hlen : xs.length using Nat.strongRecOn generalizing xs with
  | ind n ih =>
    by_cases ha : a ∈ xs
    · obtain ⟨item, rest, rfl, hitem⟩ := List.eq_append_cons_of_mem ha
      have hsplit : (item ++ a :: rest).splitOn a = item :: rest.splitOn a := by
        rw [List.splitOn_append_cons_self, List.splitOn_eq_singleton hitem, List.singleton_append]
      rw [drain_of_some _ (delimited_split a f hitem rest), ih rest.length (by simp at hlen; omega)
        rest rfl]
      simp only [hsplit]
      rw [List.dropLast_cons_of_ne_nil (List.splitOn_ne_nil a rest),
        List.getLast_cons (List.splitOn_ne_nil a rest), List.map_cons]
    · have hnone : (delimited a f).split xs = none := by
        simp [delimited, List.idxOf?_eq_none_iff.mpr ha]
      rw [drain_of_none _ hnone]
      simp [List.splitOn_eq_singleton ha]

/-- The items between the delimiters have none in them. -/
theorem not_mem_of_mem_splitOn [DecidableEq α] {a : α} {xs item : List α}
    (h : item ∈ xs.splitOn a) : a ∉ item := by
  induction xs generalizing item with
  | nil => simp_all
  | cons x xs ih =>
    rw [List.splitOn_cons_eq_if_modifyHead] at h
    split at h
    · rcases List.mem_cons.mp h with rfl | h
      · exact List.not_mem_nil
      · exact ih h
    · next hx =>
      obtain ⟨first, more, hitems⟩ := List.exists_cons_of_ne_nil (List.splitOn_ne_nil a xs)
      rw [hitems, List.modifyHead_cons] at h
      rw [hitems] at ih
      rcases List.mem_cons.mp h with rfl | h
      · intro ha
        rcases List.mem_cons.mp ha with rfl | ha
        · exact hx (beq_self_eq_true _)
        · exact ih (List.mem_cons_self ..) ha
      · exact ih (List.mem_cons_of_mem _ h)

end Splitter

/-! ## Loops that may run forever -/

/-- Run a loop body until it stops, for at most `n` rounds; `none` when it did not stop. -/
def loop (body : σ → Option (β × σ)) : ℕ → σ → Option (List β × σ)
  | 0, _ => none
  | n + 1, s =>
      match body s with
      | none => some ([], s)
      | some (b, s') => (loop body n s').map (fun r => (b :: r.1, r.2))

/-- The loop stops after finitely many rounds. -/
def Stops (body : σ → Option (β × σ)) (s : σ) : Prop := ∃ n, (loop body n s).isSome = true

/-- The states in which the loop body is entered. -/
inductive Enters (body : σ → Option (β × σ)) (s : σ) : σ → Prop
  | start : Enters body s s
  | next {t u : σ} {b : β} : Enters body s t → body t = some (b, u) → Enters body s u

/-- More rounds do not change the result of a loop that has stopped. -/
theorem loop_mono {body : σ → Option (β × σ)} {m n : ℕ} {s : σ} {r : List β × σ}
    (hmn : m ≤ n) (h : loop body m s = some r) : loop body n s = some r := by
  induction m generalizing n s r with
  | zero => cases h
  | succ m ih =>
    obtain ⟨n, rfl⟩ : ∃ k, n = k + 1 := ⟨n - 1, by omega⟩
    cases hs : body s with
    | none => simpa only [loop, hs] using h
    | some q =>
      simp only [loop, hs, Option.map_eq_some_iff] at h ⊢
      obtain ⟨r', hr', rfl⟩ := h
      exact ⟨r', ih (by omega) hr', rfl⟩

/-- If every round shrinks the state or changes nothing, a loop that stops at all stops within
one round per unit of size and one more: a round that changes nothing repeats forever. -/
theorem loop_eq_of_shrinks_or_stays {body : σ → Option (β × σ)} (size : σ → ℕ)
    (hbody : ∀ s b t, body s = some (b, t) → size t < size s ∨ t = s)
    {n : ℕ} {s : σ} {r : List β × σ} (h : loop body n s = some r) :
    loop body (size s + 1) s = some r := by
  induction n generalizing s r with
  | zero => cases h
  | succ n ih =>
    cases hs : body s with
    | none => simpa only [loop, hs] using h
    | some q =>
      have hround := h
      simp only [loop, hs, Option.map_eq_some_iff] at hround
      obtain ⟨r', hr', rfl⟩ := hround
      rcases hbody s q.1 q.2 hs with hlt | hstays
      · simp only [loop, hs, Option.map_eq_some_iff]
        exact ⟨r', loop_mono (by omega) (ih hr'), rfl⟩
      · rw [hstays] at hr'
        have hagain := loop_mono (Nat.le_succ n) hr'
        rw [h] at hagain
        have hlist := congrArg List.length (congrArg Prod.fst (Option.some.inj hagain))
        simp at hlist

/-- What is entered after the first round is entered. -/
private theorem Enters.head {body : σ → Option (β × σ)} {s t u : σ} {b : β}
    (hs : body s = some (b, t)) (h : Enters body t u) : Enters body s u := by
  induction h with
  | start => exact .next .start hs
  | next _ hstep ih => exact .next ih hstep

/-- A loop stops when every round it enters shrinks the state. -/
theorem stops_of_shrinks {body : σ → Option (β × σ)} (size : σ → ℕ) {s : σ}
    (h : ∀ t, Enters body s t → ∀ b u, body t = some (b, u) → size u < size t) :
    Stops body s := by
  induction hsize : size s using Nat.strongRecOn generalizing s with
  | ind k ih =>
    cases hs : body s with
    | none => exact ⟨1, by simp [loop, hs]⟩
    | some q =>
      have hlt := h s .start q.1 q.2 hs
      obtain ⟨n, hn⟩ := ih (size q.2) (hsize ▸ hlt) (fun t ht => h t (ht.head hs)) rfl
      refine ⟨n + 1, ?_⟩
      simpa only [loop, hs, Option.isSome_map] using hn

/-- A body that follows a splitter wherever it is entered drains the sequence. -/
theorem loop_eq_drain (s : Splitter α β) (body : List α → Option (β × List α))
    {P : List α → Prop} (hbody : ∀ xs, P xs → body xs = s.split xs)
    (hnext : ∀ xs b rest, P xs → s.split xs = some (b, rest) → P rest)
    {xs : List α} (hxs : P xs) : loop body (xs.length + 1) xs = some (s.drain xs) := by
  suffices h : ∀ n, xs.length < n → loop body n xs = some (s.drain xs) from h _ (Nat.lt_succ_self _)
  induction xs using s.drain_induction with
  | none xs h =>
    rintro (_ | n) hn
    · omega
    · rw [loop, hbody xs hxs, h, s.drain_of_none h]
  | some xs b rest h ih =>
    have hlt := s.shorter h
    rintro (_ | n) hn
    · omega
    · rw [loop, hbody xs hxs, h, s.drain_of_some h]
      simp only [ih (hnext xs b rest hxs h) n (by omega), Option.map_some]

end Library
