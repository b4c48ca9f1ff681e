import Mathlib.Data.List.Basic
import Mathlib.Data.List.Forall2
import Mathlib.Data.List.Nodup

/-!
# Association lists with distinct keys

A finite map as a list of pairs, read with `List.lookup`. The order of the pairs is the order in
which the map is traversed. Storing a value under a key that is there keeps the order; what is
found under a key does not depend on it.
-/

namespace Library.Assoc

variable {κ β : Type*}

/-- Every key stands once. -/
def Distinct (entries : List (κ × β)) : Prop := (entries.map Prod.fst).Nodup

section Update

variable [DecidableEq κ]

/-- Store a value: in place under a key that is there, else at the end. -/
def put (k : κ) (v : β) : List (κ × β) → List (κ × β)
  | [] => [(k, v)]
  | e :: rest => if e.1 = k then (k, v) :: rest else e :: put k v rest

/-- Remove a key. -/
def erase (k : κ) (entries : List (κ × β)) : List (κ × β) := entries.filter (fun e => e.1 ≠ k)

/-- A new key goes to the end. -/
theorem put_of_not_mem {k : κ} {entries : List (κ × β)} (h : k ∉ entries.map Prod.fst) (v : β) :
    put k v entries = entries ++ [(k, v)] := by
  induction entries with
  | nil => rfl
  | cons e rest ih =>
    rw [List.map_cons, List.mem_cons, not_or] at h
    rw [put, if_neg (Ne.symm h.1), ih h.2, List.cons_append]

/-- To remove a key that is not there changes nothing. -/
theorem erase_of_not_mem {k : κ} {entries : List (κ × β)} (h : k ∉ entries.map Prod.fst) :
    erase k entries = entries := by
  rw [erase, List.filter_eq_self]
  intro e he
  rw [decide_eq_true_eq]
  rintro rfl
  exact h (List.mem_map_of_mem he)

/-- Storing a value keeps the keys distinct. -/
theorem distinct_put (k : κ) (v : β) {entries : List (κ × β)}
    (hdistinct : Distinct entries) : Distinct (put k v entries) := by
  have hkeys : ∀ entries : List (κ × β), ∀ j ∈ (put k v entries).map Prod.fst,
      j = k ∨ j ∈ entries.map Prod.fst := by
    intro entries
    induction entries with
    | nil => simp [put]
    | cons e rest ih =>
      intro j hj
      rw [put] at hj
      split at hj
      · rcases List.mem_cons.mp hj with rfl | hj
        · exact Or.inl rfl
        · exact Or.inr (List.mem_cons_of_mem _ hj)
      · rcases List.mem_cons.mp hj with rfl | hj
        · exact Or.inr (List.mem_cons_self ..)
        · exact (ih j hj).imp_right (List.mem_cons_of_mem _)
  induction entries with
  | nil => simp [put, Distinct]
  | cons e rest ih =>
    obtain ⟨hfirst, hrest⟩ := List.nodup_cons.mp hdistinct
    rw [put]
    split
    · next he => exact List.nodup_cons.mpr ⟨he ▸ hfirst, hrest⟩
    · next he =>
      refine List.nodup_cons.mpr ⟨?_, ih hrest⟩
      intro hmem
      rcases hkeys rest e.1 hmem with hk | hk
      · exact he hk
      · exact hfirst hk

/-- Removing a key keeps the keys distinct. -/
theorem distinct_erase (k : κ) {entries : List (κ × β)}
    (hdistinct : Distinct entries) : Distinct (erase k entries) :=
  hdistinct.sublist (List.filter_sublist.map Prod.fst)

end Update

/-- Values that are changed or dropped one by one keep the keys distinct. -/
theorem distinct_filterMap {γ : Type*} (f : β → Option γ) {entries : List (κ × β)}
    (hdistinct : Distinct entries) :
    Distinct (entries.filterMap (fun e => (f e.2).map (e.1, ·))) := by
  have hsub : ((entries.filterMap (fun e => (f e.2).map (e.1, ·))).map Prod.fst).Sublist
      (entries.map Prod.fst) := by
    induction entries with
    | nil => exact .slnil
    | cons e rest ih =>
      have hrest := ih (List.nodup_cons.mp hdistinct).2
      rw [List.filterMap_cons, List.map_cons]
      cases f e.2 with
      | none => exact hrest.cons _
      | some v => exact hrest.cons_cons _
  exact hdistinct.sublist hsub

/-! ## Related values -/

section Related

variable {γ : Type*} {R : β → γ → Prop}

/-- The same keys in the same order, and under each of them values that are related. -/
def Related (R : β → γ → Prop) : List (κ × β) → List (κ × γ) → Prop :=
  List.Forall₂ (fun e f => e.1 = f.1 ∧ R e.2 f.2)

/-- Related entries have the same keys. -/
theorem Related.keys {entries : List (κ × β)} {other : List (κ × γ)} (h : Related R entries other) :
    entries.map Prod.fst = other.map Prod.fst := by
  induction h with
  | nil => rfl
  | cons hfirst _ ih => rw [List.map_cons, List.map_cons, hfirst.1, ih]

/-- Values that are related in one way are related in another that it implies. -/
theorem Related.of_mem {S : β → γ → Prop} {entries : List (κ × β)} {other : List (κ × γ)}
    (h : Related R entries other) (himp : ∀ e ∈ entries, ∀ v, R e.2 v → S e.2 v) :
    Related S entries other := by
  induction h with
  | nil => exact .nil
  | cons hfirst _ ih =>
    obtain ⟨hhead, htail⟩ := List.forall_mem_cons.mp himp
    exact .cons ⟨hfirst.1, hhead _ hfirst.2⟩ (ih htail)

/-- Every entry on the left has one on the right under its key. -/
theorem Related.exists_right {entries : List (κ × β)} {other : List (κ × γ)} {e : κ × β}
    (h : Related R entries other) (he : e ∈ entries) : ∃ f ∈ other, e.1 = f.1 ∧ R e.2 f.2 := by
  induction h with
  | nil => cases he
  | cons hfirst _ ih =>
    rcases List.mem_cons.mp he with rfl | he
    · exact ⟨_, List.mem_cons_self, hfirst⟩
    · obtain ⟨f, hf, hef⟩ := ih he
      exact ⟨f, List.mem_cons_of_mem _ hf, hef⟩

/-- Every entry on the right has one on the left under its key. -/
theorem Related.exists_left {entries : List (κ × β)} {other : List (κ × γ)} {f : κ × γ}
    (h : Related R entries other) (hf : f ∈ other) : ∃ e ∈ entries, e.1 = f.1 ∧ R e.2 f.2 := by
  induction h with
  | nil => cases hf
  | cons hfirst _ ih =>
    rcases List.mem_cons.mp hf with rfl | hf
    · exact ⟨_, List.mem_cons_self, hfirst⟩
    · obtain ⟨e, he, hef⟩ := ih hf
      exact ⟨e, List.mem_cons_of_mem _ he, hef⟩

/-- Values that are related to one thing each are the only ones that are related. -/
theorem Related.unique {S : β → γ → Prop} {entries entries' : List (κ × β)}
    {other : List (κ × γ)} (h : Related R entries other) (h' : Related S entries' other)
    (hunique : ∀ e ∈ entries, ∀ w, R e.2 w → ∀ v, S v w → e.2 = v) : entries = entries' := by
  induction h generalizing entries' with
  | nil => exact (List.forall₂_nil_right_iff.mp h').symm
  | @cons e f rest others hfirst _ ih =>
    obtain ⟨hhead, htail⟩ := List.forall_mem_cons.mp hunique
    obtain ⟨e', rest', hfirst', hrest', rfl⟩ := List.forall₂_cons_right_iff.mp h'
    have hsame : e = e' :=
      Prod.ext (hfirst.1.trans hfirst'.1.symm) (hhead _ hfirst.2 _ hfirst'.2)
    rw [hsame, ih hrest' htail]

/-- Lists of values are related if there is a value for each. -/
theorem exists_related {other : List (κ × γ)} (h : ∀ f ∈ other, ∃ v, R v f.2) :
    ∃ entries, Related R entries other := by
  induction other with
  | nil => exact ⟨[], .nil⟩
  | cons f rest ih =>
    obtain ⟨hhead, htail⟩ := List.forall_mem_cons.mp h
    obtain ⟨v, hv⟩ := hhead
    obtain ⟨entries, hrest⟩ := ih htail
    exact ⟨(f.1, v) :: entries, .cons ⟨rfl, hv⟩ hrest⟩

/-- What is found under a key is related, or on neither side. -/
theorem Related.lookup [BEq κ] {entries : List (κ × β)} {other : List (κ × γ)}
    (h : Related R entries other) (k : κ) : Option.Rel R (entries.lookup k) (other.lookup k) := by
  induction h with
  | nil => exact .none
  | cons hfirst _ ih =>
    rw [List.lookup_cons, List.lookup_cons, hfirst.1]
    split
    · exact .some hfirst.2
    · exact ih

/-- Storing related values under one key keeps the lists related. -/
theorem Related.put [DecidableEq κ] {entries : List (κ × β)} {other : List (κ × γ)}
    (h : Related R entries other) (k : κ) {v : β} {w : γ} (hv : R v w) :
    Related R (put k v entries) (put k w other) := by
  induction h with
  | nil => exact .cons ⟨rfl, hv⟩ .nil
  | cons hfirst hrest ih =>
    rw [Assoc.put, Assoc.put, hfirst.1]
    split
    · exact .cons ⟨rfl, hv⟩ hrest
    · exact .cons hfirst ih

end Related

/-! ## Lookups -/

variable [BEq κ] [LawfulBEq κ]

/-- What was stored is found. -/
theorem lookup_put_self [DecidableEq κ] (k : κ) (v : β) (entries : List (κ × β)) :
    (put k v entries).lookup k = some v := by
  induction entries with
  | nil => simp [put]
  | cons e rest ih =>
    rw [put]
    split
    · simp
    · next hne =>
      have hk : (k == e.1) = false := by simpa using Ne.symm hne
      rw [List.lookup_cons, hk]
      exact ih

/-- Other keys keep their values. -/
theorem lookup_put_ne [DecidableEq κ] {k j : κ} (h : j ≠ k) (v : β) (entries : List (κ × β)) :
    (put k v entries).lookup j = entries.lookup j := by
  have hjk : (j == k) = false := by simpa using h
  induction entries with
  | nil => simp [put, h]
  | cons e rest ih =>
    rw [put]
    split
    · next he =>
      rw [List.lookup_cons, List.lookup_cons, he, hjk]
    · rw [List.lookup_cons, List.lookup_cons, ih]

/-- What is found after an entry was put is that entry, or was found before. -/
theorem of_lookup_put [DecidableEq κ] {k j : κ} {v x : β} {entries : List (κ × β)}
    (h : (put k v entries).lookup j = some x) :
    (j = k ∧ x = v) ∨ (j ≠ k ∧ entries.lookup j = some x) := by
  by_cases hj : j = k
  · subst hj
    rw [lookup_put_self] at h
    exact .inl ⟨rfl, (Option.some.inj h).symm⟩
  · rw [lookup_put_ne hj] at h
    exact .inr ⟨hj, h⟩

/-- A removed key is not found. -/
theorem lookup_erase_self [DecidableEq κ] (k : κ) (entries : List (κ × β)) :
    (erase k entries).lookup k = none := by
  rw [List.lookup_eq_none_iff]
  intro e he
  have hne := (List.mem_filter.mp he).2
  simpa using Ne.symm (by simpa using hne)

/-- The other keys are. -/
theorem lookup_erase_ne [DecidableEq κ] {k j : κ} (h : j ≠ k) (entries : List (κ × β)) :
    (erase k entries).lookup j = entries.lookup j := by
  induction entries with
  | nil => rfl
  | cons e rest ih =>
    rw [erase, List.filter_cons, List.lookup_cons]
    by_cases he : e.1 = k
    · have hj : (j == e.1) = false := by rw [he]; simpa using h
      rw [if_neg (by simpa using he), hj]
      exact ih
    · rw [if_pos (by simpa using he), List.lookup_cons]
      rw [show List.lookup j (List.filter _ rest) = _ from ih]

/-- A key that is not there is not found. -/
theorem lookup_eq_none_of_not_mem {k : κ} {entries : List (κ × β)}
    (h : k ∉ entries.map Prod.fst) : entries.lookup k = none := by
  rw [List.lookup_eq_none_iff]
  intro e he
  rw [bne_iff_ne]
  rintro rfl
  exact h (List.mem_map_of_mem he)

/-- A key is missing if it is neither that of the first entry nor one of the others. -/
theorem lookup_cons_eq_none {k j : κ} {v : β} {entries : List (κ × β)} :
    ((k, v) :: entries).lookup j = none ↔ j ≠ k ∧ entries.lookup j = none := by
  rw [List.lookup_eq_none_iff, List.lookup_eq_none_iff, List.forall_mem_cons, bne_iff_ne]

/-- Removing a key that is not found changes nothing. -/
theorem erase_of_lookup [DecidableEq κ] {k : κ} {entries : List (κ × β)}
    (h : entries.lookup k = none) : erase k entries = entries := by
  apply erase_of_not_mem
  intro hmem
  obtain ⟨e, he, rfl⟩ := List.mem_map.mp hmem
  exact bne_iff_ne.mp (List.lookup_eq_none_iff.mp h e he) rfl

/-- What is found under a key is stored there. -/
theorem mem_of_lookup {k : κ} {v : β} {entries : List (κ × β)} (h : entries.lookup k = some v) :
    (k, v) ∈ entries := by
  obtain ⟨before, after, rfl, -⟩ := List.lookup_eq_some_iff.mp h
  simp

/-- With distinct keys, what is stored under a key is found there. -/
theorem lookup_of_mem {k : κ} {v : β} {entries : List (κ × β)} (hdistinct : Distinct entries)
    (h : (k, v) ∈ entries) : entries.lookup k = some v := by
  induction entries with
  | nil => cases h
  | cons e rest ih =>
    obtain ⟨hfirst, hrest⟩ := List.nodup_cons.mp hdistinct
    rw [List.lookup_cons]
    rcases List.mem_cons.mp h with rfl | hmem
    · simp
    · have hne : (k == e.1) = false := by
        rw [beq_eq_false_iff_ne]
        rintro rfl
        exact hfirst (List.mem_map.mpr ⟨(e.1, v), hmem, rfl⟩)
      rw [hne]
      exact ih hrest hmem

/-- With distinct keys a value is found exactly if its entry is there. -/
theorem lookup_eq_some_iff_mem {k : κ} {v : β} {entries : List (κ × β)}
    (hdistinct : Distinct entries) : entries.lookup k = some v ↔ (k, v) ∈ entries :=
  ⟨mem_of_lookup, lookup_of_mem hdistinct⟩

/-- The order of the pairs does not matter for what is found. -/
theorem lookup_perm {entries other : List (κ × β)} (hdistinct : Distinct entries)
    (h : entries.Perm other) (k : κ) : other.lookup k = entries.lookup k := by
  have hother : Distinct other := (h.map Prod.fst).nodup_iff.mp hdistinct
  refine Option.ext fun v => ?_
  rw [lookup_eq_some_iff_mem hother, lookup_eq_some_iff_mem hdistinct]
  exact h.symm.mem_iff

/-- Storing what is found changes nothing. -/
theorem put_of_lookup [DecidableEq κ] {k : κ} {v : β} {entries : List (κ × β)}
    (h : entries.lookup k = some v) : put k v entries = entries := by
  induction entries with
  | nil => cases h
  | cons e rest ih =>
    rw [put]
    split
    · next he =>
      rw [List.lookup_cons, he, beq_self_eq_true] at h
      rw [← he, ← Option.some.inj h]
    · next he =>
      have hk : (k == e.1) = false := by simpa using Ne.symm he
      rw [List.lookup_cons, hk] at h
      rw [ih h]

/-- Values that are changed or dropped one by one. -/
theorem lookup_filterMap {γ : Type*} (f : β → Option γ) {entries : List (κ × β)}
    (hdistinct : Distinct entries) (k : κ) :
    (entries.filterMap (fun e => (f e.2).map (e.1, ·))).lookup k = (entries.lookup k).bind f := by
  induction entries with
  | nil => rfl
  | cons e rest ih =>
    obtain ⟨hfirst, hrest⟩ := List.nodup_cons.mp hdistinct
    rw [List.filterMap_cons, List.lookup_cons]
    by_cases hk : k = e.1
    · subst hk
      rw [beq_self_eq_true]
      cases hv : f e.2 with
      | none =>
        have hrestKey : rest.lookup e.1 = none := by
          rw [List.lookup_eq_none_iff]
          intro e' he'
          rw [bne_iff_ne]
          intro heq
          exact hfirst (heq ▸ List.mem_map_of_mem he')
        simp only [Option.map_none, hv, Option.bind_some, ih hrest, hrestKey, Option.bind_none]
      | some v => simp only [Option.map_some, List.lookup_cons, beq_self_eq_true, hv,
          Option.bind_some]
    · have hne : (k == e.1) = false := by simpa using hk
      rw [hne]
      cases hv : f e.2 with
      | none => simp only [Option.map_none, ih hrest]
      | some v => simp only [Option.map_some, List.lookup_cons, hne, ih hrest]

/-- Values that are changed one by one. -/
theorem lookup_mapKeyed {γ : Type*} (f : κ → β → γ) (entries : List (κ × β)) (k : κ) :
    (entries.map (fun e => (e.1, f e.1 e.2))).lookup k = (entries.lookup k).map (f k) := by
  induction entries with
  | nil => rfl
  | cons e rest ih =>
    rw [List.map_cons, List.lookup_cons, List.lookup_cons]
    cases hk : k == e.1 with
    | true =>
      rw [← eq_of_beq hk]
      rfl
    | false => exact ih

/-- What is found after a map of the values is mapped. -/
theorem lookup_map {γ : Type*} (f : β → γ) (entries : List (κ × β)) (k : κ) :
    (entries.map (fun e => (e.1, f e.2))).lookup k = (entries.lookup k).map f :=
  lookup_mapKeyed (fun _ => f) entries k

/-- A new key at the end keeps the keys distinct. -/
theorem distinct_concat {k : κ} {entries : List (κ × β)} (hdistinct : Distinct entries)
    (hk : entries.lookup k = none) (v : β) : Distinct (entries ++ [(k, v)]) := by
  rw [Distinct, List.map_append, List.nodup_append]
  refine ⟨hdistinct, by simp, ?_⟩
  intro j hj j' hj'
  obtain ⟨e, he, rfl⟩ := List.mem_map.mp hj
  have hj' : j' = k := by simpa using hj'
  have hne := List.lookup_eq_none_iff.mp hk e he
  rw [hj']
  exact fun h => bne_iff_ne.mp hne h.symm

/-- Looking behind a new key at the end. -/
theorem lookup_concat [DecidableEq κ] {k : κ} {entries : List (κ × β)}
    (hk : entries.lookup k = none) (v : β) (j : κ) :
    (entries ++ [(k, v)]).lookup j = if j = k then some v else entries.lookup j := by
  rw [List.lookup_append]
  split
  · next h => simp [h, hk]
  · next h =>
    have hne : (j == k) = false := by simpa using h
    simp [List.lookup_cons, hne]

end Library.Assoc
