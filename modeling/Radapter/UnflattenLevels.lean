import Radapter.UnflattenRebuild

/-!
# Rebuilding one level of a tree

The trees considered here have no empty containers, and their keys can be named in a path. Their
paths are read as they were written when no key starts with a byte-order mark, the size of every
key survives the conversion to `int`, and no list has more than `2 ^ 31` items. This file shows
what becomes of a map or a list level of such a tree.
-/

namespace Radapter

mutual

/-- A tree without empty containers whose keys can be named in a path. -/
def Rebuildable : QVariant → Prop
  | .leaf _ => True
  | .list items => items ≠ [] ∧ RebuildableList items
  | .map entries =>
      entries ≠ [] ∧ (entries.map Prod.fst).Pairwise (· < ·) ∧ RebuildableMap entries

/-- The condition on the items of a list. -/
def RebuildableList : List QVariant → Prop
  | [] => True
  | v :: rest => Rebuildable v ∧ RebuildableList rest

/-- The condition on the entries of a map. -/
def RebuildableMap : List (QString × QVariant) → Prop
  | [] => True
  | (k, v) :: rest => PathKey k ∧ Rebuildable v ∧ RebuildableMap rest

end

mutual

/-- The paths of a tree are read as they were written. -/
def PathsRead : QVariant → Prop
  | .leaf _ => True
  | .list items => items.length ≤ 2 ^ 31 ∧ PathsReadList items
  | .map entries => PathsReadMap entries

/-- The condition on the items of a list. -/
def PathsReadList : List QVariant → Prop
  | [] => True
  | v :: rest => PathsRead v ∧ PathsReadList rest

/-- The condition on the entries of a map. A key is the last part of a path when its value is a
leaf. -/
def PathsReadMap : List (QString × QVariant) → Prop
  | [] => True
  | (k, v) :: rest =>
      KeyReads k (v.isContainer = false) ∧ PathsRead v ∧ PathsReadMap rest

end

/-- A map can be rebuilt if a path can name its keys and each value can be rebuilt. -/
theorem rebuildableMap_iff {entries : List (QString × QVariant)} :
    RebuildableMap entries ↔ ∀ e ∈ entries, PathKey e.1 ∧ Rebuildable e.2 := by
  induction entries with
  | nil => simp [RebuildableMap]
  | cons e entries ih => simp [RebuildableMap, ih, and_assoc]

/-- A list can be rebuilt if each item can. -/
theorem rebuildableList_iff {items : List QVariant} :
    RebuildableList items ↔ ∀ v ∈ items, Rebuildable v := by
  induction items with
  | nil => simp [RebuildableList]
  | cons v items ih => simp [RebuildableList, ih]

/-- The paths of a map are read if each key is, with the paths of its value. -/
theorem pathsReadMap_iff {entries : List (QString × QVariant)} :
    PathsReadMap entries ↔
      (∀ e ∈ entries, KeyReads e.1 (e.2.isContainer = false)) ∧ ∀ e ∈ entries, PathsRead e.2 := by
  induction entries with
  | nil => simp [PathsReadMap]
  | cons e entries ih =>
    simp only [PathsReadMap, ih, List.forall_mem_cons]
    tauto

/-- The paths of a list are read if those of each item are. -/
theorem pathsReadList_iff {items : List QVariant} :
    PathsReadList items ↔ ∀ v ∈ items, PathsRead v := by
  induction items with
  | nil => simp [PathsReadList]
  | cons v items ih => simp [PathsReadList, ih]

mutual

/-- `QMap` keeps the keys in order. -/
theorem Rebuildable.ascending {v : QVariant} (h : Rebuildable v) : v.Ascending := by
  cases v with
  | leaf s => trivial
  | list items => exact RebuildableList.ascending h.2
  | map entries => exact ⟨h.2.1, RebuildableMap.ascending h.2.2⟩

/-- What can be rebuilt is in order; induction on the items. -/
theorem RebuildableList.ascending {items : List QVariant} (h : RebuildableList items) :
    QVariant.AscendingList items := by
  cases items with
  | nil => trivial
  | cons v rest => exact ⟨h.1.ascending, RebuildableList.ascending h.2⟩

/-- So it is below a map. -/
theorem RebuildableMap.ascending {entries : List (QString × QVariant)}
    (h : RebuildableMap entries) : QVariant.AscendingMap entries := by
  cases entries with
  | nil => trivial
  | cons e rest => exact ⟨h.2.1.ascending, RebuildableMap.ascending h.2.2⟩

end

/-- A tree without empty containers has a leaf. -/
theorem places_ne_nil {v : QVariant} (h : Rebuildable v) : places v ≠ [] := by
  cases v with
  | leaf s => simp [places]
  | list items =>
    cases items with
    | nil => exact absurd rfl h.1
    | cons v rest => simp [places, placesList, places_ne_nil h.2.1]
  | map entries =>
    cases entries with
    | nil => exact absurd rfl h.1
    | cons e rest => simp [places, placesMap, places_ne_nil h.2.2.2.1]

/-- The path to a leaf of a tree is empty when the tree is that leaf. -/
theorem path_nil_iff {v : QVariant} {σ : List Selector} {s : Scalar} (h : (σ, s) ∈ places v) :
    σ.map Selector.text = [] ↔ v.isContainer = false := by
  cases v with
  | leaf t =>
    have hσ : σ = [] := by simp [places] at h; exact h.1
    simp [hσ, QVariant.isContainer]
  | list items =>
    obtain ⟨i, w, τ, -, -, he⟩ := mem_placesList.mp h
    simp only at he
    simp [he, QVariant.isContainer]
  | map entries =>
    obtain ⟨k, w, τ, -, -, he⟩ := mem_placesMap.mp h
    simp only at he
    simp [he, QVariant.isContainer]

/-! ## One level -/

/-- What a map becomes when its keys are read back. -/
theorem fill_map {entries : List (QString × QVariant)} (h : RebuildableMap entries)
    (hread : ∀ e ∈ entries, KeyReads e.1 (e.2.isContainer = false))
    {done : List (QString × QVariant)}
    (hkeys : ((done ++ entries).map Prod.fst).Pairwise (· < ·)) :
    fill (.map done) (placesMap entries) =
      .map (done ++ entries.map (fun e => (e.1, fill .invalid (places e.2)))) := by
  induction entries generalizing done with
  | nil => simp [placesMap]
  | cons e entries ih =>
    obtain ⟨k, v⟩ := e
    have hbelow : fill (.map done) ((places v).map (fun e => (.key k :: e.1, e.2))) =
        .map (done ++ [(k, fill .invalid (places v))]) := by
      rw [fill_below (places_ne_nil h.2.1)]
      · rw [put, entriesOf, updateEntry_last]
        intro e he
        rw [List.map_append, List.pairwise_append] at hkeys
        exact hkeys.2.2 e.1 (List.mem_map_of_mem he) k (by simp)
      · intro e he
        have hlast := path_nil_iff (σ := e.1) (s := e.2) he
        have hkey : KeyReads k (e.1.map Selector.text = []) := by
          rw [hlast]
          exact hread (k, v) (by simp)
        rw [reread_cons, Selector.text, selector_toStdString h.1, partKey_of_reads h.1 hkey]
    rw [placesMap, fill_append, hbelow, ih h.2.2 (fun e he => hread e (List.mem_cons_of_mem _ he))]
    · simp
    · simpa using hkeys

/-- What a list becomes when its indices are read back. -/
theorem fill_list {items : List QVariant} (h : RebuildableList items) {done : List QVariant}
    (hlen : done.length + items.length ≤ 2 ^ 31) :
    fill (.list done) (placesList done.length items) =
      .list (done ++ items.map (fun v => fill .invalid (places v))) := by
  induction items generalizing done with
  | nil => simp [placesList]
  | cons v items ih =>
    rw [List.length_cons] at hlen
    have hbelow : fill (.list done) ((places v).map (fun e => (.index done.length :: e.1, e.2))) =
        .list (done ++ [fill .invalid (places v)]) := by
      rw [fill_below (places_ne_nil h.1)]
      · rw [put, itemsOf, updateItem_last]
      · intro e _
        rw [reread_cons, Selector.text, selector_indexName (by omega)]
    have hrest := @ih h.2 (done ++ [fill .invalid (places v)])
      (by rw [List.length_append, List.length_singleton]; omega)
    rw [List.length_append, List.length_singleton] at hrest
    rw [placesList, fill_append, hbelow, hrest]
    simp

/-- A path below a map is read as one that starts with a key. -/
theorem reread_of_mem_placesMap {entries : List (QString × QVariant)} (h : RebuildableMap entries)
    {e : List Selector × Scalar} (he : e ∈ placesMap entries) :
    ∃ k v σ, (k, v) ∈ entries ∧ (σ, e.2) ∈ places v ∧
      reread e.1 = .key (partKey (toStdString k) (σ.map Selector.text)) :: reread σ := by
  obtain ⟨k, v, σ, hmem, hσ, hpath⟩ := mem_placesMap.mp he
  refine ⟨k, v, σ, hmem, hσ, ?_⟩
  rw [hpath, reread_cons, Selector.text,
    selector_toStdString (rebuildableMap_iff.mp h (k, v) hmem).1]

/-- A map is built from an invalid value: the first write makes it one. -/
theorem fill_entries {entries : List (QString × QVariant)} (hne : entries ≠ [])
    (hkeys : (entries.map Prod.fst).Pairwise (· < ·)) (h : RebuildableMap entries)
    (hread : ∀ e ∈ entries, KeyReads e.1 (e.2.isContainer = false)) :
    fill .invalid (placesMap entries) =
      .map (entries.map (fun e => (e.1, fill .invalid (places e.2)))) := by
  have hmap := @fill_map entries h hread [] (by simpa using hkeys)
  rw [List.nil_append] at hmap
  rw [← hmap]
  obtain ⟨⟨k, v⟩, rest, rfl⟩ := List.exists_cons_of_ne_nil hne
  obtain ⟨e, es, hes⟩ := List.exists_cons_of_ne_nil
    (show placesMap ((k, v) :: rest) ≠ [] by simp [placesMap, places_ne_nil h.2.1])
  obtain ⟨_, _, _, _, _, hfirst⟩ := reread_of_mem_placesMap h (e := e) (by rw [hes]; simp)
  rw [hes, fill_cons, fill_cons, hfirst]
  rfl

/-- A list is built from an invalid value: the first write makes it one. -/
theorem fill_items {items : List QVariant} (hne : items ≠ []) (h : RebuildableList items)
    (hlen : items.length ≤ 2 ^ 31) :
    fill .invalid (placesList 0 items) =
      .list (items.map (fun v => fill .invalid (places v))) := by
  have hlist : fill (.list []) (placesList 0 items) = _ :=
    @fill_list items h [] (by simpa using hlen)
  rw [List.nil_append] at hlist
  rw [← hlist]
  obtain ⟨v, rest, rfl⟩ := List.exists_cons_of_ne_nil hne
  obtain ⟨e, es, hes⟩ := List.exists_cons_of_ne_nil (places_ne_nil h.1)
  rw [placesList, hes, List.map_cons, List.cons_append, fill_cons, fill_cons, reread_cons,
    Selector.text, selector_indexName (by decide)]
  rfl

/-- The keys of a map have a longest one. -/
private theorem exists_key_bound (entries : List (QString × QVariant)) :
    ∃ bound, ∀ e ∈ entries, e.1.length ≤ bound := by
  induction entries with
  | nil => exact ⟨0, by simp⟩
  | cons first rest ih =>
    obtain ⟨bound, hbound⟩ := ih
    refine ⟨first.1.length + bound, ?_⟩
    intro e he
    rcases List.mem_cons.mp he with rfl | he
    · omega
    · have hle := hbound e he
      omega

/-- Keys that come out as they went in were read back: a longest key that is not would have to be
read for an even longer one. -/
theorem keysRead_of_fill {entries : List (QString × QVariant)}
    (hkeys : (entries.map Prod.fst).Pairwise (· < ·)) (h : RebuildableMap entries)
    (hfill : fill .invalid (placesMap entries) = .map entries) :
    ∀ e ∈ entries, KeyReads e.1 (e.2.isContainer = false) := by
  have hlonger : ∀ e ∈ entries, ¬ KeyReads e.1 (e.2.isContainer = false) →
      ∃ e' ∈ entries, ¬ KeyReads e'.1 (e'.2.isContainer = false) ∧ e.1.length < e'.1.length := by
    intro e he hbad
    have hmem : e.1 ∈ (entriesOf (fill .invalid (placesMap entries))).map Prod.fst := by
      rw [hfill]
      exact List.mem_map_of_mem he
    rcases mem_keys_fill hmem with hmem | ⟨p, hp, τ, hread⟩
    · cases hmem
    · obtain ⟨k, v, σ, hkv, hσ, hread'⟩ := reread_of_mem_placesMap h hp
      have hkey : partKey (toStdString k) (σ.map Selector.text) = e.1 := by
        rw [hread] at hread'
        injection hread' with hfirst
        injection hfirst with hfirst
        exact hfirst.symm
      have hk := (rebuildableMap_iff.mp h (k, v) hkv).1
      have hlast := path_nil_iff hσ
      by_cases hreads : KeyReads k (v.isContainer = false)
      · have hback : KeyReads k (σ.map Selector.text = []) := by rwa [hlast]
        rw [partKey_of_reads hk hback] at hkey
        rw [entry_unique hkeys he hkv hkey.symm] at hbad
        exact absurd hreads hbad
      · refine ⟨(k, v), hkv, hreads, ?_⟩
        have hback : ¬ KeyReads k (σ.map Selector.text = []) := by rwa [hlast]
        rcases partKey_of_not_reads hk hback with hshort | hcolon
        · rwa [hkey] at hshort
        · rw [hkey] at hcolon
          exact absurd hcolon (rebuildableMap_iff.mp h e he).1.noColon
  obtain ⟨bound, hbound⟩ := exists_key_bound entries
  by_contra hall
  simp only [not_forall] at hall
  obtain ⟨e, he, hbad⟩ := hall
  induction hgap : bound - e.1.length using Nat.strongRecOn generalizing e with
  | ind gap ih =>
    obtain ⟨e', he', hbad', hlt⟩ := hlonger e he hbad
    have hle := hbound e' he'
    exact ih (bound - e'.1.length) (by omega) e' he' hbad' rfl

end Radapter
