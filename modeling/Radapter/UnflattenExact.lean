import Radapter.UnflattenLevels

/-!
# Which trees Unflatten rebuilds

A tree without empty containers, whose keys can be named in a path, is rebuilt from its leaves in
any order exactly when its paths are read as they were written.
-/

namespace Radapter

mutual

/-- A tree is rebuilt from its places in order exactly when its paths are read back. -/
theorem fill_places_iff {v : QVariant} (h : Rebuildable v) :
    fill .invalid (places v) = v ↔ PathsRead v := by
  cases v with
  | leaf s => exact ⟨fun _ => trivial, fun _ => rfl⟩
  | list items =>
    obtain ⟨hne, hitems⟩ := h
    rw [places, PathsRead]
    constructor
    · intro hfill
      have hlen : items.length ≤ 2 ^ 31 := by
        have hle := @length_items_fill (placesList 0 items) .invalid (by decide)
        rwa [hfill] at hle
      rw [fill_items hne hitems hlen] at hfill
      exact ⟨hlen, (fill_items_iff hitems).mp (QVariant.list.inj hfill)⟩
    · rintro ⟨hlen, hread⟩
      rw [fill_items hne hitems hlen, (fill_items_iff hitems).mpr hread]
  | map entries =>
    obtain ⟨hne, hkeys, hentries⟩ := h
    rw [places, PathsRead]
    constructor
    · intro hfill
      have hread := keysRead_of_fill hkeys hentries hfill
      rw [fill_entries hne hkeys hentries hread] at hfill
      exact pathsReadMap_iff.mpr
        ⟨hread, (fill_entries_iff hentries).mp (QVariant.map.inj hfill)⟩
    · intro hread
      obtain ⟨hread, hbelow⟩ := pathsReadMap_iff.mp hread
      rw [fill_entries hne hkeys hentries hread, (fill_entries_iff hentries).mpr hbelow]

/-- The items of a list are rebuilt exactly when their paths are read back. -/
theorem fill_items_iff {items : List QVariant} (h : RebuildableList items) :
    items.map (fun v => fill .invalid (places v)) = items ↔ PathsReadList items := by
  cases items with
  | nil => simp [PathsReadList]
  | cons v rest =>
    rw [List.map_cons, List.cons.injEq, PathsReadList, fill_places_iff h.1, fill_items_iff h.2]

/-- The values of a map are rebuilt exactly when their paths are read back. -/
theorem fill_entries_iff {entries : List (QString × QVariant)} (h : RebuildableMap entries) :
    entries.map (fun e => (e.1, fill .invalid (places e.2))) = entries ↔
      ∀ e ∈ entries, PathsRead e.2 := by
  cases entries with
  | nil => simp
  | cons e rest =>
    rw [List.map_cons, List.cons.injEq, List.forall_mem_cons, fill_entries_iff h.2.2,
      ← fill_places_iff h.2.1]
    simp [Prod.ext_iff]

end

mutual

/-- The leaves of a tree are its places with the selectors written as text. -/
theorem leaves_eq_places (v : QVariant) :
    leaves v = (places v).map (fun e => (e.1.map Selector.text, e.2)) := by
  cases v with
  | leaf s => rfl
  | list items => exact leavesList_eq_places 0 items
  | map entries => exact leavesMap_eq_places entries

/-- The leaves below the items of a list. -/
theorem leavesList_eq_places (idx : ℕ) (items : List QVariant) :
    leavesList idx items =
      (placesList idx items).map (fun e => (e.1.map Selector.text, e.2)) := by
  cases items with
  | nil => rfl
  | cons v rest =>
    rw [leavesList, placesList, leaves_eq_places v, leavesList_eq_places (idx + 1) rest]
    simp [Function.comp_def, Selector.text]

/-- The leaves below the entries of a map. -/
theorem leavesMap_eq_places (entries : List (QString × QVariant)) :
    leavesMap entries = (placesMap entries).map (fun e => (e.1.map Selector.text, e.2)) := by
  cases entries with
  | nil => rfl
  | cons e rest =>
    rw [leavesMap, placesMap, leaves_eq_places e.2, leavesMap_eq_places rest]
    simp [Function.comp_def, Selector.text]

end

/-- Every key on the way to a leaf can be named. -/
theorem pathKeys_of_mem {v : QVariant} (h : Rebuildable v) {σ : List Selector} {s : Scalar}
    (hσ : (σ, s) ∈ places v) : PathKeys σ := by
  induction v using QVariant.memInduction generalizing σ with
  | leaf t =>
    obtain ⟨rfl, -⟩ : σ = [] ∧ s = t := by simpa [places] using hσ
    simp [PathKeys]
  | list items ih =>
    obtain ⟨i, v, τ, hi, hτ, rfl⟩ := mem_placesList.mp hσ
    have hv := List.mem_of_getElem? hi
    intro k hk
    rcases List.mem_cons.mp hk with hk | hk
    · cases hk
    · exact ih v hv (rebuildableList_iff.mp h.2 v hv) hτ k hk
  | map entries ih =>
    obtain ⟨key, v, τ, hv, hτ, rfl⟩ := mem_placesMap.mp hσ
    obtain ⟨hkey, hbelow⟩ := rebuildableMap_iff.mp h.2.2 (key, v) hv
    intro k hk
    rcases List.mem_cons.mp hk with hk | hk
    · cases hk
      exact hkey
    · exact ih (key, v) hv hbelow hτ k hk

/-- Paths that are read back name the places they were written for. -/
theorem reread_of_mem {v : QVariant} (h : Rebuildable v) (hread : PathsRead v)
    {σ : List Selector} {s : Scalar} (hσ : (σ, s) ∈ places v) : reread σ = σ := by
  induction v using QVariant.memInduction generalizing σ with
  | leaf t =>
    obtain ⟨rfl, -⟩ : σ = [] ∧ s = t := by simpa [places] using hσ
    rfl
  | list items ih =>
    obtain ⟨i, v, τ, hi, hτ, rfl⟩ := mem_placesList.mp hσ
    have hv := List.mem_of_getElem? hi
    obtain ⟨hlt, -⟩ := List.getElem?_eq_some_iff.mp hi
    have hlen := hread.1
    rw [reread_cons, Selector.text, selector_indexName (by omega),
      ih v hv (rebuildableList_iff.mp h.2 v hv) (pathsReadList_iff.mp hread.2 v hv) hτ]
  | map entries ih =>
    obtain ⟨key, v, τ, hv, hτ, rfl⟩ := mem_placesMap.mp hσ
    obtain ⟨hkey, hbelow⟩ := rebuildableMap_iff.mp h.2.2 (key, v) hv
    obtain ⟨hkeys, hvalues⟩ := pathsReadMap_iff.mp hread
    have hback : KeyReads key (τ.map Selector.text = []) := by
      rw [path_nil_iff hτ]
      exact hkeys (key, v) hv
    rw [reread_cons, Selector.text, selector_toStdString hkey, partKey_of_reads hkey hback,
      ih (key, v) hv hbelow (hvalues (key, v) hv) hτ]

/-- The entry of a leaf of a tree is written along its path as it is read. -/
theorem setPath_entry {t : QVariant} (hroot : t.isContainer = true) (ht : Rebuildable t)
    {e : List Selector × Scalar} (he : e ∈ places t) (out : QVariant) :
    setPath (.leaf e.2) (walkParts ([colon].intercalate (e.1.map Selector.text))) out =
      place (.leaf e.2) (reread e.1) out := by
  have hne : e.1 ≠ [] := by
    intro hnil
    have hleaf := (path_nil_iff (σ := e.1) (s := e.2) he).mp (by rw [hnil]; rfl)
    rw [hroot] at hleaf
    cases hleaf
  rw [walkParts_text hne (pathKeys_of_mem ht he), setPath_eq_place _ (by simpa using hne)]
  rfl

/-- The entries of a tree in traversal order. -/
theorem Unflatten_leafEntries {t : QVariant} (hroot : t.isContainer = true) (ht : Rebuildable t) :
    Unflatten .invalid (leafEntries t) = fill .invalid (places t) := by
  rw [Unflatten, leafEntries, leaves_eq_places, List.map_map, List.foldl_map, fill]
  exact List.foldl_ext _ _ _ (fun out e he => setPath_entry hroot ht he out)

/-- Writes along the paths of any two leaves of a tree commute. -/
theorem place_comm_of_mem {t : QVariant} (ht : t.Ascending) {a b : List Selector × Scalar}
    (ha : a ∈ places t) (hb : b ∈ places t) (out : QVariant) :
    place (.leaf b.2) b.1 (place (.leaf a.2) a.1 out) =
      place (.leaf a.2) a.1 (place (.leaf b.2) b.1 out) := by
  refine List.Pairwise.forall_of_forall_of_flip (R := fun a b => ∀ out,
    place (.leaf b.2) b.1 (place (.leaf a.2) a.1 out) =
      place (.leaf a.2) a.1 (place (.leaf b.2) b.1 out)) (fun _ _ _ => rfl) ?_ ?_ ha hb out
  · exact (places_pairwise ht).imp (fun h out => (place_comm h _ _ out).symm)
  · exact (places_pairwise ht).imp (fun h out => place_comm h _ _ out)

/-- Every permutation of the entries of a tree rebuilds it exactly when its paths are read as they
were written. -/
theorem Unflatten_perm_iff {t : QVariant} (hroot : t.isContainer = true) (ht : Rebuildable t) :
    (∀ flat, flat.Perm (leafEntries t) → Unflatten .invalid flat = t) ↔ PathsRead t := by
  constructor
  · intro h
    have hself := h (leafEntries t) (List.Perm.refl _)
    rw [Unflatten_leafEntries hroot ht] at hself
    exact (fill_places_iff ht).mp hself
  · intro hread flat hperm
    have hstep {x : Bytes × QVariant} (hx : x ∈ leafEntries t) :
        ∃ e ∈ places t, ∀ out, setPath x.2 (walkParts x.1) out = place (.leaf e.2) e.1 out := by
      rw [leafEntries, leaves_eq_places, List.map_map] at hx
      obtain ⟨e, he, rfl⟩ := List.mem_map.mp hx
      refine ⟨e, he, fun out => ?_⟩
      exact (setPath_entry hroot ht he out).trans (by rw [reread_of_mem ht hread he])
    -- Writes of different leaves commute, so the order of the tree will do.
    have horder : Unflatten .invalid flat = Unflatten .invalid (leafEntries t) := by
      refine (List.Perm.foldl_eq' hperm.symm ?_ _).symm
      intro x hx y hy out
      obtain ⟨a, ha, hwrite_a⟩ := hstep hx
      obtain ⟨b, hb, hwrite_b⟩ := hstep hy
      simp only [hwrite_a, hwrite_b]
      exact place_comm_of_mem ht.ascending ha hb out
    rw [horder, Unflatten_leafEntries hroot ht, (fill_places_iff ht).mpr hread]

/-- The tree `{a = [true, {b = false}]}`. -/
def nested : QVariant :=
  .map [([97], .list [.leaf (.bool true), .map [([98], .leaf (.bool false))]])]

/-- One character is a key that a path can name, unless it is a colon or half of a pair. -/
private theorem pathKey_of_unit {u : UInt16} (hvalid : validUtf16 [u] = true) (hcolon : u ≠ 58) :
    PathKey [u] where
  nonempty := by simp
  valid := hvalid
  noColon := by simpa using hcolon.symm
  notIndex := by
    rintro ⟨digits, hdigits, -, h⟩
    simp at h

/-- A nested tree is rebuilt from its entries in any order. -/
theorem Unflatten_perm_nested :
    nested.isContainer = true ∧
      ∀ flat, flat.Perm (leafEntries nested) → Unflatten .invalid flat = nested := by
  have hkeys : PathKey [97] ∧ PathKey [98] :=
    ⟨pathKey_of_unit (by decide) (by decide), pathKey_of_unit (by decide) (by decide)⟩
  have hreads (last : Prop) : KeyReads [97] last ∧ KeyReads [98] last :=
    ⟨⟨by decide, .inl (by decide)⟩, ⟨by decide, .inl (by decide)⟩⟩
  refine ⟨rfl, (Unflatten_perm_iff rfl ?_).mpr ?_⟩
  · simp [nested, Rebuildable, RebuildableMap, RebuildableList, hkeys]
  · simp [nested, PathsRead, PathsReadMap, PathsReadList, hreads]

/-- The tree with the key U+FEFF `a`. -/
def marked : QVariant := .map [([0xFEFF, 97], .leaf (.bool true))]

/-- A key that starts with a byte-order mark comes back without it. -/
theorem Unflatten_drops_mark :
    marked.isContainer = true ∧ Rebuildable marked ∧
      Unflatten .invalid (leafEntries marked) = .map [([97], .leaf (.bool true))] ∧
      Unflatten .invalid (leafEntries marked) ≠ marked := by
  refine ⟨rfl, ?_, by decide, by decide⟩
  have hkey : PathKey [0xFEFF, 97] :=
    ⟨by decide, by decide, by decide, by rintro ⟨digits, -, -, h⟩; simp at h⟩
  simp [marked, Rebuildable, RebuildableMap, hkey]

end Radapter
