import Radapter.UnflattenKeys

/-!
# Rebuilding a tree from its places

Writing the leaves of a tree in traversal order fills one entry or item after the other. Level by
level, the result has the keys that are read for the parts, and below each of them what is built
from the leaves there.
-/

namespace Radapter

/-- The selectors that are read for the text of a path. -/
def reread (σ : List Selector) : List Selector := selectors (σ.map Selector.text)

/-- Leaves written one after the other, each along its path as it is read. -/
def fill (out : QVariant) (es : List (List Selector × Scalar)) : QVariant :=
  es.foldl (fun out e => place (.leaf e.2) (reread e.1) out) out

/-- Without leaves nothing is written. -/
@[simp] theorem fill_nil (out : QVariant) : fill out [] = out := rfl

/-- The first leaf is written first. -/
@[simp] theorem fill_cons (out : QVariant) (e : List Selector × Scalar)
    (es : List (List Selector × Scalar)) :
    fill out (e :: es) = fill (place (.leaf e.2) (reread e.1) out) es := rfl

/-- Leaves are written one part after the other. -/
theorem fill_append (out : QVariant) (es fs : List (List Selector × Scalar)) :
    fill out (es ++ fs) = fill (fill out es) fs := List.foldl_append

/-- The first part of a path is read with the others behind it. -/
theorem reread_cons (s : Selector) (σ : List Selector) :
    reread (s :: σ) = selector s.text (σ.map Selector.text) :: reread σ := rfl

/-- Leaves below one entry or item are written into it. -/
theorem fill_below {s : Selector} {es : List (List Selector × Scalar)} (hne : es ≠ [])
    (hread : ∀ e ∈ es, reread (s :: e.1) = s :: reread e.1) (out : QVariant) :
    fill out (es.map (fun e => (s :: e.1, e.2))) = put s (fun v => fill v es) out := by
  induction es generalizing out with
  | nil => exact absurd rfl hne
  | cons e es ih =>
    rw [List.map_cons, fill_cons, hread e (by simp), place]
    cases es with
    | nil => rfl
    | cons next es =>
      rw [ih (by simp) (fun e he => hread e (List.mem_cons_of_mem _ he)), put_same]
      rfl

/-! ## Keys and indices of the result -/

/-- An item that is made in order is the last one. -/
theorem updateItem_last (f : QVariant → QVariant) (items : List QVariant) :
    updateItem f items.length items = items ++ [f .invalid] := by
  induction items with
  | nil => rfl
  | cons v items ih => rw [List.length_cons, updateItem, ih, List.cons_append]

/-- An assignment makes no other key. -/
theorem mem_keys_updateEntry {q k : QString} {f : QVariant → QVariant}
    {entries : List (QString × QVariant)} (h : q ∈ (updateEntry k f entries).map Prod.fst) :
    q = k ∨ q ∈ entries.map Prod.fst := by
  induction entries with
  | nil => simpa [updateEntry] using h
  | cons e entries ih =>
    rw [updateEntry] at h
    split_ifs at h with hlt heq
    · simpa using h
    · right
      simpa using h
    · rw [List.map_cons, List.mem_cons] at h
      rcases h with h | h
      · exact .inr (by simp [h])
      · rcases ih h with h | h
        · exact .inl h
        · exact .inr (List.mem_cons_of_mem _ h)

/-- An assignment keeps the keys ascending. -/
theorem ascending_updateEntry {k : QString} {f : QVariant → QVariant}
    {entries : List (QString × QVariant)} (h : (entries.map Prod.fst).Pairwise (· < ·)) :
    ((updateEntry k f entries).map Prod.fst).Pairwise (· < ·) := by
  induction entries with
  | nil => simp [updateEntry]
  | cons e entries ih =>
    obtain ⟨hfirst, hrest⟩ := List.pairwise_cons.mp h
    rw [updateEntry]
    split_ifs with hlt heq
    · refine List.pairwise_cons.mpr ⟨?_, h⟩
      intro q hq
      rcases List.mem_cons.mp hq with rfl | hmem
      · exact hlt
      · exact List.lt_trans hlt (hfirst q hmem)
    · exact h
    · refine List.pairwise_cons.mpr ⟨?_, ih hrest⟩
      intro q hq
      rcases mem_keys_updateEntry hq with rfl | hmem
      · by_contra hnot
        exact heq (qstring_eq hlt hnot)
      · exact hfirst q hmem

/-- The entries after an assignment. -/
theorem mem_updateEntry {k : QString} {v : QVariant} {entries : List (QString × QVariant)}
    (h : (entries.map Prod.fst).Pairwise (· < ·)) {e : QString × QVariant} :
    e ∈ updateEntry k (fun _ => v) entries ↔ e = (k, v) ∨ e ∈ entries ∧ e.1 ≠ k := by
  induction entries with
  | nil => simp [updateEntry]
  | cons first entries ih =>
    obtain ⟨hfirst, hrest⟩ := List.pairwise_cons.mp h
    have hlater : ∀ e ∈ entries, first.1 < e.1 := fun e he => hfirst e.1 (List.mem_map_of_mem he)
    rw [updateEntry]
    split_ifs with hlt heq
    · rw [List.mem_cons]
      refine or_congr_right ⟨fun he => ⟨he, ?_⟩, And.left⟩
      rintro rfl
      rcases List.mem_cons.mp he with rfl | hmem
      · exact List.lt_irrefl _ hlt
      · exact List.lt_asymm hlt (hlater e hmem)
    · rw [List.mem_cons, List.mem_cons, heq]
      refine or_congr_right ⟨fun he => ⟨.inr he, ?_⟩, ?_⟩
      · intro hk
        exact List.lt_irrefl _ (hk ▸ hlater e he)
      · rintro ⟨rfl | he, hne⟩
        · exact absurd rfl hne
        · exact he
    · rw [List.mem_cons, List.mem_cons, ih hrest]
      constructor
      · rintro (rfl | rfl | ⟨he, hne⟩)
        · exact .inr ⟨.inl rfl, Ne.symm heq⟩
        · exact .inl rfl
        · exact .inr ⟨.inr he, hne⟩
      · rintro (rfl | ⟨rfl | he, hne⟩)
        · exact .inr (.inl rfl)
        · exact .inl rfl
        · exact .inr (.inr ⟨he, hne⟩)

/-- An assignment pads a list no further than to its item. -/
theorem length_updateItem (f : QVariant → QVariant) (i : ℕ) (items : List QVariant) :
    (updateItem f i items).length = max items.length (i + 1) := by
  induction i generalizing items with
  | zero =>
    cases items with
    | nil => rfl
    | cons v items => simp [updateItem]
  | succ i ih =>
    cases items with
    | nil => simp [updateItem, ih]
    | cons v items =>
      simp only [updateItem, List.length_cons, ih]
      omega

/-- A key of the result is read for some path, or was there before. -/
theorem mem_keys_fill {es : List (List Selector × Scalar)} {out : QVariant} {q : QString}
    (h : q ∈ (entriesOf (fill out es)).map Prod.fst) :
    q ∈ (entriesOf out).map Prod.fst ∨ ∃ e ∈ es, ∃ τ, reread e.1 = .key q :: τ := by
  induction es generalizing out with
  | nil => exact .inl h
  | cons e es ih =>
    rw [fill_cons] at h
    rcases ih h with h | ⟨e', he', hτ⟩
    · cases hread : reread e.1 with
      | nil => simp [hread, place, entriesOf] at h
      | cons s τ =>
        rw [hread, place] at h
        cases s with
        | key k =>
          rcases mem_keys_updateEntry h with rfl | h
          · exact .inr ⟨e, by simp, τ, hread⟩
          · exact .inl h
        | index i => simp [put, entriesOf] at h
    · exact .inr ⟨e', List.mem_cons_of_mem _ he', hτ⟩

/-- The index a part selects is an `int`. -/
theorem index_lt_of_selector {part : Bytes} {rest : List Bytes} {i : ℕ}
    (h : selector part rest = .index i) : i < 2 ^ 31 := by
  unfold selector at h
  split_ifs at h with hint
  injection h with h
  omega

/-- No list is padded beyond `2 ^ 31` items. -/
theorem length_items_fill {es : List (List Selector × Scalar)} {out : QVariant}
    (h : (itemsOf out).length ≤ 2 ^ 31) : (itemsOf (fill out es)).length ≤ 2 ^ 31 := by
  induction es generalizing out with
  | nil => exact h
  | cons e es ih =>
    rw [fill_cons]
    apply ih
    cases hσ : e.1 with
    | nil => simp [reread, selectors, place, itemsOf]
    | cons s σ =>
      rw [reread_cons, place]
      cases hs : selector s.text (σ.map Selector.text) with
      | key k => simp [put, itemsOf]
      | index i =>
        have hi := index_lt_of_selector hs
        rw [put, itemsOf, length_updateItem]
        omega

/-! ## Order of the keys at every level -/

/-- An assignment keeps a map in order. -/
theorem ascendingMap_updateEntry {k : QString} {f : QVariant → QVariant}
    (hf : ∀ v : QVariant, v.Ascending → (f v).Ascending) {entries : List (QString × QVariant)}
    (h : QVariant.AscendingMap entries) : QVariant.AscendingMap (updateEntry k f entries) := by
  induction entries with
  | nil => exact ⟨hf .invalid trivial, trivial⟩
  | cons e rest ih =>
    rw [updateEntry]
    split_ifs
    · exact ⟨hf .invalid trivial, h⟩
    · exact ⟨hf e.2 h.1, h.2⟩
    · exact ⟨h.1, ih h.2⟩

/-- So it does a list. -/
theorem ascendingList_updateItem {f : QVariant → QVariant}
    (hf : ∀ v : QVariant, v.Ascending → (f v).Ascending) (i : ℕ) {items : List QVariant}
    (h : QVariant.AscendingList items) : QVariant.AscendingList (updateItem f i items) := by
  induction i generalizing items with
  | zero =>
    cases items with
    | nil => exact ⟨hf .invalid trivial, trivial⟩
    | cons v rest => exact ⟨hf v h.1, h.2⟩
  | succ i ih =>
    cases items with
    | nil =>
      have hnil : QVariant.AscendingList [] := trivial
      exact ⟨trivial, ih hnil⟩
    | cons v rest => exact ⟨h.1, ih h.2⟩

/-- An assignment to one entry or item of a level keeps the keys ascending. -/
theorem ascending_put {f : QVariant → QVariant}
    (hf : ∀ v : QVariant, v.Ascending → (f v).Ascending) (sel : Selector) {level : QVariant}
    (h : level.Ascending) : (put sel f level).Ascending := by
  cases sel with
  | key k =>
    have hentries : (QVariant.map (entriesOf level)).Ascending := by
      cases level with
      | map entries => exact h
      | leaf s => exact ⟨List.Pairwise.nil, trivial⟩
      | list items => exact ⟨List.Pairwise.nil, trivial⟩
    exact ⟨ascending_updateEntry hentries.1, ascendingMap_updateEntry hf hentries.2⟩
  | index i =>
    have hitems : QVariant.AscendingList (itemsOf level) := by
      cases level with
      | list items => exact h
      | leaf s => trivial
      | map entries => trivial
    exact ascendingList_updateItem hf i hitems

/-- An assignment along a path does so at every level. -/
theorem ascending_place {value : QVariant} (hvalue : value.Ascending) (sels : List Selector)
    {level : QVariant} (hlevel : level.Ascending) : (place value sels level).Ascending := by
  induction sels generalizing level with
  | nil => exact hvalue
  | cons sel rest ih => exact ascending_put (fun _ hold => ih hold) sel hlevel

/-- Writing a value along a path keeps the keys ascending at every level. -/
theorem ascending_setPath {value : QVariant} (hvalue : value.Ascending) (parts : List Bytes)
    {level : QVariant} (hlevel : level.Ascending) : (setPath value parts level).Ascending := by
  cases parts with
  | nil => exact hlevel
  | cons part rest =>
    rw [setPath_eq_place value (List.cons_ne_nil part rest)]
    exact ascending_place hvalue _ hlevel

/-- What is rebuilt is in order. -/
theorem ascending_Unflatten {flat : FlatMap} (hflat : ∀ it ∈ flat, it.2.Ascending) {out : QVariant}
    (hout : out.Ascending) : (Unflatten out flat).Ascending := by
  rw [Unflatten]
  induction flat generalizing out with
  | nil => exact hout
  | cons it rest ih =>
    exact ih (fun it' hit' => hflat it' (List.mem_cons_of_mem it hit'))
      (ascending_setPath (hflat it List.mem_cons_self) _ hout)

end Radapter
