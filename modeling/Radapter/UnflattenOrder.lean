import Radapter.Unflatten

/-!
# Entries of a flat map in any order

Each part of a path selects a map entry or a list item. Two writes along paths that part ways
without either ending there commute, whatever the tree looks like: the entries of a map and the
items of a list are made where they belong, not in the order they arrive.
-/

namespace Radapter

/-- What a part of a path selects. -/
inductive Selector where
  | key (q : QString)
  | index (i : ℕ)
  deriving DecidableEq, Repr

/-- The branch `Unflatten` takes for a part. -/
def selector (part : Bytes) (rest : List Bytes) : Selector :=
  if tryInt part < 0 ∨ 2 ^ 31 - 1 < tryInt part then .key (partKey part rest)
  else .index (tryInt part).toNat

/-- The selectors of a path. -/
def selectors : List Bytes → List Selector
  | [] => []
  | part :: rest => selector part rest :: selectors rest

/-- The entries of a level, which is made an empty map when it is none. -/
def entriesOf : QVariant → List (QString × QVariant)
  | .map entries => entries
  | _ => []

/-- The items of a level, which is made an empty list when it is none. -/
def itemsOf : QVariant → List QVariant
  | .list items => items
  | _ => []

/-- An assignment to one entry or item of a level. -/
def put : Selector → (QVariant → QVariant) → QVariant → QVariant
  | .key q, f, level => .map (updateEntry q f (entriesOf level))
  | .index i, f, level => .list (updateItem f i (itemsOf level))

/-- An assignment along a path. -/
def place (value : QVariant) : List Selector → QVariant → QVariant
  | [], _ => value
  | s :: rest, level => put s (place value rest) level

/-- `Unflatten` assigns along the selectors of a path. -/
theorem setPath_eq_place (value : QVariant) {parts : List Bytes} (h : parts ≠ [])
    (level : QVariant) : setPath value parts level = place value (selectors parts) level := by
  induction parts generalizing level with
  | nil => exact absurd rfl h
  | cons part rest ih =>
    cases rest with
    | nil =>
      simp only [setPath, selectors, place, selector]
      split <;> cases level <;> rfl
    | cons next more =>
      have hrest : setPath value (next :: more) = place value (selectors (next :: more)) :=
        funext (ih (by simp))
      unfold setPath
      simp only [hrest]
      change _ = put (selector part (next :: more)) (place value (selectors (next :: more))) level
      rw [selector]
      split <;> cases level <;> rfl

/-! ## Assignments to one level -/

/-- The order of texts is total. -/
theorem qstring_eq {a b : QString} (h : ¬ a < b) (h' : ¬ b < a) : a = b :=
  List.le_antisymm h' h

/-- Two assignments to one entry. -/
theorem updateEntry_same (q : QString) (f g : QVariant → QVariant)
    (entries : List (QString × QVariant)) :
    updateEntry q f (updateEntry q g entries) = updateEntry q (fun v => f (g v)) entries := by
  induction entries with
  | nil => simp [updateEntry, List.lt_irrefl]
  | cons e rest ih =>
    simp only [updateEntry]
    split_ifs with hlt heq
    · simp [updateEntry, List.lt_irrefl]
    · simp [updateEntry, heq, List.lt_irrefl]
    · rw [updateEntry, if_neg hlt, if_neg heq, ih]

/-- Assignments under two keys may be exchanged. -/
private theorem updateEntry_comm_of_lt {q r : QString} (hlt : q < r) (f g : QVariant → QVariant)
    (entries : List (QString × QVariant)) :
    updateEntry q f (updateEntry r g entries) = updateEntry r g (updateEntry q f entries) := by
  have hrq : ¬ r < q := List.lt_asymm hlt
  have hne : ¬ r = q := fun h => List.lt_irrefl q (h ▸ hlt)
  induction entries with
  | nil => simp [updateEntry, hlt, hrq, hne]
  | cons e rest ih =>
    obtain ⟨k, v⟩ := e
    by_cases hqk : q < k
    · by_cases hrk : r < k
      · simp [updateEntry, hqk, hrk, hlt, hrq, hne]
      · by_cases hrk' : r = k
        · subst hrk'
          simp [updateEntry, hqk, hrk, hrq, hne]
        · simp [updateEntry, hqk, hrk, hrk', hrq, hne]
    · have hrk : ¬ r < k := fun h => hqk (List.lt_trans hlt h)
      by_cases hqk' : q = k
      · subst hqk'
        simp [updateEntry, hqk, hrq, hne]
      · have hrk' : ¬ r = k := fun h => hqk (h ▸ hlt)
        simp [updateEntry, hqk, hqk', hrk, hrk', ih]

/-- Assignments to different entries commute. -/
theorem updateEntry_comm {q r : QString} (hne : q ≠ r) (f g : QVariant → QVariant)
    (entries : List (QString × QVariant)) :
    updateEntry q f (updateEntry r g entries) = updateEntry r g (updateEntry q f entries) := by
  by_cases hlt : q < r
  · exact updateEntry_comm_of_lt hlt f g entries
  · have hrq : r < q := by
      by_contra hrq
      exact hne (qstring_eq hlt hrq)
    exact (updateEntry_comm_of_lt hrq g f entries).symm

/-- An entry that is made in order is the last one. -/
theorem updateEntry_last {k : QString} {entries : List (QString × QVariant)}
    (h : ∀ e ∈ entries, e.1 < k) (f : QVariant → QVariant) :
    updateEntry k f entries = entries ++ [(k, f .invalid)] := by
  induction entries with
  | nil => rfl
  | cons e entries ih =>
    have hlt := h e (by simp)
    have hne : ¬ k = e.1 := fun heq => List.lt_irrefl k (heq ▸ hlt)
    rw [updateEntry, if_neg (List.lt_asymm hlt), if_neg hne,
      ih (fun e he => h e (List.mem_cons_of_mem _ he)), List.cons_append]

/-- Two assignments to one item. -/
theorem updateItem_same (f g : QVariant → QVariant) (i : ℕ) (items : List QVariant) :
    updateItem f i (updateItem g i items) = updateItem (fun v => f (g v)) i items := by
  induction i generalizing items with
  | zero => cases items <;> rfl
  | succ i ih => cases items <;> simp [updateItem, ih]

/-- Assignments to different items commute. -/
theorem updateItem_comm {i j : ℕ} (hne : i ≠ j) (f g : QVariant → QVariant)
    (items : List QVariant) :
    updateItem f i (updateItem g j items) = updateItem g j (updateItem f i items) := by
  induction i generalizing j items with
  | zero =>
    obtain ⟨j, rfl⟩ : ∃ k, j = k + 1 := ⟨j - 1, by omega⟩
    cases items <;> rfl
  | succ i ih =>
    cases j with
    | zero => cases items <;> rfl
    | succ j => cases items <;> simp [updateItem, ih (show i ≠ j by omega)]

/-- Two assignments to one place of a level. -/
theorem put_same (s : Selector) (f g : QVariant → QVariant) (level : QVariant) :
    put s f (put s g level) = put s (fun v => f (g v)) level := by
  cases s with
  | key q => exact congrArg QVariant.map (updateEntry_same q f g (entriesOf level))
  | index i => exact congrArg QVariant.list (updateItem_same f g i (itemsOf level))

/-! ## Assignments along two paths -/

/-- Two paths part ways below a common level of one type. -/
def PartWays : List Selector → List Selector → Prop
  | .key q :: σ, .key r :: τ => if q = r then PartWays σ τ else True
  | .index i :: σ, .index j :: τ => if i = j then PartWays σ τ else True
  | _, _ => False

/-- Assignments along paths that part ways commute. -/
theorem place_comm {σ τ : List Selector} (h : PartWays σ τ) (v w level : QVariant) :
    place v σ (place w τ level) = place w τ (place v σ level) := by
  induction σ, τ using PartWays.induct generalizing level with
  | case1 q σ τ ih =>
    rw [PartWays, if_pos rfl] at h
    simp only [place, put_same, ih h]
  | case2 q σ r τ hne => exact congrArg QVariant.map (updateEntry_comm hne _ _ (entriesOf level))
  | case3 i σ τ ih =>
    rw [PartWays, if_pos rfl] at h
    simp only [place, put_same, ih h]
  | case4 i σ j τ hne => exact congrArg QVariant.list (updateItem_comm hne _ _ (itemsOf level))
  | case5 σ τ _ _ => simp_all [PartWays]

/-! ## The leaves of a tree as places -/

mutual

/-- The leaves of a tree in traversal order, each with the selectors on the way to it. -/
def places : QVariant → List (List Selector × Scalar)
  | .leaf s => [([], s)]
  | .map entries => placesMap entries
  | .list items => placesList 0 items

/-- The places below the entries of a map. -/
def placesMap : List (QString × QVariant) → List (List Selector × Scalar)
  | [] => []
  | (key, v) :: rest => (places v).map (fun e => (.key key :: e.1, e.2)) ++ placesMap rest

/-- The places below the items of a list, from item `idx` on. -/
def placesList (idx : ℕ) : List QVariant → List (List Selector × Scalar)
  | [] => []
  | v :: rest => (places v).map (fun e => (.index idx :: e.1, e.2)) ++ placesList (idx + 1) rest

end

/-- A place below a map is below one of its entries. -/
theorem mem_placesMap {entries : List (QString × QVariant)} {e : List Selector × Scalar} :
    e ∈ placesMap entries ↔
      ∃ k v σ, (k, v) ∈ entries ∧ (σ, e.2) ∈ places v ∧ e.1 = .key k :: σ := by
  induction entries with
  | nil => simp [placesMap]
  | cons entry rest ih =>
    obtain ⟨key, v⟩ := entry
    rw [placesMap, List.mem_append, ih, List.mem_map]
    constructor
    · rintro (⟨⟨σ, s⟩, hmem, rfl⟩ | ⟨k, w, σ, hmem, hσ, he⟩)
      · exact ⟨key, v, σ, by simp, hmem, rfl⟩
      · exact ⟨k, w, σ, List.mem_cons_of_mem _ hmem, hσ, he⟩
    · rintro ⟨k, w, σ, hmem, hσ, he⟩
      rcases List.mem_cons.mp hmem with heq | hmem
      · cases heq
        exact .inl ⟨(σ, e.2), hσ, by rw [← he]⟩
      · exact .inr ⟨k, w, σ, hmem, hσ, he⟩

/-- A place below a list is below one of its items. -/
theorem mem_placesList {idx : ℕ} {items : List QVariant} {e : List Selector × Scalar} :
    e ∈ placesList idx items ↔
      ∃ i v σ, items[i]? = some v ∧ (σ, e.2) ∈ places v ∧ e.1 = .index (idx + i) :: σ := by
  induction items generalizing idx with
  | nil => simp [placesList]
  | cons first rest ih =>
    rw [placesList, List.mem_append, ih, List.mem_map]
    constructor
    · rintro (⟨⟨σ, s⟩, hmem, rfl⟩ | ⟨i, w, σ, hmem, hσ, he⟩)
      · exact ⟨0, first, σ, rfl, hmem, rfl⟩
      · exact ⟨i + 1, w, σ, hmem, hσ, by rw [he, Nat.add_right_comm, Nat.add_assoc]⟩
    · rintro ⟨i, w, σ, hmem, hσ, he⟩
      cases i with
      | zero =>
        cases hmem
        exact .inl ⟨(σ, e.2), hσ, by rw [Prod.ext_iff]; exact ⟨he.symm, rfl⟩⟩
      | succ i => exact .inr ⟨i, w, σ, hmem, hσ, by rw [he, Nat.add_right_comm, Nat.add_assoc]⟩

mutual

/-- Any two places of a tree part ways. -/
theorem places_pairwise {v : QVariant} (h : v.Ascending) :
    (places v).Pairwise (fun a b => PartWays a.1 b.1) := by
  cases v with
  | leaf s => exact List.pairwise_singleton _ _
  | map entries =>
    rw [QVariant.Ascending] at h
    exact placesMap_pairwise h.1 h.2
  | list items => exact placesList_pairwise 0 h

/-- Any two places below a map part ways. -/
theorem placesMap_pairwise {entries : List (QString × QVariant)}
    (hkeys : (entries.map Prod.fst).Pairwise (· < ·)) (h : QVariant.AscendingMap entries) :
    (placesMap entries).Pairwise (fun a b => PartWays a.1 b.1) := by
  cases entries with
  | nil => exact List.Pairwise.nil
  | cons entry rest =>
    obtain ⟨key, v⟩ := entry
    rw [QVariant.AscendingMap] at h
    obtain ⟨hkey, hkeys⟩ := List.pairwise_cons.mp hkeys
    rw [placesMap, List.pairwise_append]
    refine ⟨List.pairwise_map.mpr ?_, placesMap_pairwise hkeys h.2, ?_⟩
    · apply (places_pairwise h.1).imp
      intro a b hab
      simpa [PartWays] using hab
    · intro a ha b hb
      obtain ⟨a, -, rfl⟩ := List.mem_map.mp ha
      obtain ⟨k, w, σ, hmem, -, he⟩ := mem_placesMap.mp hb
      have hlt : key < k := hkey k (List.mem_map.mpr ⟨(k, w), hmem, rfl⟩)
      have hne : key ≠ k := fun heq => List.lt_irrefl key (heq ▸ hlt)
      rw [he, PartWays, if_neg hne]
      trivial

/-- Any two places below a list part ways. -/
theorem placesList_pairwise (idx : ℕ) {items : List QVariant} (h : QVariant.AscendingList items) :
    (placesList idx items).Pairwise (fun a b => PartWays a.1 b.1) := by
  cases items with
  | nil => exact List.Pairwise.nil
  | cons v rest =>
    rw [QVariant.AscendingList] at h
    rw [placesList, List.pairwise_append]
    refine ⟨List.pairwise_map.mpr ?_, placesList_pairwise (idx + 1) h.2, ?_⟩
    · apply (places_pairwise h.1).imp
      intro a b hab
      simpa [PartWays] using hab
    · intro a ha b hb
      obtain ⟨a, -, rfl⟩ := List.mem_map.mp ha
      obtain ⟨i, w, σ, -, -, he⟩ := mem_placesList.mp hb
      rw [he, PartWays, if_neg (by omega)]
      trivial

end

end Radapter
