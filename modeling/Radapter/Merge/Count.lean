import Radapter.Merge.Patch

/-!
# What `MergePatch` counts

`MergePatch` returns the amount of affected keys, and its callers tell nobody of a patch that
affects none. It counts the values that it replaces by one that is not a map. A key that it removes,
a value that it replaces by a map and a map that it makes are not counted by themselves, only for
what is put into the map.
-/

namespace Radapter

open Library

section Kinds

variable (eq : Scalar → Scalar → Bool)

mutual

/-- The patch has a value that is not a map and differs from what is there. -/
def counted (out : QVariant) : QVariant → Bool
  | .map inMap => countedIn (entriesOf out) inMap
  | .list items => !QVariant.equals eq out (.list items)
  | .leaf s => !QVariant.equals eq out (.leaf s)

def countedIn (outMap : List (QString × QVariant)) : List (QString × QVariant) → Bool
  | [] => false
  | (key, value) :: rest =>
      value.isValid && counted ((outMap.lookup key).getD .invalid) value || countedIn outMap rest

end

mutual

/-- The patch has a null for a key that is there, or a map where none is. -/
def uncounted (out : QVariant) : QVariant → Bool
  | .map inMap => !isMap out || uncountedIn (entriesOf out) inMap
  | .list _ => false
  | .leaf _ => false

def uncountedIn (outMap : List (QString × QVariant)) : List (QString × QVariant) → Bool
  | [] => false
  | (key, value) :: rest =>
      (if value.isValid then uncounted ((outMap.lookup key).getD .invalid) value
        else (outMap.lookup key).isSome) || uncountedIn outMap rest

end

end Kinds

variable {eq : Scalar → Scalar → Bool}

/-! ## The result -/

/-- A patch adds to the result if one of its entries does. -/
theorem countedIn_iff {outMap inMap : List (QString × QVariant)} :
    countedIn eq outMap inMap = true ↔ ∃ e ∈ inMap, e.2.isValid = true ∧
      counted eq ((outMap.lookup e.1).getD .invalid) e.2 = true := by
  induction inMap with
  | nil => simp [countedIn]
  | cons e rest ih =>
    rw [countedIn, Bool.or_eq_true, Bool.and_eq_true, ih, List.exists_mem_cons_iff]

/-- It makes a change without adding to the result if one of its entries does, or removes a key that
there is. -/
theorem uncountedIn_iff {outMap inMap : List (QString × QVariant)} :
    uncountedIn outMap inMap = true ↔ ∃ e ∈ inMap,
      (e.2.isValid = true ∧ uncounted ((outMap.lookup e.1).getD .invalid) e.2 = true) ∨
        (e.2.isValid = false ∧ (outMap.lookup e.1).isSome = true) := by
  induction inMap with
  | nil => simp [uncountedIn]
  | cons e rest ih =>
    rw [uncountedIn, Bool.or_eq_true, ih, List.exists_mem_cons_iff]
    apply or_congr_left
    cases e.2.isValid with
    | true => simp
    | false => simp

/-- The rounds of the loop count as the entries do in the map before the first of them. -/
theorem result_mergeEntries {inMap : List (QString × QVariant)} (hinMap : Assoc.Distinct inMap)
    (outMap : List (QString × QVariant)) :
    (mergeEntries eq outMap none inMap).result = 0 ↔
      ∀ e ∈ inMap, e.2.isValid = true → (mergedUnder eq outMap e).result = 0 := by
  induction inMap generalizing outMap with
  | nil => simp [mergeEntries]
  | cons first rest ih =>
    obtain ⟨hfirst, hrest⟩ := List.nodup_cons.mp hinMap
    rw [(mergeEntries_cons outMap first rest).2, Nat.add_eq_zero_iff, ih hrest,
      List.forall_mem_cons, countedEntry]
    apply and_congr
    · split_ifs with hvalid
      · simp [hvalid]
      · simp [hvalid]
    · apply forall₂_congr
      intro e he
      have hne : e.1 ≠ first.1 := fun h => hfirst (h ▸ List.mem_map_of_mem he)
      rw [mergedUnder_mergedEntry outMap hne]

/-- A value that is replaced is counted unless it is equal. -/
private theorem result_replace (out patch : QVariant) :
    (replaceUnlessEqual eq out none patch).result = 0 ↔
      (!QVariant.equals eq out patch) = false := by
  rw [replaceUnlessEqual]
  split_ifs with heq
  · simp [heq]
  · simp [heq]

/-- The result is nothing if and only if no value that is not a map differs from what is there. -/
theorem result_eq_zero_iff {patch : QVariant} (hpatch : patch.Ascending) (out : QVariant) :
    (MergePatch eq out none patch).result = 0 ↔ counted eq out patch = false := by
  induction patch using QVariant.memInduction generalizing out with
  | leaf s => exact result_replace out (.leaf s)
  | list items => exact result_replace out (.list items)
  | map inMap ih =>
    rw [QVariant.Ascending, QVariant.ascendingMap_iff] at hpatch
    rw [MergePatch, counted, ← Bool.not_eq_true, countedIn_iff]
    refine (result_mergeEntries (distinct_of_ascending hpatch.1) (entriesOf out)).trans ?_
    push Not
    apply forall₃_congr
    intro e he hvalid
    rw [mergedUnder, ih e he (hpatch.2 e he), ne_eq, Bool.not_eq_true]

/-! ## The change -/

/-- The change of an entry of a patch that is a map. -/
def ChangedEntry (eq : Scalar → Scalar → Bool) (outMap : List (QString × QVariant))
    (e : QString × QVariant) : Prop :=
  (e.2.isValid = true ∧ (counted eq ((outMap.lookup e.1).getD .invalid) e.2 = true ∨
    uncounted ((outMap.lookup e.1).getD .invalid) e.2 = true)) ∨
  (e.2.isValid = false ∧ (outMap.lookup e.1).isSome = true)

/-- A patch changes a map if one of its entries does. -/
theorem change_iff {outMap inMap : List (QString × QVariant)} :
    (counted eq (.map outMap) (.map inMap) = true ∨
      uncounted (.map outMap) (.map inMap) = true) ↔
      ∃ e ∈ inMap, ChangedEntry eq outMap e := by
  rw [counted, uncounted, isMap, Bool.not_true, Bool.false_or, countedIn_iff, uncountedIn_iff,
    entriesOf]
  constructor
  · rintro (⟨e, he, hvalid, hc⟩ | ⟨e, he, ⟨hvalid, hu⟩ | hgone⟩)
    · exact ⟨e, he, Or.inl ⟨hvalid, Or.inl hc⟩⟩
    · exact ⟨e, he, Or.inl ⟨hvalid, Or.inr hu⟩⟩
    · exact ⟨e, he, Or.inr hgone⟩
  · rintro ⟨e, he, ⟨hvalid, hc | hu⟩ | hgone⟩
    · exact Or.inl ⟨e, he, hvalid, hc⟩
    · exact Or.inr ⟨e, he, Or.inl ⟨hvalid, hu⟩⟩
    · exact Or.inr ⟨e, he, Or.inr hgone⟩

/-- A value for a key that is not there is a change. -/
private theorem change_of_absent (hnull : ∀ s, s ≠ .invalid → eq .invalid s = false)
    {value : QVariant} (hvalid : value.isValid = true) :
    counted eq .invalid value = true ∨ uncounted .invalid value = true := by
  cases value with
  | leaf s =>
    left
    rw [QVariant.isValid_iff] at hvalid
    have hs : eq .invalid s = false := hnull s (fun h => hvalid (h ▸ rfl))
    rw [counted, QVariant.invalid, QVariant.equals, hs]
    rfl
  | list items => exact Or.inl rfl
  | map entries => exact Or.inr rfl

/-- An entry without a change leaves the map as it is, if its value leaves what it is merged into
as it is. -/
private theorem settled_of_no_change (hnull : ∀ s, s ≠ .invalid → eq .invalid s = false)
    {outMap : List (QString × QVariant)} {e : QString × QVariant} (he : e.2.Ascending)
    (hentry : ¬ ChangedEntry eq outMap e)
    (hsame : ∀ {out : QVariant}, counted eq out e.2 = false → uncounted out e.2 = false →
      (MergePatch eq out none e.2).out = out) : Settled eq outMap e := by
  obtain ⟨hvalue, hgone⟩ := not_or.mp hentry
  have hnone : e.2.isValid = true → counted eq ((outMap.lookup e.1).getD .invalid) e.2 = false ∧
      uncounted ((outMap.lookup e.1).getD .invalid) e.2 = false := by
    intro hvalid
    rw [← Bool.not_eq_true, ← Bool.not_eq_true, ← not_or]
    exact fun h => hvalue ⟨hvalid, h⟩
  constructor
  · intro hnullValue
    rw [← Option.not_isSome_iff_eq_none]
    exact fun hthere => hgone ⟨hnullValue, hthere⟩
  · intro hvalid
    obtain ⟨hc, hu⟩ := hnone hvalid
    rw [mergedUnder, hsame hc hu]
    cases hlookup : outMap.lookup e.1 with
    | some old => rfl
    | none =>
      rw [hlookup, Option.getD_none] at hc hu
      rcases change_of_absent hnull hvalid with h | h
      · rw [hc] at h
        cases h
      · rw [hu] at h
        cases h
  · intro hvalid
    exact (result_eq_zero_iff he _).mpr (hnone hvalid).1

/-- A patch without a change of either kind leaves everything as it is. -/
theorem unchanged_of_no_change (hnull : ∀ s, s ≠ .invalid → eq .invalid s = false)
    {patch : QVariant} (hpatch : patch.Ascending) {out : QVariant}
    (hcounted : counted eq out patch = false) (huncounted : uncounted out patch = false) :
    (MergePatch eq out none patch).out = out := by
  induction patch using QVariant.memInduction generalizing out with
  | leaf s =>
    rw [counted, Bool.not_eq_false'] at hcounted
    rw [MergePatch, replace_of_equals hcounted]
  | list items =>
    rw [counted, Bool.not_eq_false'] at hcounted
    rw [MergePatch, replace_of_equals hcounted]
  | map inMap ih =>
    rw [QVariant.Ascending, QVariant.ascendingMap_iff] at hpatch
    cases out with
    | leaf s => cases huncounted
    | list items => cases huncounted
    | map outMap =>
      have hchange : ¬ ∃ e ∈ inMap, ChangedEntry eq outMap e := by
        rw [← change_iff, hcounted, huncounted]
        simp
      have hsettled : ∀ e ∈ inMap, Settled eq outMap e := by
        intro e he
        exact settled_of_no_change hnull (hpatch.2 e he) (fun h => hchange ⟨e, he, h⟩)
          (ih e he (hpatch.2 e he))
      exact congrArg QVariant.map (mergeEntries_of_settled hsettled).1

/-- A value that was replaced differs from the one before. -/
private theorem not_equals_replace {out patch : QVariant}
    (h : (!QVariant.equals eq out patch) = true) :
    QVariant.equals eq out (replaceUnlessEqual eq out none patch).out = false := by
  rw [Bool.not_eq_true'] at h
  rw [replaceUnlessEqual, h]
  exact h

/-- A change of either kind can be told. -/
theorem not_equals_of_change {patch : QVariant} (hpatch : patch.Ascending) {out : QVariant}
    (hchange : counted eq out patch = true ∨ uncounted out patch = true) :
    QVariant.equals eq out (MergePatch eq out none patch).out = false := by
  induction patch using QVariant.memInduction generalizing out with
  | leaf s => exact not_equals_replace (hchange.resolve_right Bool.false_ne_true)
  | list items => exact not_equals_replace (hchange.resolve_right Bool.false_ne_true)
  | map inMap ih =>
    rw [QVariant.Ascending, QVariant.ascendingMap_iff] at hpatch
    cases out with
    | leaf s => rfl
    | list items => rfl
    | map outMap =>
      obtain ⟨e, he, hcase⟩ := change_iff.mp hchange
      have hlookup : (mergeEntries eq outMap none inMap).outMap.lookup e.1 = _ :=
        lookup_mergeEntries_of_mem (distinct_of_ascending hpatch.1) he outMap
      rw [MergePatch, ← Bool.not_eq_true]
      intro hequal
      have hboth := QVariant.equalsMap_lookup hequal e.1
      rw [entriesOf, Option.map_none, hlookup] at hboth
      rcases hcase with ⟨hvalid, hdiffers⟩ | ⟨hnull, hthere⟩
      · rw [hvalid, if_pos rfl] at hboth
        rcases hboth with ⟨-, hno⟩ | ⟨v, w, hv, hw, hvw⟩
        · cases hno
        · have hne := ih e he (hpatch.2 e he) hdiffers
          rw [hv, Option.getD_some] at hne
          rw [mergedUnder, hv, Option.getD_some, Option.some.injEq] at hw
          rw [hw, hvw] at hne
          cases hne
      · rw [hnull, if_neg Bool.false_ne_true] at hboth
        rcases hboth with ⟨hno, -⟩ | ⟨v, w, -, hw, -⟩
        · rw [hno] at hthere
          cases hthere
        · cases hw

/-- `MergePatch` returns nothing exactly when nothing has changed, if and only if the patch has a
change that is counted or none that is not. -/
theorem result_tells_iff (hrefl : ∀ s, s.isNaN = false → eq s s = true)
    (hnull : ∀ s, s ≠ .invalid → eq .invalid s = false) {out patch : QVariant}
    (hpatch : patch.Ascending) (hout : out.NoNaN) (diff : Option QVariant) :
    ((MergePatch eq out diff patch).result = 0 ↔
        QVariant.equals eq out (MergePatch eq out diff patch).out = true) ↔
      counted eq out patch = true ∨ uncounted out patch = false := by
  rw [(MergePatch_diff out diff patch).1, (MergePatch_diff out diff patch).2,
    result_eq_zero_iff hpatch]
  cases hc : counted eq out patch with
  | true => simp [not_equals_of_change hpatch (Or.inl hc)]
  | false =>
    cases hu : uncounted out patch with
    | true => simp [not_equals_of_change hpatch (Or.inr hu)]
    | false =>
      rw [unchanged_of_no_change hnull hpatch hc hu]
      simp [QVariant.equals_refl hrefl hout]

/-- A value is replaced, and a key is removed. -/
theorem result_tells_replaced :
    ((MergePatch (· == ·) (.map [([97], .leaf (.int 1)), ([98], .leaf (.int 2))]) none
        (.map [([97], .leaf (.int 3)), ([98], .invalid)])).result = 0 ↔
      QVariant.equals (· == ·) (.map [([97], .leaf (.int 1)), ([98], .leaf (.int 2))])
        (MergePatch (· == ·) (.map [([97], .leaf (.int 1)), ([98], .leaf (.int 2))]) none
          (.map [([97], .leaf (.int 3)), ([98], .invalid)])).out = true) := by
  refine (result_tells_iff (fun s _ => beq_self_eq_true s) ?_ ?_ ?_ none).mpr
    (Or.inl (by decide))
  · intro s hs
    exact beq_eq_false_iff_ne.mpr (Ne.symm hs)
  · simp only [QVariant.Ascending, QVariant.AscendingMap, QVariant.invalid]
    decide
  · simp [QVariant.NoNaN, QVariant.EveryLeaf, QVariant.EveryLeafMap, Scalar.isNaN]

/-- A key is removed, and one has an empty map where it had a number: neither is counted. -/
theorem result_silent :
    (MergePatch (· == ·) (.map [([97], .leaf (.int 1))]) none (.map [([97], .invalid)])).result =
        0 ∧
      (MergePatch (· == ·) (.map [([97], .leaf (.int 1))]) none (.map [([97], .invalid)])).out =
        .map [] ∧
      ¬ ((MergePatch (· == ·) (.map [([97], .leaf (.int 1))]) none
          (.map [([97], .invalid)])).result = 0 ↔
        QVariant.equals (· == ·) (.map [([97], .leaf (.int 1))])
          (MergePatch (· == ·) (.map [([97], .leaf (.int 1))]) none
            (.map [([97], .invalid)])).out = true) ∧
      (MergePatch (· == ·) (.map [([97], .leaf (.int 1))]) none
        (.map [([97], .map [])])).result = 0 ∧
      (MergePatch (· == ·) (.map [([97], .leaf (.int 1))]) none (.map [([97], .map [])])).out =
        .map [([97], .map [])] := by
  decide

end Radapter
