import Radapter.Merge.Equality

/-!
# Merging patches

`MergePatch` merges a patch into a message in place, as RFC 7396 does, and notes what it changed in
a second tree. A value that equals the one of the patch is left as it is; so the result is the one
of the RFC up to equality. A patch that has been merged is merged again without a change.
-/

namespace Radapter

open Library

/-! ## The merge of the RFC -/

mutual

/-- `MergePatch(Target, Patch)` of RFC 7396. -/
def jsonMerge (target : QVariant) : QVariant → QVariant
  | .map members => .map (mergeMembers (entriesOf target) members)
  | .list items => .list items
  | .leaf s => .leaf s

/-- The loop over the members of an object patch. A name that is not in the object has no value,
which is not an object. -/
def mergeMembers (object : List (QString × QVariant)) :
    List (QString × QVariant) → List (QString × QVariant)
  | [] => object
  | (name, value) :: rest =>
      if value.isValid then
        let member := jsonMerge ((object.lookup name).getD .invalid) value
        mergeMembers (setEntry name member object) rest
      else mergeMembers (Assoc.erase name object) rest

end

/-! ## The merge of the program -/

/-- What a call leaves in `out` and in the tree that `diff` points to, if it does, and what it
returns. -/
structure Merged where
  out : QVariant
  diff : Option QVariant
  result : ℕ

structure MergedMap where
  outMap : List (QString × QVariant)
  diffMap : Option (List (QString × QVariant))
  result : ℕ

section MergePatch

variable (eq : Scalar → Scalar → Bool)

/-- The branch for a patch that is not a map. -/
def replaceUnlessEqual (out : QVariant) (diff : Option QVariant) (patch : QVariant) : Merged :=
  if QVariant.equals eq out patch then ⟨out, diff, 0⟩
  else ⟨patch, diff.map (fun _ => patch), 1⟩

mutual

def MergePatch (out : QVariant) (diff : Option QVariant) : QVariant → Merged
  | .map inMap =>
      let merged := mergeEntries (entriesOf out) (diff.map entriesOf) inMap
      ⟨.map merged.outMap, merged.diffMap.map QVariant.map, merged.result⟩
  | .list items => replaceUnlessEqual eq out diff (.list items)
  | .leaf s => replaceUnlessEqual eq out diff (.leaf s)

/-- The loop over the entries of the patch. `(*diffMap)[it->first]` makes an entry in any case. -/
def mergeEntries (outMap : List (QString × QVariant))
    (diffMap : Option (List (QString × QVariant))) : List (QString × QVariant) → MergedMap
  | [] => ⟨outMap, diffMap, 0⟩
  | (key, value) :: rest =>
      let diffMap := diffMap.map (updateEntry key id)
      let diffValue := diffMap.map (fun entries => (entries.lookup key).getD .invalid)
      if !value.isValid then
        if (outMap.lookup key).isSome then
          mergeEntries (Assoc.erase key outMap) (diffMap.map (setEntry key .invalid)) rest
        else mergeEntries outMap diffMap rest
      else
        -- `outMap[it->first]` is a null if the key is not there
        let merged := MergePatch ((outMap.lookup key).getD .invalid) diffValue value
        let diffMap := diffMap.map (setEntry key (merged.diff.getD .invalid))
        let later := mergeEntries (setEntry key merged.out outMap) diffMap rest
        { later with result := merged.result + later.result }

end

end MergePatch

variable {eq : Scalar → Scalar → Bool}

/-- The message `{"a": 1, "b": 2}`, its `a` removed and a `c` merged into it. -/
example : (MergePatch (· == ·) (.map [([97], .leaf (.int 1)), ([98], .leaf (.int 2))])
    (some .invalid) (.map [([97], .invalid), ([99], .map [([100], .leaf (.int 3))])])).out =
      .map [([98], .leaf (.int 2)), ([99], .map [([100], .leaf (.int 3))])] := by decide

/-! ## The merge is the one of the RFC -/

/-- What is not replaced is equal to the patch. -/
theorem equals_replace (hrefl : ∀ s, s.isNaN = false → eq s s = true) (out : QVariant)
    (diff : Option QVariant) {patch : QVariant} (hpatch : patch.NoNaN) :
    QVariant.equals eq (replaceUnlessEqual eq out diff patch).out patch = true := by
  rw [replaceUnlessEqual]
  split_ifs with heq
  · exact heq
  · exact QVariant.equals_refl hrefl hpatch

/-- An equal value is not replaced and not counted. -/
theorem replace_of_equals {out patch : QVariant} (h : QVariant.equals eq out patch = true)
    (diff : Option QVariant) : replaceUnlessEqual eq out diff patch = ⟨out, diff, 0⟩ := by
  rw [replaceUnlessEqual, if_pos h]

mutual

/-- Equal messages have equal results, whether or not the difference is noted. -/
theorem equals_jsonMerge (hrefl : ∀ s, s.isNaN = false → eq s s = true) {out target : QVariant}
    (hout : QVariant.equals eq out target = true) (diff : Option QVariant) {patch : QVariant}
    (hpatch : patch.NoNaN) :
    QVariant.equals eq (MergePatch eq out diff patch).out (jsonMerge target patch) = true := by
  cases patch with
  | leaf s => exact equals_replace hrefl out diff hpatch
  | list items => exact equals_replace hrefl out diff hpatch
  | map inMap =>
    have hentries : QVariant.equalsMap eq (entriesOf out) (entriesOf target) = true := by
      cases out <;> cases target <;> first | exact hout | rfl | cases hout
    exact equalsMap_mergeMembers hrefl hentries (diff.map entriesOf) hpatch

/-- The members of a patch, merged as the RFC says into an equal object, give an equal object. -/
theorem equalsMap_mergeMembers (hrefl : ∀ s, s.isNaN = false → eq s s = true)
    {outMap object : List (QString × QVariant)}
    (hout : QVariant.equalsMap eq outMap object = true)
    (diffMap : Option (List (QString × QVariant))) {inMap : List (QString × QVariant)}
    (hinMap : QVariant.EveryLeafMap (fun s => s.isNaN = false) inMap) :
    QVariant.equalsMap eq (mergeEntries eq outMap diffMap inMap).outMap
      (mergeMembers object inMap) = true := by
  cases inMap with
  | nil => exact hout
  | cons e rest =>
    obtain ⟨hvalue, hrest⟩ := hinMap
    rw [mergeEntries, mergeMembers]
    cases hvalid : e.2.isValid with
    | false =>
      simp only [Bool.not_false, if_true, Bool.false_eq_true, if_false]
      rcases QVariant.equalsMap_lookup hout e.1 with ⟨hnone, hnone'⟩ | ⟨v, w, hsome, -⟩
      · rw [hnone, Option.isSome_none, if_neg Bool.false_ne_true, Assoc.erase_of_lookup hnone']
        exact equalsMap_mergeMembers hrefl hout _ hrest
      · rw [hsome, Option.isSome_some, if_pos rfl]
        exact equalsMap_mergeMembers hrefl (QVariant.equalsMap_erase hout e.1) _ hrest
    | true =>
      simp only [Bool.not_true, Bool.false_eq_true, if_false, if_true]
      have hold : QVariant.equals eq ((outMap.lookup e.1).getD .invalid)
          ((object.lookup e.1).getD .invalid) = true := by
        rcases QVariant.equalsMap_lookup hout e.1 with ⟨hnone, hnone'⟩ | ⟨v, w, hsome, hsome', hvw⟩
        · rw [hnone, hnone']
          exact hrefl .invalid rfl
        · rw [hsome, hsome']
          exact hvw
      exact equalsMap_mergeMembers hrefl
        (QVariant.equalsMap_setEntry hout (equals_jsonMerge hrefl hold _ hvalue) e.1) _ hrest

end

/-! ## The second time -/

mutual

/-- What is left in `out` and what is returned does not depend on the tree that `diff` points to. -/
theorem MergePatch_diff (out : QVariant) (diff : Option QVariant) (patch : QVariant) :
    (MergePatch eq out diff patch).out = (MergePatch eq out none patch).out ∧
      (MergePatch eq out diff patch).result = (MergePatch eq out none patch).result := by
  have hreplace : ∀ p : QVariant,
      (replaceUnlessEqual eq out diff p).out = (replaceUnlessEqual eq out none p).out ∧
        (replaceUnlessEqual eq out diff p).result =
          (replaceUnlessEqual eq out none p).result := by
    intro p
    rw [replaceUnlessEqual, replaceUnlessEqual]
    split_ifs
    · exact ⟨rfl, rfl⟩
    · exact ⟨rfl, rfl⟩
  cases patch with
  | leaf s => exact hreplace _
  | list items => exact hreplace _
  | map inMap =>
    obtain ⟨hout, hresult⟩ := mergeEntries_diff (entriesOf out) (diff.map entriesOf) inMap
    exact ⟨congrArg QVariant.map hout, hresult⟩

/-- Whether a diff is asked for does not matter to the map or to the count. -/
theorem mergeEntries_diff (outMap : List (QString × QVariant))
    (diffMap : Option (List (QString × QVariant))) (inMap : List (QString × QVariant)) :
    (mergeEntries eq outMap diffMap inMap).outMap = (mergeEntries eq outMap none inMap).outMap ∧
      (mergeEntries eq outMap diffMap inMap).result =
        (mergeEntries eq outMap none inMap).result := by
  cases inMap with
  | nil => exact ⟨rfl, rfl⟩
  | cons e rest =>
    rw [mergeEntries, mergeEntries]
    cases hvalid : e.2.isValid with
    | false =>
      simp only [Bool.not_false, if_true, Option.map_none]
      split_ifs
      · exact mergeEntries_diff _ _ rest
      · exact mergeEntries_diff _ _ rest
    | true =>
      simp only [Bool.not_true, Bool.false_eq_true, if_false, Option.map_none]
      obtain ⟨hvalue, hcount⟩ := MergePatch_diff ((outMap.lookup e.1).getD .invalid)
        ((diffMap.map (updateEntry e.1 id)).map (fun entries => (entries.lookup e.1).getD .invalid))
        e.2
      rw [hvalue, hcount]
      obtain ⟨hlater, hlaterCount⟩ := mergeEntries_diff (setEntry e.1 (MergePatch eq
        ((outMap.lookup e.1).getD .invalid) none e.2).out outMap) _ rest
      exact ⟨hlater, congrArg _ hlaterCount⟩

end

section Entries

variable (eq : Scalar → Scalar → Bool) (outMap : List (QString × QVariant))

/-- The merge of the value of an entry into what its key has. -/
def mergedUnder (e : QString × QVariant) : Merged :=
  MergePatch eq ((outMap.lookup e.1).getD .invalid) none e.2

/-- The map after one round of the loop. -/
def mergedEntry (e : QString × QVariant) : List (QString × QVariant) :=
  if e.2.isValid then setEntry e.1 (mergedUnder eq outMap e).out outMap
  else Assoc.erase e.1 outMap

/-- What one round adds to the result. -/
def countedEntry (e : QString × QVariant) : ℕ :=
  if e.2.isValid then (mergedUnder eq outMap e).result else 0

end Entries

/-- The loop makes one round for the first entry and goes on with what it has left. -/
theorem mergeEntries_cons (outMap : List (QString × QVariant)) (e : QString × QVariant)
    (rest : List (QString × QVariant)) :
    (mergeEntries eq outMap none (e :: rest)).outMap =
        (mergeEntries eq (mergedEntry eq outMap e) none rest).outMap ∧
      (mergeEntries eq outMap none (e :: rest)).result = countedEntry eq outMap e +
        (mergeEntries eq (mergedEntry eq outMap e) none rest).result := by
  rw [mergeEntries, mergedEntry, countedEntry]
  cases hvalid : e.2.isValid with
  | false =>
    simp only [Bool.not_false, if_true, Bool.false_eq_true, if_false, Option.map_none, Nat.zero_add]
    cases hlookup : outMap.lookup e.1 with
    | none => rw [Assoc.erase_of_lookup hlookup]; exact ⟨rfl, rfl⟩
    | some old => exact ⟨rfl, rfl⟩
  | true =>
    simp only [Bool.not_true, Bool.false_eq_true, if_false, if_true, Option.map_none]
    exact ⟨rfl, rfl⟩

/-- A round changes its own key only. -/
theorem lookup_mergedEntry_ne (outMap : List (QString × QVariant)) {e : QString × QVariant}
    {other : QString} (h : other ≠ e.1) :
    (mergedEntry eq outMap e).lookup other = outMap.lookup other := by
  rw [mergedEntry]
  split_ifs
  · exact lookup_setEntry_ne h _ outMap
  · exact Assoc.lookup_erase_ne h outMap

/-- A later round does not depend on an earlier one for another key. -/
theorem mergedUnder_mergedEntry (outMap : List (QString × QVariant)) {e e' : QString × QVariant}
    (h : e'.1 ≠ e.1) :
    mergedUnder eq (mergedEntry eq outMap e) e' = mergedUnder eq outMap e' := by
  rw [mergedUnder, lookup_mergedEntry_ne outMap h, mergedUnder]

/-! ## Merges that go through a map entry by entry -/

/-- A level that a patch finds there is a map. -/
def isMap : QVariant → Bool
  | .map _ => true
  | .list _ => false
  | .leaf _ => false

/-- A merge that takes over a value it does not have, and goes through the entries of a map one
after the other. Both `jsonMerge` and `MergePatch` are such merges. -/
structure EntryMerge (eq : Scalar → Scalar → Bool) (merge : QVariant → QVariant → QVariant)
    (loop : List (QString × QVariant) → List (QString × QVariant) → List (QString × QVariant)) :
    Prop where
  replaced : ∀ {out patch : QVariant}, isMap patch = false →
    (QVariant.equals eq out patch = true → out = patch) → merge out patch = patch
  map : ∀ (out : QVariant) (inMap : List (QString × QVariant)),
    merge out (.map inMap) = .map (loop (entriesOf out) inMap)
  nil : ∀ outMap : List (QString × QVariant), loop outMap [] = outMap
  cons : ∀ (outMap : List (QString × QVariant)) (e : QString × QVariant)
    (rest : List (QString × QVariant)), loop outMap (e :: rest) =
      loop (if e.2.isValid then setEntry e.1 (merge ((outMap.lookup e.1).getD .invalid) e.2) outMap
        else Assoc.erase e.1 outMap) rest

/-- The merge of the RFC goes through the entries one after the other. -/
theorem entryMerge_jsonMerge : EntryMerge eq jsonMerge mergeMembers := by
  constructor
  · intro out patch hpatch _
    cases patch with
    | leaf s => rfl
    | list items => rfl
    | map inMap => cases hpatch
  · intro out inMap
    rfl
  · intro outMap
    rfl
  · intro outMap e rest
    rw [mergeMembers]
    split_ifs
    · rfl
    · rfl

/-- So does `MergePatch`. -/
theorem entryMerge_MergePatch : EntryMerge eq (fun out patch => (MergePatch eq out none patch).out)
    (fun outMap inMap => (mergeEntries eq outMap none inMap).outMap) := by
  constructor
  · intro out patch hpatch hsame
    have hreplace : (replaceUnlessEqual eq out none patch).out = patch := by
      rw [replaceUnlessEqual]
      split_ifs with heq
      · exact hsame heq
      · rfl
    cases patch with
    | leaf s => exact hreplace
    | list items => exact hreplace
    | map inMap => cases hpatch
  · intro out inMap
    rfl
  · intro outMap
    rfl
  · intro outMap e rest
    exact (mergeEntries_cons outMap e rest).1

section Lookups

variable {merge : QVariant → QVariant → QVariant}
  {loop : List (QString × QVariant) → List (QString × QVariant) → List (QString × QVariant)}

/-- A key that is not in the patch keeps its value. -/
theorem EntryMerge.lookup_of_notMem (h : EntryMerge eq merge loop)
    {inMap : List (QString × QVariant)}
    {key : QString} (hkey : key ∉ inMap.map Prod.fst) (outMap : List (QString × QVariant)) :
    (loop outMap inMap).lookup key = outMap.lookup key := by
  induction inMap generalizing outMap with
  | nil => rw [h.nil]
  | cons e rest ih =>
    rw [List.map_cons, List.mem_cons, not_or] at hkey
    rw [h.cons, ih hkey.2]
    split_ifs
    · exact lookup_setEntry_ne hkey.1 _ outMap
    · exact Assoc.lookup_erase_ne hkey.1 outMap

/-- A key of the patch has what was merged into its value, or nothing if the patch has a null. -/
theorem EntryMerge.lookup_of_mem (h : EntryMerge eq merge loop) {inMap : List (QString × QVariant)}
    (hinMap : Assoc.Distinct inMap) {e : QString × QVariant} (he : e ∈ inMap)
    (outMap : List (QString × QVariant)) :
    (loop outMap inMap).lookup e.1 =
      if e.2.isValid then some (merge ((outMap.lookup e.1).getD .invalid) e.2) else none := by
  induction inMap generalizing outMap with
  | nil => cases he
  | cons first rest ih =>
    obtain ⟨hfirst, hrest⟩ := List.nodup_cons.mp hinMap
    rw [h.cons]
    rcases List.mem_cons.mp he with rfl | hmem
    · rw [h.lookup_of_notMem hfirst]
      split_ifs
      · exact lookup_setEntry_self e.1 _ outMap
      · exact Assoc.lookup_erase_self e.1 outMap
    · have hne : e.1 ≠ first.1 := fun heq => hfirst (heq ▸ List.mem_map_of_mem hmem)
      rw [ih hrest hmem]
      have hsame : (if first.2.isValid then
            setEntry first.1 (merge ((outMap.lookup first.1).getD .invalid) first.2) outMap
          else Assoc.erase first.1 outMap).lookup e.1 = outMap.lookup e.1 := by
        split_ifs
        · exact lookup_setEntry_ne hne _ outMap
        · exact Assoc.lookup_erase_ne hne outMap
      rw [hsame]

end Lookups

/-- A key of the patch has what was merged into its value, or nothing if the patch has a null. -/
theorem lookup_mergeEntries_of_mem {inMap : List (QString × QVariant)}
    (hinMap : Assoc.Distinct inMap) {e : QString × QVariant} (he : e ∈ inMap)
    (outMap : List (QString × QVariant)) :
    (mergeEntries eq outMap none inMap).outMap.lookup e.1 =
      if e.2.isValid then some (mergedUnder eq outMap e).out else none :=
  entryMerge_MergePatch.lookup_of_mem hinMap he outMap

/-! ## Patches that change nothing -/

/-- The patch has nothing to change under the key of the entry. -/
structure Settled (eq : Scalar → Scalar → Bool) (outMap : List (QString × QVariant))
    (e : QString × QVariant) : Prop where
  absent : e.2.isValid = false → outMap.lookup e.1 = none
  unchanged : e.2.isValid = true → outMap.lookup e.1 = some (mergedUnder eq outMap e).out
  uncounted : e.2.isValid = true → (mergedUnder eq outMap e).result = 0

/-- A patch that has nothing to change changes nothing, and counts nothing. -/
theorem mergeEntries_of_settled {outMap inMap : List (QString × QVariant)}
    (h : ∀ e ∈ inMap, Settled eq outMap e) :
    (mergeEntries eq outMap none inMap).outMap = outMap ∧
      (mergeEntries eq outMap none inMap).result = 0 := by
  induction inMap with
  | nil => exact ⟨rfl, rfl⟩
  | cons e rest ih =>
    obtain ⟨hsame, hcount⟩ := mergeEntries_cons outMap e rest
    have hsettled := h e List.mem_cons_self
    have hentry : mergedEntry eq outMap e = outMap := by
      rw [mergedEntry]
      split_ifs with hvalid
      · exact setEntry_of_lookup (hsettled.unchanged hvalid)
      · exact Assoc.erase_of_lookup (hsettled.absent (Bool.eq_false_iff.mpr hvalid))
    have hzero : countedEntry eq outMap e = 0 := by
      rw [countedEntry]
      split_ifs with hvalid
      · exact hsettled.uncounted hvalid
      · rfl
    obtain ⟨hlater, hlaterCount⟩ := ih (fun e' he' => h e' (List.mem_cons_of_mem e he'))
    rw [hsame, hcount, hentry, hzero, hlater, hlaterCount]
    exact ⟨rfl, rfl⟩

/-- The keys of a map of a message are distinct. -/
theorem distinct_of_ascending {entries : List (QString × QVariant)}
    (h : (entries.map Prod.fst).Pairwise (· < ·)) : Assoc.Distinct entries := by
  refine h.imp ?_
  rintro a b hlt rfl
  exact List.lt_irrefl a hlt

/-- A patch that has been merged has nothing left to change. -/
theorem MergePatch_again (hrefl : ∀ s, s.isNaN = false → eq s s = true) {patch : QVariant}
    (hpatch : patch.Ascending) (hnan : patch.NoNaN) (out : QVariant) :
    (MergePatch eq (MergePatch eq out none patch).out none patch).out =
        (MergePatch eq out none patch).out ∧
      (MergePatch eq (MergePatch eq out none patch).out none patch).result = 0 := by
  induction patch using QVariant.memInduction generalizing out with
  | leaf s =>
    rw [MergePatch, MergePatch, replace_of_equals (equals_replace hrefl out none hnan) none]
    exact ⟨rfl, rfl⟩
  | list items =>
    rw [MergePatch, MergePatch, replace_of_equals (equals_replace hrefl out none hnan) none]
    exact ⟨rfl, rfl⟩
  | map inMap ih =>
    rw [QVariant.Ascending, QVariant.ascendingMap_iff] at hpatch
    rw [QVariant.NoNaN, QVariant.EveryLeaf, QVariant.everyLeafMap_iff] at hnan
    have hsettled : ∀ e ∈ inMap,
        Settled eq (mergeEntries eq (entriesOf out) none inMap).outMap e := by
      intro e he
      have hlookup : (mergeEntries eq (entriesOf out) none inMap).outMap.lookup e.1 = _ :=
        lookup_mergeEntries_of_mem (distinct_of_ascending hpatch.1) he (entriesOf out)
      obtain ⟨hsame, hcount⟩ := ih e he (hpatch.2 e he) (hnan e he)
        (((entriesOf out).lookup e.1).getD .invalid)
      constructor
      · intro hnull
        rw [hlookup, hnull]
        rfl
      · intro hvalid
        rw [hvalid, if_pos rfl] at hlookup
        rw [mergedUnder, hlookup, Option.getD_some]
        exact congrArg some hsame.symm
      · intro hvalid
        rw [hvalid, if_pos rfl] at hlookup
        rw [mergedUnder, hlookup, Option.getD_some]
        exact hcount
    obtain ⟨hsame, hcount⟩ := mergeEntries_of_settled hsettled
    exact ⟨congrArg QVariant.map hsame, hcount⟩

/-- `MergePatch` leaves in `out` the merge of the RFC, up to equality, whether or not the difference
is noted; and the same patch changes nothing the second time. -/
theorem MergePatch_merges (hrefl : ∀ s, s.isNaN = false → eq s s = true) {out patch : QVariant}
    (hpatch : patch.Ascending) (hout : out.NoNaN) (hnan : patch.NoNaN)
    (diff diff' : Option QVariant) :
    QVariant.equals eq (MergePatch eq out diff patch).out (jsonMerge out patch) = true ∧
      (MergePatch eq out diff patch).out = (MergePatch eq out none patch).out ∧
      (MergePatch eq (MergePatch eq out diff patch).out diff' patch).result = 0 ∧
      (MergePatch eq (MergePatch eq out diff patch).out diff' patch).out =
        (MergePatch eq out diff patch).out := by
  have hnoDiff : (MergePatch eq out diff patch).out = (MergePatch eq out none patch).out :=
    (MergePatch_diff out diff patch).1
  obtain ⟨hsame, hcount⟩ := MergePatch_again hrefl hpatch hnan out
  rw [hnoDiff, (MergePatch_diff _ diff' patch).1, (MergePatch_diff _ diff' patch).2]
  exact ⟨hnoDiff ▸ equals_jsonMerge hrefl (QVariant.equals_refl hrefl hout) diff hnan, rfl, hcount,
    hsame⟩

/-- A null member of a new map and one of an old map, with leaves that are compared as they are. -/
theorem MergePatch_merges_nested :
    let out : QVariant := .map [([97], .leaf (.int 1)), ([98], .map [([99], .leaf (.int 2))])]
    let patch : QVariant := .map [([98], .map [([99], .invalid)]),
      ([100], .map [([101], .invalid), ([102], .leaf (.bool true))])]
    jsonMerge out patch = .map [([97], .leaf (.int 1)), ([98], .map []),
        ([100], .map [([102], .leaf (.bool true))])] ∧
      QVariant.equals (· == ·) (MergePatch (· == ·) out (some .invalid) patch).out
        (jsonMerge out patch) = true ∧
      (MergePatch (· == ·) out (some .invalid) patch).out =
        (MergePatch (· == ·) out none patch).out ∧
      (MergePatch (· == ·) (MergePatch (· == ·) out (some .invalid) patch).out none
        patch).result = 0 ∧
      (MergePatch (· == ·) (MergePatch (· == ·) out (some .invalid) patch).out none patch).out =
        (MergePatch (· == ·) out (some .invalid) patch).out := by
  refine ⟨by decide, MergePatch_merges (fun s _ => beq_self_eq_true s) ?_ ?_ ?_ _ _⟩
  · simp only [QVariant.Ascending, QVariant.AscendingMap, QVariant.invalid]
    decide
  · simp [QVariant.NoNaN, QVariant.EveryLeaf, QVariant.EveryLeafMap, Scalar.isNaN]
  · simp [QVariant.NoNaN, QVariant.EveryLeaf, QVariant.EveryLeafMap, Scalar.isNaN,
      QVariant.invalid]

end Radapter
