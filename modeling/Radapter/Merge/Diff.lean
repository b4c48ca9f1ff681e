import Radapter.Merge.Count

/-!
# The difference that `MergePatch` notes

The tree that `diff` points to gets an entry for every key of the patch. The entry is made as a
null, and it stays one where the patch has the value that is there already. In a patch a null
removes its key; so the difference, merged into the old message, removes what the patch repeats, and
leads to the new message only if the patch repeats nothing.
-/

namespace Radapter

open Library

variable {eq : Scalar → Scalar → Bool}

/-! ## What is noted -/

section Noted

variable (eq : Scalar → Scalar → Bool)

/-- The tree that `diff` points to after the call, if it was null before. -/
def noted (out patch : QVariant) : QVariant :=
  ((MergePatch eq out (some .invalid) patch).diff).getD .invalid

/-- The entry for a key of the patch. -/
def notedEntry (outMap : List (QString × QVariant)) (e : QString × QVariant) : QVariant :=
  if e.2.isValid then noted eq ((outMap.lookup e.1).getD .invalid) e.2 else .invalid

mutual

/-- The patch has a value that is not a map and that is there already. -/
def repeated (out : QVariant) : QVariant → Bool
  | .map inMap => repeatedIn (entriesOf out) inMap
  | .list items => out.isValid && QVariant.equals eq out (.list items)
  | .leaf s => out.isValid && QVariant.equals eq out (.leaf s)

def repeatedIn (outMap : List (QString × QVariant)) : List (QString × QVariant) → Bool
  | [] => false
  | (key, value) :: rest =>
      value.isValid && repeated ((outMap.lookup key).getD .invalid) value || repeatedIn outMap rest

end

end Noted

/-- A patch repeats what is there if one of its entries does. -/
theorem repeatedIn_iff {outMap inMap : List (QString × QVariant)} :
    repeatedIn eq outMap inMap = true ↔ ∃ e ∈ inMap, e.2.isValid = true ∧
      repeated eq ((outMap.lookup e.1).getD .invalid) e.2 = true := by
  induction inMap with
  | nil => simp [repeatedIn]
  | cons e rest ih =>
    rw [repeatedIn, Bool.or_eq_true, Bool.and_eq_true, ih, List.exists_mem_cons_iff]

/-- A patch that is no map repeats an equal value. -/
theorem repeated_of_not_isMap {out patch : QVariant} (hpatch : isMap patch = false) :
    repeated eq out patch = (out.isValid && QVariant.equals eq out patch) := by
  cases patch with
  | leaf s => rfl
  | list items => rfl
  | map inMap => cases hpatch

/-- Such a patch replaces the value unless it is equal. -/
theorem MergePatch_of_not_isMap (out : QVariant) (diff : Option QVariant) {patch : QVariant}
    (hpatch : isMap patch = false) :
    MergePatch eq out diff patch = replaceUnlessEqual eq out diff patch := by
  cases patch with
  | leaf s => rfl
  | list items => rfl
  | map inMap => cases hpatch

/-- A value that is not a map is noted if it differs from what is there. -/
theorem noted_of_not_isMap (out : QVariant) {patch : QVariant} (hpatch : isMap patch = false) :
    noted eq out patch = if QVariant.equals eq out patch then .invalid else patch := by
  rw [noted, MergePatch_of_not_isMap out _ hpatch, replaceUnlessEqual]
  split_ifs
  · rfl
  · rfl

/-- A key behind all others goes to the end. -/
private theorem updateEntry_of_before {key : QString} {entries : List (QString × QVariant)}
    (h : ∀ e ∈ entries, e.1 < key) : updateEntry key id entries = entries ++ [(key, .invalid)] := by
  induction entries with
  | nil => rfl
  | cons e rest ih =>
    have hlt := h e List.mem_cons_self
    have hnot : ¬ key < e.1 := fun hgt => List.lt_irrefl key (List.lt_trans hgt hlt)
    have hne : ¬ key = e.1 := by
      rintro rfl
      exact List.lt_irrefl _ hlt
    rw [updateEntry, if_neg hnot, if_neg hne, ih (fun e' he' => h e' (List.mem_cons_of_mem e he')),
      List.cons_append]

/-- It was not there. -/
private theorem lookup_of_before {key : QString} {entries : List (QString × QVariant)}
    (h : ∀ e ∈ entries, e.1 < key) : entries.lookup key = none := by
  rw [List.lookup_eq_none_iff]
  intro e he
  rw [bne_iff_ne]
  rintro rfl
  exact List.lt_irrefl _ (h e he)

/-- The last key is set in place. -/
private theorem setEntry_concat {key : QString} {entries : List (QString × QVariant)}
    (h : ∀ e ∈ entries, e.1 < key) (value : QVariant) :
    setEntry key value (entries ++ [(key, .invalid)]) = entries ++ [(key, value)] := by
  have hthere : (entries ++ [(key, QVariant.invalid)]).lookup key = some .invalid := by
    rw [Assoc.lookup_concat (lookup_of_before h), if_pos rfl]
  rw [setEntry, hthere, Option.isSome_some, if_pos rfl]
  clear hthere
  induction entries with
  | nil => simp [Assoc.put]
  | cons e rest ih =>
    have hne : ¬ e.1 = key := by
      rintro rfl
      exact List.lt_irrefl _ (h e List.mem_cons_self)
    rw [List.cons_append, Assoc.put, if_neg hne, List.cons_append,
      ih (fun e' he' => h e' (List.mem_cons_of_mem e he'))]

/-- For a value that is given, the diff notes what merging it changes. -/
theorem notedEntry_of_isValid (outMap : List (QString × QVariant)) {e : QString × QVariant}
    (hvalid : e.2.isValid = true) :
    notedEntry eq outMap e = noted eq ((outMap.lookup e.1).getD .invalid) e.2 := by
  rw [notedEntry, hvalid, if_pos rfl]

/-- What one round changes is not noted under another key. -/
theorem notedEntry_mergedEntry (outMap : List (QString × QVariant)) {e e' : QString × QVariant}
    (h : e'.1 ≠ e.1) :
    notedEntry eq (mergedEntry eq outMap e) e' = notedEntry eq outMap e' := by
  rw [notedEntry, lookup_mergedEntry_ne outMap h, notedEntry]

/-- Merging an entry leaves the notes of the entries with other keys as they are. -/
private theorem notes_mergedEntry (outMap : List (QString × QVariant)) {e : QString × QVariant}
    {rest : List (QString × QVariant)} (hne : ∀ e' ∈ rest, e'.1 ≠ e.1) :
    rest.map (fun e' => (e'.1, notedEntry eq (mergedEntry eq outMap e) e')) =
      rest.map (fun e' => (e'.1, notedEntry eq outMap e')) := by
  apply List.map_congr_left
  intro e' he'
  rw [notedEntry_mergedEntry outMap (hne e' he')]

/-- One step of the loop: the note of the entry goes to the end of the difference. -/
private theorem diffMap_mergeEntries_cons (outMap : List (QString × QVariant))
    {diffMap : List (QString × QVariant)} {e : QString × QVariant}
    (rest : List (QString × QVariant)) (hlast : ∀ d ∈ diffMap, d.1 < e.1) :
    (mergeEntries eq outMap (some diffMap) (e :: rest)).diffMap =
      (mergeEntries eq (mergedEntry eq outMap e)
        (some (diffMap ++ [(e.1, notedEntry eq outMap e)])) rest).diffMap := by
  rw [mergeEntries, Option.map_some, updateEntry_of_before hlast]
  simp only [Option.map_some, Assoc.lookup_concat (lookup_of_before hlast), if_true,
    Option.getD_some]
  cases hvalid : e.2.isValid with
  | false =>
    have hentry : mergedEntry eq outMap e = Assoc.erase e.1 outMap := by
      rw [mergedEntry, hvalid, if_neg Bool.false_ne_true]
    have hnull : notedEntry eq outMap e = .invalid := by
      rw [notedEntry, hvalid, if_neg Bool.false_ne_true]
    rw [hentry, hnull, Bool.not_false, if_pos rfl, setEntry_concat hlast]
    cases hlookup : outMap.lookup e.1 with
    | none => rw [Option.isSome_none, if_neg Bool.false_ne_true, Assoc.erase_of_lookup hlookup]
    | some old => rw [Option.isSome_some, if_pos rfl]
  | true =>
    have hentry : mergedEntry eq outMap e =
        setEntry e.1 (mergedUnder eq outMap e).out outMap := by
      rw [mergedEntry, hvalid, if_pos rfl]
    rw [hentry, notedEntry_of_isValid outMap hvalid, Bool.not_true, if_neg Bool.false_ne_true,
      setEntry_concat hlast,
      (MergePatch_diff ((outMap.lookup e.1).getD .invalid) (some .invalid) e.2).1]
    rfl

/-- The loop notes an entry for each key of the patch, in the order of the patch. -/
theorem diffMap_mergeEntries {inMap : List (QString × QVariant)}
    (hkeys : (inMap.map Prod.fst).Pairwise (· < ·)) (outMap : List (QString × QVariant))
    {diffMap : List (QString × QVariant)} (hbefore : ∀ d ∈ diffMap, ∀ e ∈ inMap, d.1 < e.1) :
    (mergeEntries eq outMap (some diffMap) inMap).diffMap =
      some (diffMap ++ inMap.map (fun e => (e.1, notedEntry eq outMap e))) := by
  induction inMap generalizing outMap diffMap with
  | nil => rw [mergeEntries, List.map_nil, List.append_nil]
  | cons e rest ih =>
    obtain ⟨hfirst, hrest⟩ := List.pairwise_cons.mp hkeys
    have hlast : ∀ d ∈ diffMap, d.1 < e.1 := fun d hd => hbefore d hd e List.mem_cons_self
    have hlater : ∀ e' ∈ rest, e.1 < e'.1 :=
      fun e' he' => hfirst e'.1 (List.mem_map_of_mem he')
    have hne : ∀ e' ∈ rest, e'.1 ≠ e.1 :=
      fun e' he' heq => List.lt_irrefl e.1 (heq ▸ hlater e' he')
    have hnext : ∀ d ∈ diffMap ++ [(e.1, notedEntry eq outMap e)], ∀ e' ∈ rest, d.1 < e'.1 := by
      intro d hd e' he'
      rcases List.mem_append.mp hd with hd | hd
      · exact hbefore d hd e' (List.mem_cons_of_mem e he')
      · rw [List.mem_singleton.mp hd]
        exact hlater e' he'
    rw [diffMap_mergeEntries_cons outMap rest hlast, ih hrest _ hnext, notes_mergedEntry outMap hne,
      List.append_assoc, List.singleton_append, List.map_cons]

/-- The difference for a map has an entry for each of its keys. -/
theorem noted_map (out : QVariant) {inMap : List (QString × QVariant)}
    (hkeys : (inMap.map Prod.fst).Pairwise (· < ·)) :
    noted eq out (.map inMap) =
      .map (inMap.map (fun e => (e.1, notedEntry eq (entriesOf out) e))) := by
  have hbefore : ∀ d ∈ entriesOf .invalid, ∀ e ∈ inMap, d.1 < e.1 := by
    intro d hd
    cases hd
  rw [noted, MergePatch, Option.map_some, diffMap_mergeEntries hkeys (entriesOf out) hbefore]
  rfl

/-- Called with a null for the difference, `MergePatch` leaves one there. -/
theorem diff_MergePatch (out : QVariant) {patch : QVariant} (hpatch : patch.Ascending) :
    (MergePatch eq out (some .invalid) patch).diff = some (noted eq out patch) := by
  have hsome : (MergePatch eq out (some .invalid) patch).diff.isSome = true := by
    cases hmap : isMap patch with
    | false =>
      rw [MergePatch_of_not_isMap out _ hmap, replaceUnlessEqual]
      split_ifs
      · rfl
      · rfl
    | true =>
      cases patch with
      | leaf s => cases hmap
      | list items => cases hmap
      | map inMap =>
        have hbefore : ∀ d ∈ entriesOf .invalid, ∀ e ∈ inMap, d.1 < e.1 := by
          intro d hd
          cases hd
        rw [MergePatch, Option.map_some, diffMap_mergeEntries hpatch.1 (entriesOf out) hbefore]
        rfl
  obtain ⟨d, hd⟩ := Option.isSome_iff_exists.mp hsome
  rw [noted, hd, Option.getD_some]

/-- A change that is not counted leads to another message. -/
theorem ne_of_uncounted {patch : QVariant} (hpatch : patch.Ascending) {out : QVariant}
    (huncounted : uncounted out patch = true) : out ≠ (MergePatch eq out none patch).out := by
  induction patch using QVariant.memInduction generalizing out with
  | leaf s => cases huncounted
  | list items => cases huncounted
  | map inMap ih =>
    cases out with
    | leaf s => exact fun h => by cases h
    | list items => exact fun h => by cases h
    | map outMap =>
      have hvalues := QVariant.ascendingMap_iff.mp hpatch.2
      rw [uncounted, isMap, Bool.not_true, Bool.false_or, uncountedIn_iff, entriesOf] at huncounted
      obtain ⟨e, he, hcase⟩ := huncounted
      intro hsame
      have hlookup : outMap.lookup e.1 = _ :=
        (congrArg (fun v => (entriesOf v).lookup e.1) hsame).trans
          (lookup_mergeEntries_of_mem (distinct_of_ascending hpatch.1) he outMap)
      rcases hcase with ⟨hvalid, hbelow⟩ | ⟨hnullValue, hthere⟩
      · rw [hvalid, if_pos rfl] at hlookup
        apply ih e he (hvalues e he) hbelow
        conv_lhs => rw [hlookup]
        rfl
      · rw [hlookup, hnullValue] at hthere
        cases hthere

/-! ## The difference as a patch for the old message -/

/-- Merging the entries of the difference takes the same steps as merging those of the patch, if
each of them leads to the same value. -/
private theorem loop_noted {merge : QVariant → QVariant → QVariant}
    {loop : List (QString × QVariant) → List (QString × QVariant) → List (QString × QVariant)}
    (h : EntryMerge eq merge loop) {inMap outMap : List (QString × QVariant)}
    (hinMap : Assoc.Distinct inMap)
    (hentries : ∀ e ∈ inMap, e.2.isValid = true → (notedEntry eq outMap e).isValid = true ∧
      merge ((outMap.lookup e.1).getD .invalid) (notedEntry eq outMap e) =
        (mergedUnder eq outMap e).out) :
    loop outMap (inMap.map (fun e => (e.1, notedEntry eq outMap e))) =
      (mergeEntries eq outMap none inMap).outMap := by
  induction inMap generalizing outMap with
  | nil => exact h.nil outMap
  | cons e rest ih =>
    obtain ⟨hfirst, hrest⟩ := List.nodup_cons.mp hinMap
    have hne : ∀ e' ∈ rest, e'.1 ≠ e.1 :=
      fun e' he' heq => hfirst (heq ▸ List.mem_map_of_mem he')
    have hstep : (if (notedEntry eq outMap e).isValid then
          setEntry e.1 (merge ((outMap.lookup e.1).getD .invalid) (notedEntry eq outMap e)) outMap
        else Assoc.erase e.1 outMap) = mergedEntry eq outMap e := by
      rw [mergedEntry]
      cases hvalid : e.2.isValid with
      | false =>
        rw [notedEntry, hvalid]
        rfl
      | true =>
        obtain ⟨hnoted, hmerge⟩ := hentries e List.mem_cons_self hvalid
        rw [hnoted, hmerge]
    rw [List.map_cons, h.cons, hstep, ← notes_mergedEntry outMap hne,
      (mergeEntries_cons outMap e rest).1]
    apply ih hrest
    intro e' he' hvalid
    rw [notedEntry_mergedEntry outMap (hne e' he'), lookup_mergedEntry_ne outMap (hne e' he'),
      mergedUnder_mergedEntry outMap (hne e' he')]
    exact hentries e' (List.mem_cons_of_mem e he') hvalid

/-- A relation of trees that tells null from the values and two maps by what they have under a key.
To be the same tree and to be equal are such relations. -/
structure EntryRelation (R : QVariant → QVariant → Prop) : Prop where
  null : ∀ {value : QVariant}, value.isValid = true → ¬ R .invalid value
  lookup : ∀ {l m : List (QString × QVariant)}, R (.map l) (.map m) → ∀ k : QString,
    (l.lookup k = none ∧ m.lookup k = none) ∨
      ∃ v w, l.lookup k = some v ∧ m.lookup k = some w ∧ R v w

/-- To be the same is such a relation. -/
theorem entryRelation_eq : EntryRelation (· = ·) := by
  constructor
  · intro value hvalid hnull
    exact QVariant.isValid_iff.mp hvalid hnull.symm
  · intro l m heq k
    obtain rfl := QVariant.map.inj heq
    cases l.lookup k with
    | none => exact Or.inl ⟨rfl, rfl⟩
    | some v => exact Or.inr ⟨v, v, rfl, rfl, rfl⟩

section Null

variable (hnull : ∀ s, s ≠ .invalid → eq .invalid s = false ∧ eq s .invalid = false)

include hnull

/-- Null equals no value. -/
private theorem null_equals {value : QVariant} (hvalid : value.isValid = true) :
    QVariant.equals eq .invalid value = false := by
  cases value with
  | leaf s => exact (hnull s (fun h => QVariant.isValid_iff.mp hvalid (h ▸ rfl))).1
  | list items => rfl
  | map inMap => rfl

/-- No value equals null. -/
private theorem equals_null {value : QVariant} (hvalid : value.isValid = true) :
    QVariant.equals eq value .invalid = false := by
  cases value with
  | leaf s => exact (hnull s (fun h => QVariant.isValid_iff.mp hvalid (h ▸ rfl))).2
  | list items => rfl
  | map inMap => rfl

/-- Where a patch repeats nothing, it has something for the difference. -/
private theorem isValid_noted {out patch : QVariant} (hpatch : patch.Ascending)
    (hvalid : patch.isValid = true) (hnew : repeated eq out patch = false) :
    (noted eq out patch).isValid = true := by
  cases hmap : isMap patch with
  | false =>
    rw [repeated_of_not_isMap hmap] at hnew
    rw [noted_of_not_isMap out hmap]
    split_ifs with heq
    · rw [heq, Bool.and_true, ← Bool.not_eq_true, QVariant.isValid_iff, not_not] at hnew
      rw [hnew, null_equals hnull hvalid] at heq
      cases heq
    · exact hvalid
  | true =>
    cases patch with
    | leaf s => cases hmap
    | list items => cases hmap
    | map inMap =>
      rw [noted_map out hpatch.1]
      rfl

/-- To be equal is such a relation, too. -/
theorem entryRelation_equals : EntryRelation (fun v w => QVariant.equals eq v w = true) := by
  constructor
  · intro value hvalid heq
    rw [null_equals hnull hvalid] at heq
    cases heq
  · intro l m heq k
    exact QVariant.equalsMap_lookup heq k

variable {merge : QVariant → QVariant → QVariant}
  {loop : List (QString × QVariant) → List (QString × QVariant) → List (QString × QVariant)}

/-- A value that is not a map: the difference is the value, or null if the value is there. -/
private theorem merge_noted_value (h : EntryMerge eq merge loop) (out : QVariant) {patch : QVariant}
    (hmap : isMap patch = false) :
    (repeated eq out patch = false →
        merge out (noted eq out patch) = (MergePatch eq out none patch).out) ∧
      (repeated eq out patch = true → ∀ R : QVariant → QVariant → Prop, EntryRelation R →
        ¬ R (merge out (noted eq out patch)) (MergePatch eq out none patch).out) := by
  have htoNull : merge out .invalid = .invalid := by
    apply h.replaced rfl
    intro heq
    by_contra hne
    rw [equals_null hnull (QVariant.isValid_iff.mpr hne)] at heq
    cases heq
  rw [noted_of_not_isMap out hmap, MergePatch_of_not_isMap out none hmap, replaceUnlessEqual,
    repeated_of_not_isMap hmap]
  cases heq : QVariant.equals eq out patch with
  | false =>
    rw [if_neg Bool.false_ne_true, if_neg Bool.false_ne_true, Bool.and_false]
    refine ⟨fun _ => h.replaced hmap ?_, fun hrepeated => absurd hrepeated Bool.false_ne_true⟩
    intro hsame
    rw [heq] at hsame
    cases hsame
  | true =>
    rw [if_pos rfl, if_pos rfl, Bool.and_true, htoNull]
    constructor
    · intro hinvalid
      rw [← Bool.not_eq_true, QVariant.isValid_iff, not_not] at hinvalid
      exact hinvalid.symm
    · exact fun hvalid R hR => hR.null hvalid

/-- The difference leads from the old message to the new one if the patch repeats nothing, else to
one that is neither the same nor equal. -/
theorem merge_noted (h : EntryMerge eq merge loop) {patch : QVariant} (hpatch : patch.Ascending)
    (out : QVariant) :
    (repeated eq out patch = false →
        merge out (noted eq out patch) = (MergePatch eq out none patch).out) ∧
      (repeated eq out patch = true → ∀ R : QVariant → QVariant → Prop, EntryRelation R →
        ¬ R (merge out (noted eq out patch)) (MergePatch eq out none patch).out) := by
  induction patch using QVariant.memInduction generalizing out with
  | leaf s => exact merge_noted_value hnull h out rfl
  | list items => exact merge_noted_value hnull h out rfl
  | map inMap ih =>
    have hkeys := hpatch.1
    have hvalues := QVariant.ascendingMap_iff.mp hpatch.2
    have hdistinct := distinct_of_ascending hkeys
    rw [noted_map out hkeys, h.map, MergePatch, repeated]
    constructor
    · intro hnew
      have hentries : ∀ e ∈ inMap, e.2.isValid = true →
          (notedEntry eq (entriesOf out) e).isValid = true ∧
            merge (((entriesOf out).lookup e.1).getD .invalid) (notedEntry eq (entriesOf out) e) =
              (mergedUnder eq (entriesOf out) e).out := by
        intro e he hvalid
        have hnone : repeated eq (((entriesOf out).lookup e.1).getD .invalid) e.2 = false := by
          rw [← Bool.not_eq_true]
          intro hrepeated
          rw [repeatedIn_iff.mpr ⟨e, he, hvalid, hrepeated⟩] at hnew
          cases hnew
        rw [notedEntry_of_isValid _ hvalid]
        exact ⟨isValid_noted hnull (hvalues e he) hvalid hnone,
          (ih e he (hvalues e he) _).1 hnone⟩
      exact congrArg QVariant.map (loop_noted h hdistinct hentries)
    · intro hrepeated R hR hrelated
      obtain ⟨e, he, hvalid, hbelow⟩ := repeatedIn_iff.mp hrepeated
      have hnoted : (e.1, notedEntry eq (entriesOf out) e) ∈
          inMap.map (fun e => (e.1, notedEntry eq (entriesOf out) e)) :=
        List.mem_map.mpr ⟨e, he, rfl⟩
      have hnotedKeys : Assoc.Distinct
          (inMap.map (fun e => (e.1, notedEntry eq (entriesOf out) e))) := by
        rw [Assoc.Distinct, List.map_map]
        exact hdistinct
      have hboth := hR.lookup hrelated e.1
      rw [Option.map_none, h.lookup_of_mem hnotedKeys hnoted,
        lookup_mergeEntries_of_mem hdistinct he, hvalid, if_pos rfl] at hboth
      rcases hboth with ⟨-, hno⟩ | ⟨v, w, hv, hw, hvw⟩
      · cases hno
      · have hdiffers := (ih e he (hvalues e he) (((entriesOf out).lookup e.1).getD .invalid)).2
          hbelow R hR
        obtain ⟨-, hv'⟩ := Option.ite_none_right_eq_some.mp hv
        obtain rfl := Option.some.inj hv'
        obtain rfl := Option.some.inj hw
        rw [notedEntry_of_isValid _ hvalid, mergedUnder] at hvw
        exact hdiffers hvw

end Null

end Radapter
