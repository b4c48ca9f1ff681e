import Radapter.Lua.Survive

/-!
# When every string survives

By induction over the value: the leaves of a table are those of its visible fields, and the only
leaves with texts or bytes come from strings. So a string that is replaced by a later field has no
leaf of its own.
-/

namespace Radapter.Lua

section Exact

variable (fl : Floats) (lazy : ℕ → Path → Conversion)

/-- Plain values are converted without an error. -/
theorem toQVar_plain {t : LuaValue} (h : Plain t) (room : ℕ) :
    ∃ v, toQVar fl lazy room t = .ok v := by
  induction h using Plain.induction generalizing room with
  | string s => exact ⟨_, rfl⟩
  | boolean b => exact ⟨_, rfl⟩
  | integer n => exact ⟨_, rfl⟩
  | number bits => exact ⟨_, rfl⟩
  | table fields h ih =>
    by_cases hroom : room < 3
    · exact ⟨.invalid, by rw [toQVar, if_pos hroom]⟩
    · obtain ⟨v, hv, -⟩ := toQVar_table fl lazy h (show 3 ≤ room by omega) fun f hf => ih f hf _
      exact ⟨v, hv⟩

/-- The leaves of the message that a plain table becomes. -/
theorem places_table {room : ℕ} {fields : Fields} (h : Plain (.table fields)) (hroom : 3 ≤ room)
    {v : QVariant} (hv : toQVar fl lazy room (.table fields) = .ok v)
    {e : List Selector × Scalar} :
    e ∈ places v ↔ ∃ f w σ, Visible fields f ∧
      toQVar fl lazy (roomBelow fields room) f.2 = .ok w ∧ (σ, e.2) ∈ places w ∧
      e.1 = placeOf f.1 :: σ := by
  obtain ⟨v', hv', hplaces⟩ := toQVar_table fl lazy h hroom
    (fun f hf => toQVar_plain fl lazy (plainFields_iff.mp h.2 f hf) _)
  rw [hv] at hv'
  obtain rfl := Except.ok.inj hv'
  exact hplaces e

/-- A table without room becomes a null. -/
theorem toQVar_table_small {room : ℕ} (hroom : room < 3) (fields : Fields) :
    toQVar fl lazy room (.table fields) = .ok .invalid := by
  rw [toQVar, if_pos hroom]

/-- A leaf that holds the bytes of a string comes from a string. -/
theorem string_of_carries {t : LuaValue} (h : Plain t) {room : ℕ} {v : QVariant}
    (hv : toQVar fl lazy room t = .ok v) {e : List Selector × Scalar} (he : e ∈ places v)
    {s : Bytes} (hs : Carries s e.2) : ∃ d ∈ strings t, d.1.map placeOf = e.1 := by
  induction h using Plain.induction generalizing room v e with
  | string bytes =>
    obtain rfl := Except.ok.inj hv
    obtain rfl := List.mem_singleton.mp he
    exact ⟨([], bytes), List.mem_singleton.mpr rfl, rfl⟩
  | boolean b =>
    obtain rfl := Except.ok.inj hv
    obtain rfl := List.mem_singleton.mp he
    exact hs.elim
  | integer n =>
    obtain rfl := Except.ok.inj hv
    obtain rfl := List.mem_singleton.mp he
    exact hs.elim
  | number bits =>
    obtain rfl := Except.ok.inj hv
    obtain rfl := List.mem_singleton.mp he
    exact hs.elim
  | table fields h ih =>
    by_cases hroom : room < 3
    · rw [toQVar_table_small fl lazy hroom] at hv
      obtain rfl := Except.ok.inj hv
      obtain rfl := List.mem_singleton.mp he
      exact hs.elim
    · obtain ⟨f, w, σ, hf, hw, hσ, heq⟩ :=
        (places_table fl lazy h (by omega) hv).mp he
      obtain ⟨d, hd, hplace⟩ := ih f hf.1 hw hσ hs
      refine ⟨(f.1 :: d.1, d.2), ?_, ?_⟩
      · exact mem_stringsFields.mpr ⟨f, hf.1, d.1, hd, rfl⟩
      · rw [List.map_cons, hplace, heq]

/-- In a table whose strings survive, a string stands below a field that is seen, and its leaf is
one of that field. -/
theorem Survives.below {room : ℕ} {fields : Fields} (h : Plain (.table fields))
    (hs : Survives fl lazy room (.table fields)) {f : LuaKey × LuaValue} (hf : f ∈ fields)
    {d : Path × Bytes} (hd : d ∈ strings f.2) :
    3 ≤ room ∧ Visible fields f ∧ ∃ w leaf, toQVar fl lazy (roomBelow fields room) f.2 = .ok w ∧
      (d.1.map placeOf, leaf) ∈ places w ∧ Carries d.2 leaf := by
  obtain ⟨v, hv, hleaves, hnodup⟩ := hs
  have hmem : (f.1 :: d.1, d.2) ∈ strings (.table fields) :=
    mem_stringsFields.mpr ⟨f, hf, d.1, hd, rfl⟩
  obtain ⟨leaf, hleaf, hcarries⟩ := hleaves _ hmem
  have hroom : 3 ≤ room := by
    by_contra hsmall
    rw [toQVar_table_small fl lazy (by omega)] at hv
    obtain rfl := Except.ok.inj hv
    cases List.mem_singleton.mp hleaf
  obtain ⟨g, w, σ, hg, hw, hσ, heq⟩ := (places_table fl lazy h hroom hv).mp hleaf
  rw [List.map_cons, List.cons.injEq] at heq
  -- the leaf of the visible field comes from a string there, which has the same place
  obtain ⟨d', hd', hplace⟩ :=
    string_of_carries fl lazy (plainFields_iff.mp h.2 g hg.1) hw hσ hcarries
  have hmem' : (g.1 :: d'.1, d'.2) ∈ strings (.table fields) :=
    mem_stringsFields.mpr ⟨g, hg.1, d'.1, hd', rfl⟩
  have hsame := List.inj_on_of_nodup_map hnodup hmem hmem'
    (by simp only [List.map_cons, hplace, heq.1, heq.2])
  simp only [Prod.mk.injEq, List.cons.injEq] at hsame
  have hfg : f = g := by
    have hdistinct := distinct_of_plain h.1
    exact List.inj_on_of_nodup_map hdistinct hf hg.1 hsame.1.1
  rw [← hfg] at hg hw
  exact ⟨hroom, hg, w, leaf, hw, by rw [heq.2]; exact hσ, hcarries⟩

/-- The places of the strings below one field are distinct when those of the table are. -/
theorem nodup_below {fields : Fields}
    (h : ((stringsFields fields).map (fun e => e.1.map placeOf)).Nodup)
    {f : LuaKey × LuaValue} (hf : f ∈ fields) :
    ((strings f.2).map (fun e => e.1.map placeOf)).Nodup := by
  rw [stringsFields_eq, List.map_flatMap, List.nodup_flatMap] at h
  have hfield := h.1 f hf
  rw [List.map_map] at hfield
  apply List.Nodup.of_map (placeOf f.1 :: ·)
  rw [List.map_map]
  exact hfield

/-- The places of the strings of a table are distinct when those below each field are and no field
with a string is replaced. -/
theorem nodup_stringsFields {fields : Fields}
    (hseen : fields.Pairwise (fun f g => strings f.2 ≠ [] → placeOf g.1 ≠ placeOf f.1))
    (hbelow : ∀ f ∈ fields, ((strings f.2).map (fun e => e.1.map placeOf)).Nodup) :
    ((stringsFields fields).map (fun e => e.1.map placeOf)).Nodup := by
  rw [stringsFields_eq, List.map_flatMap, List.nodup_flatMap]
  constructor
  · intro f hf
    have hfield := (hbelow f hf).map (f := (placeOf f.1 :: ·)) (List.cons_injective)
    rw [List.map_map] at hfield ⊢
    exact hfield
  · apply hseen.imp
    intro f g hne σ hσ hσ'
    simp only [List.map_map] at hσ hσ'
    obtain ⟨d, hd, rfl⟩ := List.mem_map.mp hσ
    obtain ⟨d', -, heq⟩ := List.mem_map.mp hσ'
    simp only [Function.comp_apply] at heq
    rw [List.map_cons, List.map_cons, List.cons.injEq] at heq
    exact hne (List.ne_nil_of_mem hd) heq.1

/-- A value without strings has none to lose. -/
theorem survives_of_no_strings {t : LuaValue} (h : Plain t) (room : ℕ) (hnone : strings t = []) :
    Survives fl lazy room t := by
  obtain ⟨v, hv⟩ := toQVar_plain fl lazy h room
  refine ⟨v, hv, ?_, ?_⟩ <;> rw [hnone]
  · simp
  · exact List.nodup_nil

/-- A string on its own survives when its leaf has its bytes. -/
theorem survives_string_iff (room : ℕ) (s : Bytes) :
    Survives fl lazy room (.string s) ↔ StringKept s := by
  rw [← carries_toStrOrBinary_iff]
  constructor
  · rintro ⟨v, hv, hleaves, -⟩
    obtain rfl := Except.ok.inj hv
    obtain ⟨leaf, hleaf, hcarries⟩ := hleaves ([], s) (List.mem_singleton.mpr rfl)
    cases List.mem_singleton.mp hleaf
    exact hcarries
  · intro hcarries
    refine ⟨.leaf (toStrOrBinary s), rfl, ?_, List.nodup_singleton _⟩
    intro e he
    obtain rfl := List.mem_singleton.mp he
    exact ⟨_, List.mem_singleton.mpr rfl, hcarries⟩

/-- The strings of a plain value survive exactly under the condition on the strings, the keys and
the room. -/
theorem survives_iff {t : LuaValue} (h : Plain t) (room : ℕ) :
    Survives fl lazy room t ↔ Keeps room t := by
  induction h using Plain.induction generalizing room with
  | string s => exact survives_string_iff fl lazy room s
  | boolean b =>
    have hplain : Plain (.boolean b) := trivial
    exact iff_of_true (survives_of_no_strings fl lazy hplain room rfl) trivial
  | integer n =>
    have hplain : Plain (.integer n) := trivial
    exact iff_of_true (survives_of_no_strings fl lazy hplain room rfl) trivial
  | number bits =>
    have hplain : Plain (.number bits) := trivial
    exact iff_of_true (survives_of_no_strings fl lazy hplain room rfl) trivial
  | table fields h ih =>
    have hplain := plainFields_iff.mp h.2
    constructor
    · intro hs hsome
      have hfield := fun f hf d hd => Survives.below (f := f) (d := d) fl lazy h hs hf hd
      obtain ⟨e, he⟩ := List.exists_mem_of_ne_nil _ hsome
      obtain ⟨f, hf, π, hπ, -⟩ := mem_stringsFields.mp he
      refine ⟨(hfield f hf _ hπ).1, ?_, keepsFields_iff.mpr ?_⟩
      · rw [List.pairwise_iff_forall_sublist]
        intro f g hsub hstrings
        obtain ⟨d, hd⟩ := List.exists_mem_of_ne_nil _ hstrings
        exact (hfield f (hsub.subset (by simp)) d hd).2.1.2 g hsub
      · intro f hf
        rw [← ih f hf]
        obtain ⟨w, hw⟩ := toQVar_plain fl lazy (hplain f hf) (roomBelow fields room)
        refine ⟨w, hw, ?_, nodup_below hs.choose_spec.2.2 hf⟩
        intro d hd
        obtain ⟨-, -, w', leaf, hw', hleaf, hcarries⟩ := hfield f hf d hd
        rw [hw] at hw'
        obtain rfl := Except.ok.inj hw'
        exact ⟨leaf, hleaf, hcarries⟩
    · intro hkeeps
      by_cases hnone : stringsFields fields = []
      · exact survives_of_no_strings fl lazy h room hnone
      · obtain ⟨hroom, hseen, hbelow⟩ := hkeeps hnone
        rw [keepsFields_iff] at hbelow
        have hfields : ∀ f ∈ fields, Survives fl lazy (roomBelow fields room) f.2 :=
          fun f hf => (ih f hf _).mpr (hbelow f hf)
        obtain ⟨v, hv⟩ := toQVar_plain fl lazy h room
        refine ⟨v, hv, ?_, ?_⟩
        · intro e he
          obtain ⟨f, hf, π, hπ, heq⟩ := mem_stringsFields.mp he
          obtain ⟨w, hw, hleaves, -⟩ := hfields f hf
          obtain ⟨leaf, hleaf, hcarries⟩ := hleaves (π, e.2) hπ
          have hvisible : Visible fields f :=
            ⟨hf, fun g hsub => List.pairwise_iff_forall_sublist.mp hseen hsub
              (List.ne_nil_of_mem hπ)⟩
          refine ⟨leaf, (places_table fl lazy h hroom hv).mpr
            ⟨f, w, π.map placeOf, hvisible, hw, hleaf, ?_⟩, hcarries⟩
          rw [heq, List.map_cons]
        · exact nodup_stringsFields hseen fun f hf => (hfields f hf).choose_spec.2.2

end Exact

/-- A list of a text and of bytes that are no text. -/
theorem survives_list :
    Survives .unused (fun _ _ => .ok .invalid) 10
      (.table [(.integer 1, .string [0x61, 0xC3, 0xA9]), (.integer 2, .string [0xFF, 0x00])]) := by
  have hplain : Plain
      (.table [(.integer 1, .string [0x61, 0xC3, 0xA9]), (.integer 2, .string [0xFF, 0x00])]) :=
    ⟨.inl .rfl, trivial, trivial, trivial⟩
  have herror : ¬ IsUtf8UpToTail [0xFF, 0x00] := by
    rw [← decodeUtf8_hasError_iff]
    decide
  rw [survives_iff .unused _ hplain]
  intro _
  refine ⟨by decide, ?_, .inl ⟨⟨[0x61, 0xE9], by decide, by decide⟩, by decide⟩,
    .inr ⟨herror, .inl (by decide)⟩, trivial⟩
  simp [placeOf]

/-- The last byte of an incomplete sequence is lost. -/
theorem not_survives_incomplete :
    ¬ Survives .unused (fun _ _ => .ok .invalid) 10 (.string [0x61, 0xC3]) := by
  rintro ⟨v, hv, hleaves, -⟩
  obtain rfl : v = .leaf (.string [0x61]) := Except.ok.inj (hv.symm.trans (by decide))
  obtain ⟨leaf, hleaf, hcarries⟩ := hleaves ([], [0x61, 0xC3]) (List.mem_singleton.mpr rfl)
  cases List.mem_singleton.mp hleaf
  exact absurd (show toStdString [0x61] = [0x61, 0xC3] from hcarries) (by decide)

end Radapter.Lua
