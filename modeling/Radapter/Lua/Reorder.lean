import Radapter.Lua.Convert

/-!
# Tables in any order

The order in which `next` visits the fields of a table depends on the history of the table. A value
is reordered when the fields of its tables, at every depth, come in another order; reading a field
and converting the fields one by one do not depend on it.
-/

namespace Radapter.Lua

open Library

mutual

/-- The second value is the first one with the fields of its tables in another order. -/
def Reordered : LuaValue → LuaValue → Prop
  | .table fields, t => ∃ same other, t = .table other ∧ ReorderedFields fields same ∧
      same.Perm other
  | v, t => t = v

/-- The same fields, each with a reordered value. -/
def ReorderedFields : Fields → Fields → Prop
  | [], other => other = []
  | (k, v) :: rest, other =>
      ∃ w more, other = (k, w) :: more ∧ Reordered v w ∧ ReorderedFields rest more

end

/-- What is no table has one order. -/
theorem reordered_iff_of_not_table {v w : LuaValue} (hv : v.isTable = false) :
    Reordered v w ↔ w = v := by
  cases v with
  | table fields => cases hv
  | _ => rfl

/-- A table has the order it has. -/
theorem Reordered.refl (v : LuaValue) : Reordered v v := by
  induction v using LuaValue.fieldInduction with
  | scalar v hv => exact (reordered_iff_of_not_table hv).mpr rfl
  | table fields ih =>
    refine ⟨fields, fields, rfl, ?_, .rfl⟩
    induction fields with
    | nil => rfl
    | cons f fields ihFields =>
      refine ⟨f.2, fields, rfl, ih f (by simp), ?_⟩
      exact ihFields (fun g hg => ih g (List.mem_cons_of_mem _ hg))

/-- Reordered fields convert to what the fields convert to. -/
theorem toQVarFields_reordered {α : Type} (fl : Floats) (lazy : ℕ → Path → Conversion) {room : ℕ}
    {source : List α} {field : α → LuaKey × LuaValue} {result : α → Conversion} {same : Fields}
    (hvalues : ∀ a ∈ source, ∀ w, Reordered (field a).2 w → toQVar fl lazy room w = result a)
    (h : ReorderedFields (source.map field) same) :
    toQVarFields fl lazy room same = source.map (fun a => ((field a).1, result a)) := by
  induction source generalizing same with
  | nil =>
    obtain rfl : same = [] := h
    rfl
  | cons a source ih =>
    obtain ⟨w, more, rfl, hw, hmore⟩ := h
    rw [toQVarFields, List.map_cons, hvalues a (by simp) w hw,
      ih (fun a ha => hvalues a (List.mem_cons_of_mem _ ha)) hmore]

/-- Reordering keeps the keys of the fields. -/
theorem ReorderedFields.keys {fields same : Fields} (h : ReorderedFields fields same) :
    same.map Prod.fst = fields.map Prod.fst := by
  induction fields generalizing same with
  | nil =>
    obtain rfl : same = [] := h
    rfl
  | cons f fields ih =>
    obtain ⟨w, more, rfl, -, hmore⟩ := h
    rw [List.map_cons, List.map_cons, ih hmore]

/-- Reordered fields convert to a permutation of what the fields convert to. -/
theorem toQVarFields_perm {α : Type} (fl : Floats) (lazy : ℕ → Path → Conversion) {room : ℕ}
    {source : List α} {field : α → LuaKey × LuaValue} {result : α → Conversion}
    {same other : Fields}
    (hvalues : ∀ a ∈ source, ∀ w, Reordered (field a).2 w → toQVar fl lazy room w = result a)
    (hsame : ReorderedFields (source.map field) same) (hperm : same.Perm other) :
    (toQVarFields fl lazy room other).Perm (source.map (fun a => ((field a).1, result a))) := by
  rw [← toQVarFields_reordered fl lazy hvalues hsame, toQVarFields_eq, toQVarFields_eq]
  exact (hperm.map _).symm

/-- A reordered value is `nil` only when the value is. -/
theorem Reordered.ne_nil {v w : LuaValue} (h : Reordered v w) (hv : v ≠ .nil) : w ≠ .nil := by
  cases htable : v.isTable with
  | true =>
    obtain ⟨fields, rfl⟩ := LuaValue.exists_of_isTable htable
    obtain ⟨same, other, rfl, -⟩ := h
    simp
  | false =>
    obtain rfl := (reordered_iff_of_not_table htable).mp h
    exact hv

/-- A table in another order has no `nil` either. -/
theorem ReorderedFields.ne_nil {fields same : Fields} (h : ReorderedFields fields same)
    (hvalues : ∀ f ∈ fields, f.2 ≠ .nil) : ∀ f ∈ same, f.2 ≠ .nil := by
  induction fields generalizing same with
  | nil =>
    obtain rfl : same = [] := h
    simp
  | cons f fields ih =>
    obtain ⟨w, more, rfl, hw, hmore⟩ := h
    rw [List.forall_mem_cons] at hvalues ⊢
    exact ⟨hw.ne_nil hvalues.1, ih hmore hvalues.2⟩

/-- Reordering adds no field. -/
theorem rawget_reordered {fields same other : Fields} {k : LuaKey}
    (hsame : ReorderedFields fields same) (hperm : same.Perm other)
    (hk : k ∉ fields.map Prod.fst) : rawget other k = .nil := by
  by_contra hne
  apply hk
  rw [← hsame.keys]
  exact (hperm.map Prod.fst).mem_iff.mpr (List.mem_map_of_mem (mem_of_rawget hne))

end Radapter.Lua
