import Radapter.Lazy.Current

/-!
# Iterating over a view

`pairs` on a view steps through the retained map or list, null entries included, while a table
cannot hold a null. `ipairs` indexes the view and stops at the first `nil`, as it does on a table,
and `#` counts the items. The iterator of `pairs` has no state but the previous key.
-/

namespace Radapter.Lazy

open Library Lua

variable (fl : Floats)

/-- The entry of a map that follows a key: the first one at the start, else
`upperBound(QString::fromUtf8(key, int(len)))`. The iterator gives out string keys only. -/
def nextEntry (entries : List (QString × QVariant)) : Option LuaKey → Option (QString × QVariant)
  | none => entries.head?
  | some (.string s) => entries.find? (fun e => fromUtf8Sized s s.length < e.1)
  | some _ => none

/-- The index of a list that follows a key. -/
def nextIndex : Option LuaKey → ℤ
  | some (.integer n) => n + 1
  | _ => 1

/-- `NextPair` on a view whose message is not materialized. -/
def NextPair (w : View) (control : Option LuaKey) : Option (LuaKey × Shown) :=
  match w.value with
  | .list items =>
      (childOf (.list items) (.integer (nextIndex control))).map fun child =>
        (.integer (nextIndex control), PushChildView fl w (.integer (nextIndex control)) child)
  | .map entries =>
      (nextEntry entries control).map fun e =>
        (.string (toStdString e.1), PushChildView fl w (.string (toStdString e.1)) e.2)
  | .leaf _ => none

/-- The loop `for k, v in pairs(view)`: what it yields, `none` when it takes more rounds. -/
def pairsLoop (w : View) : ℕ → Option LuaKey → Option (List (LuaKey × Shown))
  | 0, _ => none
  | fuel + 1, control =>
      match NextPair fl w control with
      | none => some []
      | some (k, v) => (pairsLoop w fuel (some k)).map ((k, v) :: ·)

/-- The loop `for i, v in ipairs(t)`, given what indexing reads: it ends at the first `nil`. -/
def ipairsLoop (read : ℕ → LuaValue) : ℕ → ℕ → Option (List (ℕ × LuaValue))
  | 0, _ => none
  | fuel + 1, i =>
      if (read i).isNil then some []
      else (ipairsLoop read fuel (i + 1)).map ((i, read i) :: ·)

/-- `NodeLen` on a view whose message is not materialized. -/
def NodeLen (w : View) : ℕ :=
  match w.value with
  | .list items => items.length
  | _ => 0

/-! ## Agreement with the table -/

/-- What `#` may give for a table: a border. -/
def IsBorder (fields : Fields) (n : ℕ) : Prop :=
  (n = 0 ∨ rawget fields (.integer n) ≠ .nil) ∧ rawget fields (.integer ((n + 1 : ℕ) : ℤ)) = .nil

/-- `pairs` yields the keys of the table, each with a value. -/
def PairsAgree (w : View) (fields : Fields) : Prop :=
  ∃ fuel yields, pairsLoop fl w fuel none = some yields ∧
    (∀ k, k ∈ yields.map Prod.fst ↔ rawget fields k ≠ .nil) ∧
    ∀ y ∈ yields, y.2.plain fl ≠ .nil

/-- `ipairs` yields the same sequence. -/
def IpairsAgree (w : View) (fields : Fields) : Prop :=
  ∃ fuel sequence,
    ipairsLoop (fun i => (PushIndexed fl w (.integer i)).plain fl) fuel 1 = some sequence ∧
      ipairsLoop (fun i => rawget fields (.integer i)) fuel 1 = some sequence

/-- `#` is the same for a list whose items that are not null form a prefix. -/
def LenAgrees (w : View) (fields : Fields) : Prop :=
  ∀ items, w.value = .list items →
    (∃ m : ℕ, ∀ i v, items[i]? = some v → (v ≠ QVariant.invalid ↔ i < m)) →
    ∀ n, IsBorder fields n → n = NodeLen w

/-- The view and the table it is materialized as agree under reading. -/
def ReadAgrees (methods : Methods) (message : QVariant) (w : View) : Prop :=
  ∃ fields, resolve methods (Push fl message) w.path = some (.table fields) ∧
    PairsAgree fl w fields ∧ IpairsAgree fl w fields ∧ LenAgrees w fields

/-- The entries or items of a container. -/
def children : QVariant → List QVariant
  | .map entries => entries.map Prod.snd
  | .list items => items
  | .leaf _ => []

/-- The keys of a map are read back from their UTF-8 forms. -/
def KeysRead : QVariant → Prop
  | .map entries =>
      ∀ e ∈ entries, fromUtf8Sized (toStdString e.1) (toStdString e.1).length = e.1
  | _ => True

/-! ## The loops -/

/-- With more rounds the loop yields the same. -/
theorem pairsLoop_mono {w : View} {fuel more : ℕ} (hle : fuel ≤ more) {control : Option LuaKey}
    {yields : List (LuaKey × Shown)} (h : pairsLoop fl w fuel control = some yields) :
    pairsLoop fl w more control = some yields := by
  induction fuel generalizing more control yields with
  | zero => cases h
  | succ fuel ih =>
    obtain ⟨more, rfl⟩ : ∃ n, more = n + 1 := ⟨more - 1, by omega⟩
    rw [pairsLoop] at h ⊢
    cases hnext : NextPair fl w control with
    | none => rwa [hnext] at h
    | some found =>
      simp only [hnext] at h ⊢
      obtain ⟨later, hlater, hyields⟩ := Option.map_eq_some_iff.mp h
      rw [ih (by omega) hlater, Option.map_some, hyields]

/-- The key that a loop over the entries has reached. -/
def reached (before : List (QString × QVariant)) : Option LuaKey :=
  before.getLast?.map fun e => .string (toStdString e.1)

/-- After a key that is read back comes the next entry. -/
theorem nextEntry_reached {before rest : List (QString × QVariant)}
    (hsorted : ((before ++ rest).map Prod.fst).Pairwise (· < ·))
    (hread : ∀ e ∈ before, fromUtf8Sized (toStdString e.1) (toStdString e.1).length = e.1) :
    nextEntry (before ++ rest) (reached before) = rest.head? := by
  rcases List.eq_nil_or_concat before with rfl | ⟨before, e, rfl⟩
  · rfl
  · have hreached : reached (before ++ [e]) = some (.string (toStdString e.1)) := by
      simp [reached]
    rw [List.concat_eq_append] at hsorted hread ⊢
    rw [hreached, nextEntry, hread e (by simp), List.append_assoc, List.find?_append]
    rw [List.append_assoc, List.map_append, List.pairwise_append] at hsorted
    obtain ⟨-, hrest, hbefore⟩ := hsorted
    have hnone : before.find? (fun d => decide (e.1 < d.1)) = none := by
      rw [List.find?_eq_none]
      intro d hd
      have hlt := hbefore d.1 (List.mem_map_of_mem hd) e.1 (by simp)
      simpa using List.lt_asymm hlt
    rw [hnone, Option.none_or, List.singleton_append, List.find?_cons_of_neg (by simp)]
    cases rest with
    | nil => rfl
    | cons d rest =>
      rw [List.singleton_append, List.map_cons, List.pairwise_cons] at hrest
      have hlt : e.1 < d.1 := hrest.1 d.1 (by simp)
      rw [List.find?_cons_of_pos (by simpa using hlt), List.head?_cons]

/-- A loop over a map whose keys are read back yields the entries in order. -/
theorem pairsLoop_map {path : Path} {before rest : List (QString × QVariant)}
    (hsorted : ((before ++ rest).map Prod.fst).Pairwise (· < ·))
    (hread : ∀ e ∈ before ++ rest, fromUtf8Sized (toStdString e.1) (toStdString e.1).length = e.1)
    {fuel : ℕ} (hfuel : rest.length < fuel) :
    pairsLoop fl ⟨path, .map (before ++ rest)⟩ fuel (reached before) =
      some (rest.map fun e => (.string (toStdString e.1),
        PushChildView fl ⟨path, .map (before ++ rest)⟩ (.string (toStdString e.1)) e.2)) := by
  induction rest generalizing before fuel with
  | nil =>
    obtain ⟨fuel, rfl⟩ : ∃ n, fuel = n + 1 := ⟨fuel - 1, by omega⟩
    have hnext := nextEntry_reached hsorted (fun e he => hread e (by simp [he]))
    simp only [pairsLoop, NextPair, hnext, List.head?_nil, Option.map_none, List.map_nil]
  | cons e rest ih =>
    obtain ⟨fuel, rfl⟩ : ∃ n, fuel = n + 1 := ⟨fuel - 1, by omega⟩
    have hnext := nextEntry_reached hsorted
      (fun e he => hread e (List.mem_append_left _ he))
    have happend : before ++ e :: rest = before ++ [e] ++ rest := by simp
    have hreached : reached (before ++ [e]) = some (.string (toStdString e.1)) := by simp [reached]
    have hlater := @ih (before ++ [e]) (by rwa [← happend]) (by rwa [← happend]) fuel
      (by simpa using hfuel)
    rw [← happend, hreached] at hlater
    simp only [pairsLoop, NextPair, hnext, List.head?_cons, Option.map_some, hlater, List.map_cons]

/-- A loop over a list yields the items in order. -/
theorem pairsLoop_list {path : Path} {items : List QVariant} {i : ℕ} (hi : i ≤ items.length)
    {control : Option LuaKey} (hcontrol : nextIndex control = ((i + 1 : ℕ) : ℤ)) {fuel : ℕ}
    (hfuel : items.length - i < fuel) :
    pairsLoop fl ⟨path, .list items⟩ fuel control =
      some (((items.drop i).zipIdx (i + 1)).map fun e => (.integer (e.2 : ℤ),
        PushChildView fl ⟨path, .list items⟩ (.integer (e.2 : ℤ)) e.1)) := by
  induction fuel generalizing i control with
  | zero => omega
  | succ fuel ih =>
    have hchild : childOf (.list items) (.integer ((i + 1 : ℕ) : ℤ)) = items[i]? := by
      rw [childOf, if_pos (by omega), Int.toNat_natCast, Nat.add_sub_cancel]
    rw [pairsLoop, NextPair, hcontrol]
    simp only [hchild]
    by_cases hend : i = items.length
    · rw [hend, List.drop_length, List.getElem?_eq_none (Nat.le_refl _)]
      rfl
    · have hlt : i < items.length := by omega
      have hlater := @ih (i + 1) (by omega) (some (.integer ((i + 1 : ℕ) : ℤ)))
        (by rw [nextIndex]; omega) (by omega)
      rw [List.getElem?_eq_getElem hlt, List.drop_eq_getElem_cons hlt, List.zipIdx_cons]
      simp only [Option.map_some, hlater, List.map_cons]

end Radapter.Lazy
