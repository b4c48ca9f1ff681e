import Radapter.Library.Nested
import Radapter.Lua.Value

/-!
# Lazy views of a message

A message crosses into Lua as a view: a userdata that keeps a subtree of the retained message and
the keys that lead to it. Reading a field that is a map or a list makes a view of it, and any other
field is pushed. Until something is written, a view reads the retained tree; this file relates that
to reading the table that the message is pushed as.
-/

namespace Radapter.Lazy

open Library Lua

/-- What the metatables of strings and of bytes find, `none` when indexing raises an error. They
hold functions, and a byte of a bytes value is a number. -/
structure Methods where
  find : LuaValue → LuaKey → Option LuaValue
  not_table : ∀ {v k w}, find v k = some w → w.isTable = false

/-- Metatables for runs in which no scalar is indexed. -/
def Methods.unused : Methods where
  find := fun _ _ => none
  not_table := fun h => nomatch h

/-- `lua_gettable`, `none` when it raises an error. No table of a message has a metatable. -/
def gettable (methods : Methods) : LuaValue → LuaKey → Option LuaValue
  | .table fields, k => some (rawget fields k)
  | .string s, k => methods.find (.string s) k
  | .bytes b, k => methods.find (.bytes b) k
  | _, _ => none

/-- Indexing reads a field of a table, or finds something for a scalar that is no table. -/
theorem gettable_cases {methods : Methods} {v w : LuaValue} {k : LuaKey}
    (h : gettable methods v k = some w) :
    (∃ fields, v = .table fields ∧ w = rawget fields k) ∨ w.isTable = false := by
  cases v with
  | table fields => exact .inl ⟨fields, rfl, (Option.some.inj h).symm⟩
  | string s => exact .inr (methods.not_table h)
  | bytes b => exact .inr (methods.not_table h)
  | _ => cases h

/-- The loop of `PushResolved` from the message's table along the keys of a view. -/
def resolve (methods : Methods) (table : LuaValue) (path : Path) : Option LuaValue :=
  path.foldlM (gettable methods) table

/-- The slots that `PushResolved` takes on the Lua stack, which it does not check: one for the table
of the message, and for a view below the root one for each key and one more. -/
def slotsNeeded (path : Path) : ℕ := if path = [] then 1 else path.length + 2

/-- `LUA_MINSTACK`: the slots that Lua has free for a C function behind its arguments. -/
def minStack : ℕ := 20

/-- The views of up to 18 keys can be resolved in every call. -/
theorem slotsNeeded_le {path : Path} {slots : ℕ} (hpath : path.length ≤ 18)
    (hslots : minStack ≤ slots) : slotsNeeded path ≤ slots := by
  rw [slotsNeeded]
  unfold minStack at hslots
  split_ifs
  · omega
  · omega

/-- `LazyUserData`: the keys that lead to a view and the retained subtree there. -/
structure View where
  path : Path
  value : QVariant

/-- What a read through a view leaves on the stack. -/
inductive Shown where
  | value (v : LuaValue)
  | view (w : View)

variable (fl : Floats)

/-- The plain value that something shown stands for. -/
def Shown.plain : Shown → LuaValue
  | .value v => v
  | .view w => Push fl w.value

/-- `PushChildView`. -/
def PushChildView (w : View) (k : LuaKey) (child : QVariant) : Shown :=
  if child.isContainer then .view ⟨w.path ++ [k], child⟩ else .value (Push fl child)

/-- The entry or item of a retained tree under a key: `constFind(QString::fromUtf8(s, int(len)))`
in a map, an index from one in a list. -/
def childOf : QVariant → LuaKey → Option QVariant
  | .map entries, .string s => entries.lookup (fromUtf8Sized s s.length)
  | .list items, .integer n => if 1 ≤ n then items[n.toNat - 1]? else none
  | _, _ => none

/-- `PushIndexed` on a view whose message is not materialized. -/
def PushIndexed (w : View) (k : LuaKey) : Shown :=
  match childOf w.value k with
  | some child => PushChildView fl w k child
  | none => .value .nil

/-- A view that is shown is the one of a container under the key. -/
theorem exists_of_PushIndexed {w below : View} {k : LuaKey} (h : PushIndexed fl w k = .view below) :
    ∃ child, childOf w.value k = some child ∧ child.isContainer = true ∧
      below = ⟨w.path ++ [k], child⟩ := by
  rw [PushIndexed] at h
  cases hchild : childOf w.value k with
  | none =>
    rw [hchild] at h
    cases h
  | some child =>
    simp only [hchild, PushChildView] at h
    split at h
    · next hcontainer => exact ⟨child, rfl, hcontainer, (Shown.view.inj h).symm⟩
    · cases h

/-- The view of a child stands for what the child would be pushed as. -/
theorem plain_PushChildView (w : View) (k : LuaKey) (child : QVariant) :
    (PushChildView fl w k child).plain fl = Push fl child := by
  rw [PushChildView]
  split <;> rfl

/-! ## Parts of a message -/

/-- The subtree that a path of keys leads to. -/
def childAlong (message : QVariant) (path : Path) : Option QVariant := path.foldlM childOf message

/-- A path is followed key by key. -/
theorem childAlong_cons (message : QVariant) (k : LuaKey) (path : Path) :
    childAlong message (k :: path) = (childOf message k).bind (childAlong · path) := rfl

/-- What a path leads to is below its first key. -/
theorem exists_of_childAlong_cons {message part : QVariant} {k : LuaKey} {path : Path}
    (h : childAlong message (k :: path) = some part) :
    ∃ next, childOf message k = some next ∧ childAlong next path = some part := by
  rw [childAlong_cons] at h
  exact Option.bind_eq_some_iff.mp h

/-- A child is an entry of a map or an item of a list. -/
theorem childOf_cases {v child : QVariant} {k : LuaKey} (h : childOf v k = some child) :
    (∃ entries s, v = .map entries ∧ k = .string s ∧
      (fromUtf8Sized s s.length, child) ∈ entries) ∨
      ∃ items j, v = .list items ∧ k = .integer ((1 + j : ℕ) : ℤ) ∧ items[j]? = some child := by
  cases v with
  | leaf s => cases k <;> cases h
  | map entries =>
    cases k with
    | string s => exact .inl ⟨entries, s, rfl, rfl, Assoc.mem_of_lookup h⟩
    | integer n => cases h
    | number bits => cases h
    | boolean b => cases h
  | list items =>
    cases k with
    | integer n =>
      rw [childOf] at h
      split at h
      · refine .inr ⟨items, n.toNat - 1, rfl, ?_, h⟩
        rw [LuaKey.integer.injEq]
        omega
      · cases h
    | string s => cases h
    | number bits => cases h
    | boolean b => cases h

/-- Only a container has children. -/
theorem isContainer_of_childOf {v child : QVariant} {k : LuaKey} (h : childOf v k = some child) :
    v.isContainer = true := by
  rcases childOf_cases h with ⟨entries, s, rfl, -⟩ | ⟨items, j, rfl, -⟩
  · rfl
  · rfl

/-- What stands above a container is a container. -/
theorem isContainer_of_childAlong {message part : QVariant} {path : Path}
    (h : childAlong message path = some part) (hpart : part.isContainer = true) :
    message.isContainer = true := by
  cases path with
  | nil =>
    obtain rfl : message = part := Option.some.inj h
    exact hpart
  | cons k path =>
    obtain ⟨next, hnext, -⟩ := exists_of_childAlong_cons h
    exact isContainer_of_childOf hnext

/-! ## The fields of a pushed container -/

/-- A key that no entry is written for reads as before. -/
theorem rawget_pushMap_of_not_mem {entries : List (QString × QVariant)} {k : LuaKey}
    (h : ∀ e ∈ entries, .string (toStdString e.1) ≠ k) (fields : Fields) :
    rawget (pushMap fl fields entries) k = rawget fields k := by
  induction entries generalizing fields with
  | nil => rfl
  | cons e entries ih =>
    rw [pushMap, ih (fun e he => h e (List.mem_cons_of_mem _ he)),
      rawget_rawset_ne (Ne.symm (h e (by simp)))]

/-- An entry is read under the UTF-8 form of its key when no other entry has it. -/
theorem rawget_pushMap {entries : List (QString × QVariant)} {e : QString × QVariant}
    (he : e ∈ entries)
    (h : ∀ d ∈ entries, toStdString d.1 = toStdString e.1 → d = e) (fields : Fields) :
    rawget (pushMap fl fields entries) (.string (toStdString e.1)) = Push fl e.2 := by
  induction entries generalizing fields with
  | nil => cases he
  | cons d entries ih =>
    rw [pushMap]
    by_cases hmem : e ∈ entries
    · exact ih hmem (fun d hd => h d (List.mem_cons_of_mem _ hd)) _
    · obtain rfl : e = d := by simpa [hmem] using he
      rw [rawget_pushMap_of_not_mem, rawget_rawset_self]
      intro d hd heq
      obtain rfl := h d (List.mem_cons_of_mem _ hd) (LuaKey.string.inj heq)
      exact hmem hd

/-- A key that is no index of the items reads as before. -/
theorem rawget_pushList_of_not_index {items : List QVariant} {i : ℕ} {k : LuaKey}
    (h : ∀ j < items.length, .integer ((i + j : ℕ) : ℤ) ≠ k) (fields : Fields) :
    rawget (pushList fl fields i items) k = rawget fields k := by
  induction items generalizing fields i with
  | nil => rfl
  | cons v items ih =>
    have hfirst := h 0 (by simp)
    rw [Nat.add_zero] at hfirst
    rw [pushList, ih, rawget_rawset_ne hfirst.symm]
    intro j hj
    have hnext := h (j + 1) (by simpa using hj)
    rwa [show i + 1 + j = i + (j + 1) by omega]

/-- An item is read under its index. -/
theorem rawget_pushList {items : List QVariant} {i j : ℕ} {v : QVariant} (h : items[j]? = some v)
    (fields : Fields) :
    rawget (pushList fl fields i items) (.integer ((i + j : ℕ) : ℤ)) = Push fl v := by
  induction items generalizing fields i j with
  | nil => cases h
  | cons first items ih =>
    rw [pushList]
    cases j with
    | zero =>
      obtain rfl : first = v := by simpa using h
      rw [rawget_pushList_of_not_index]
      · exact rawget_rawset_self fields (.integer i) _
      intro j _
      rw [ne_eq, LuaKey.integer.injEq]
      omega
    | succ j =>
      have hnext := ih (i := i + 1) (by simpa using h)
        (rawset fields (.integer i) (Push fl first))
      rwa [show i + 1 + j = i + (j + 1) by omega] at hnext

/-- The key finds an entry of a map exactly when it is the UTF-8 form of the entry's key. -/
def FindsSame : QVariant → LuaKey → Prop
  | .map entries, .string s =>
      ∀ e ∈ entries, e.1 = fromUtf8Sized s s.length ↔ toStdString e.1 = s
  | _, _ => True

/-- A field of the table of a map is the entry that is found under the key. -/
theorem rawget_push_map {entries : List (QString × QVariant)}
    (hsorted : (entries.map Prod.fst).Pairwise (· < ·)) {k : LuaKey}
    (h : FindsSame (.map entries) k) :
    rawget (pushMap fl [] entries) k = (childOf (.map entries) k).elim .nil (Push fl) := by
  cases k with
  | string s =>
    rw [childOf]
    cases hfind : entries.lookup (fromUtf8Sized s s.length) with
    | none =>
      rw [rawget_pushMap_of_not_mem]
      · rfl
      · intro e he heq
        have hkey := (h e he).mpr (LuaKey.string.inj heq)
        simpa [hkey] using List.lookup_eq_none_iff.mp hfind e he
    | some child =>
      have hmem := Assoc.mem_of_lookup hfind
      have hs := (h _ hmem).mp rfl
      simp only at hs
      rw [Option.elim_some, ← hs]
      apply rawget_pushMap fl hmem
      intro d hd heq
      apply entry_unique hsorted hd hmem
      exact (h d hd).mpr (heq.trans hs)
  | integer n =>
    rw [rawget_pushMap_of_not_mem fl (by simp)]
    rfl
  | number bits =>
    rw [rawget_pushMap_of_not_mem fl (by simp)]
    rfl
  | boolean b =>
    rw [rawget_pushMap_of_not_mem fl (by simp)]
    rfl

/-- A field of the table of a list is the item at the index. -/
theorem rawget_push_list (items : List QVariant) (k : LuaKey) :
    rawget (pushList fl [] 1 items) k = (childOf (.list items) k).elim .nil (Push fl) := by
  cases k with
  | integer n =>
    rw [childOf]
    by_cases hn : 1 ≤ n ∧ n.toNat - 1 < items.length
    · have hindex : (.integer n : LuaKey) = .integer ((1 + (n.toNat - 1) : ℕ) : ℤ) := by
        rw [LuaKey.integer.injEq]
        omega
      have hitem := List.getElem?_eq_getElem hn.2
      rw [if_pos hn.1, hitem, hindex, rawget_pushList fl hitem]
      rfl
    · rw [rawget_pushList_of_not_index]
      · split
        · next hpos =>
          rw [List.getElem?_eq_none (by omega)]
          rfl
        · rfl
      · intro j hj
        rw [ne_eq, LuaKey.integer.injEq]
        omega
  | string s =>
    rw [rawget_pushList_of_not_index fl (by simp)]
    rfl
  | number bits =>
    rw [rawget_pushList_of_not_index fl (by simp)]
    rfl
  | boolean b =>
    rw [rawget_pushList_of_not_index fl (by simp)]
    rfl

/-- Indexing the table of a container reads the child that is found under the key. -/
theorem gettable_push (methods : Methods) {v : QVariant} (hv : v.isContainer = true)
    (hsorted : v.Ascending) {k : LuaKey} (h : FindsSame v k) :
    gettable methods (Push fl v) k =
      some ((childOf v k).elim .nil (Push fl)) := by
  cases v with
  | leaf s => cases hv
  | map entries =>
    rw [QVariant.Ascending] at hsorted
    rw [Push, gettable, rawget_push_map fl hsorted.1 h]
  | list items => rw [Push, gettable, rawget_push_list]

/-- A view shows what indexing the table of its subtree reads. -/
theorem plain_PushIndexed (methods : Methods) {w : View} (hw : w.value.isContainer = true)
    (hsorted : w.value.Ascending) {k : LuaKey} (h : FindsSame w.value k) :
    gettable methods (Push fl w.value) k = some ((PushIndexed fl w k).plain fl) := by
  rw [gettable_push fl methods hw hsorted h, PushIndexed]
  cases childOf w.value k with
  | none => rfl
  | some child => rw [Option.elim_some, plain_PushChildView]

end Radapter.Lazy
