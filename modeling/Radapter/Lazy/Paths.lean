import Radapter.Lazy.View
import Radapter.Unflatten

/-!
# Reading along a path

`get` follows the parts of a path, cut at a separator of any length. There are two walks: `Get` for
tables and `GetPath` for views. The walk of a table passes over an empty first part, the walk of a
view looks it up like any other, so the two part ways at a leading separator.
-/

namespace Radapter.Lazy

open Library Lua

/-! ## Cutting a path -/

/-- `find` of a separator: what stands before its first occurrence and what stands behind it. -/
def cut (sep : Bytes) : Bytes → Option (Bytes × Bytes)
  | [] => none
  | b :: rest =>
      if sep <+: b :: rest then some ([], (b :: rest).drop sep.length)
      else (cut sep rest).map (fun found => (b :: found.1, found.2))

/-- The loop that cuts a path. Every round takes at least the separator off. -/
def cutLoop (sep : Bytes) : ℕ → Bytes → List Bytes
  | 0, path => [path]
  | fuel + 1, path =>
      match cut sep path with
      | none => [path]
      | some (part, rest) => part :: cutLoop sep fuel rest

/-- The parts of a path. -/
def partsOf (sep path : Bytes) : List Bytes := cutLoop sep path.length path

/-- `PushPathPart`. -/
def PushPathPart (part : Bytes) : LuaKey :=
  if tryInt part < 0 then .string part else .integer (tryInt part)

/-- The keys a view is indexed with along a path. -/
def viewKeys (sep path : Bytes) : List LuaKey := (partsOf sep path).map PushPathPart

/-- The keys a table is indexed with along a path: `if (ptr)` passes over an empty first part. -/
def tableKeys (sep path : Bytes) : List LuaKey :=
  if sep <+: path then viewKeys sep (path.drop sep.length) else viewKeys sep path

/-- What is behind a separator is shorter than the path. -/
theorem length_of_cut {sep path part rest : Bytes} (hsep : sep ≠ [])
    (h : cut sep path = some (part, rest)) : rest.length < path.length := by
  have hpos := List.length_pos_of_ne_nil hsep
  induction path generalizing part with
  | nil => cases h
  | cons b path ih =>
    rw [cut] at h
    split at h
    · obtain ⟨-, rfl⟩ : [] = part ∧ (b :: path).drop sep.length = rest := by simpa using h
      rw [List.length_drop, List.length_cons]
      omega
    · obtain ⟨⟨before, behind⟩, hfound, heq⟩ := Option.map_eq_some_iff.mp h
      obtain ⟨-, rfl⟩ : b :: before = part ∧ behind = rest := by simpa using heq
      have hlt := ih hfound
      rw [List.length_cons]
      omega

/-- More rounds than bytes change nothing. -/
theorem cutLoop_eq {sep : Bytes} (hsep : sep ≠ []) {fuel : ℕ} {path : Bytes}
    (hfuel : path.length ≤ fuel) : cutLoop sep fuel path = partsOf sep path := by
  induction fuel using Nat.strongRecOn generalizing path with
  | ind fuel ih =>
    unfold partsOf
    cases hcut : cut sep path with
    | none =>
      have hstop : ∀ n, cutLoop sep n path = [path] := by
        intro n
        cases n with
        | zero => rfl
        | succ n => simp only [cutLoop, hcut]
      rw [hstop, hstop]
    | some found =>
      obtain ⟨part, rest⟩ := found
      have hlt := length_of_cut hsep hcut
      obtain ⟨n, hn⟩ : ∃ n, path.length = n + 1 := ⟨path.length - 1, by omega⟩
      obtain ⟨m, rfl⟩ : ∃ m, fuel = m + 1 := ⟨fuel - 1, by omega⟩
      rw [hn]
      simp only [cutLoop, hcut]
      rw [ih m (by omega) (by omega)]
      rcases Nat.lt_or_ge n (m + 1) with hlt' | hge
      · rw [ih n hlt' (by omega)]
      · omega

/-- A leading separator makes an empty first part. -/
theorem partsOf_append {sep : Bytes} (hsep : sep ≠ []) (rest : Bytes) :
    partsOf sep (sep ++ rest) = [] :: partsOf sep rest := by
  obtain ⟨b, more, rfl⟩ := List.exists_cons_of_ne_nil hsep
  have hcut : cut (b :: more) (b :: more ++ rest) = some ([], rest) := by
    rw [List.cons_append, cut, if_pos]
    · simp
    · exact List.prefix_append (b :: more) rest
  rw [partsOf, List.length_append, List.length_cons, Nat.add_right_comm]
  simp only [cutLoop, hcut]
  rw [cutLoop_eq hsep (by omega)]

/-- The keys of a path with a leading separator. -/
theorem viewKeys_append {sep : Bytes} (hsep : sep ≠ []) (rest : Bytes) :
    viewKeys sep (sep ++ rest) = .string [] :: viewKeys sep rest := by
  rw [viewKeys, partsOf_append hsep, List.map_cons]
  rfl

/-- A leading separator is passed over in a table. -/
theorem tableKeys_append (sep rest : Bytes) : tableKeys sep (sep ++ rest) = viewKeys sep rest := by
  rw [tableKeys, if_pos (List.prefix_append sep rest), List.drop_left]

/-! ## The two walks -/

/-- The loop of `Get`. A level that is no table is not checked for: reading it with `lua_rawget`
is undefined, which is `none` here. -/
def getLoop : LuaValue → List LuaKey → Option LuaValue
  | v, [] => some v
  | .table fields, k :: rest =>
      if (rawget fields k).isNil then some .nil else getLoop (rawget fields k) rest
  | _, _ :: _ => none

/-- `Get` of a table. -/
def Get (sep path : Bytes) (table : LuaValue) : Option LuaValue :=
  if path = [] ∨ path = sep then some table else getLoop table (tableKeys sep path)

/-- The loop of `GetPath`: a level that is no view has no parts. -/
def getPathLoop (fl : Floats) : View → List LuaKey → Shown
  | w, [] => .view w
  | w, k :: rest =>
      match PushIndexed fl w k with
      | .view below => getPathLoop fl below rest
      | .value v => if rest = [] then .value v else .value .nil

/-- `GetPath` of a view whose message is not materialized. -/
def GetPath (fl : Floats) (sep path : Bytes) (w : View) : Shown :=
  if path = [] ∨ path = sep then .view w else getPathLoop fl w (viewKeys sep path)

end Radapter.Lazy
