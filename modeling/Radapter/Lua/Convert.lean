import Radapter.Lua.Value
import Radapter.Unflatten

/-!
# Lua values as messages

`toQVar` turns a Lua value into a message. A string becomes text when Qt's UTF-8 decoder reports
no error, else a byte array. A table is a list when it has a field `1`, and the list goes on up to
the first missing index; any other table is a map, made field by field in the order of `next`.
-/

namespace Radapter.Lua

/-! ## Strings -/

/-- What a `QStringDecoder` made of its input. -/
structure Decoded where
  text : QString
  hasError : Bool
  /-- The bytes of an incomplete sequence at the end, kept for the next call. -/
  remaining : Bytes
  deriving DecidableEq, Repr

/-- The bytes are the start of a sequence that needs more of them. -/
def cutShort : Bytes → Bool
  | [] => false
  | b :: rest =>
      match sequenceHead b.toNat with
      | none => false
      | some (len, _, _) =>
          rest.length + 1 < len && rest.all (fun c => 0x80 ≤ c.toNat && c.toNat < 0xC0)

/-- The loop of the decoder: a byte that starts no sequence is an error and becomes U+FFFD, but an
incomplete sequence at the end is none. -/
def decodeLoop : ℕ → Bytes → Decoded
  | 0, bytes => ⟨[], false, bytes⟩
  | fuel + 1, bytes =>
      match bytes with
      | [] => ⟨[], false, []⟩
      | _ :: rest =>
          match decodePoint bytes with
          | some (c, len) =>
              let later := decodeLoop fuel (bytes.drop len)
              { later with text := utf16Point c ++ later.text }
          | none =>
              if cutShort bytes then ⟨[], false, bytes⟩
              else
                let later := decodeLoop fuel rest
                { later with text := 0xFFFD :: later.text, hasError := true }

/-- A fresh `QStringDecoder("UTF-8")` on its whole input: a byte-order mark at the front is
skipped. Every round of the loop consumes a byte. -/
def decodeUtf8 (bytes : Bytes) : Decoded :=
  let text := if bytes.take 3 = [0xEF, 0xBB, 0xBF] then bytes.drop 3 else bytes
  decodeLoop text.length text

/-- `QByteArray(s, int(len))` of a whole Lua string, which is followed by a NUL. -/
def sizedBytes (s : Bytes) : Bytes :=
  if asInt s.length < 0 then s.takeWhile (· ≠ 0) else s.take (asInt s.length).toNat

/-- `toStrOrBinary`. -/
def toStrOrBinary (s : Bytes) : Scalar :=
  if (decodeUtf8 s).hasError then .byteArray (sizedBytes s) else .string (decodeUtf8 s).text

/-- `QString::number` of an integer. -/
def integerText (n : ℤ) : QString :=
  (if n < 0 then [45] else []) ++ (decimal n.natAbs).map UInt8.toUInt16

/-- The map key of a string field, `toStrOrBinary(..).value<QString>()`. -/
def stringKey (s : Bytes) : QString :=
  match toStrOrBinary s with
  | .string q => q
  | .byteArray b => fromUtf8 b
  | _ => []

/-- The map key of a field; fields under other keys are left out. -/
def fieldKey (fl : Floats) : LuaKey → Option QString
  | .string s => some (stringKey s)
  | .integer n => some (integerText n)
  | .number bits => some (fl.numberText bits)
  | .boolean _ => none

/-! ## Tables -/

/-- A conversion that may raise an error. -/
abbrev Conversion := Except String QVariant

/-- The body of `iterateTable` for every field: `map.insert(k, v)`. -/
def collectMap (fl : Floats) : List (LuaKey × Conversion) → List (QString × QVariant) →
    Except String (List (QString × QVariant))
  | [], entries => .ok entries
  | (k, converted) :: rest, entries =>
      match fieldKey fl k with
      | none => collectMap fl rest entries
      | some q =>
          match converted with
          | .error e => .error e
          | .ok v => collectMap fl rest (updateEntry q (fun _ => v) entries)

/-- The loop over the indices from `i` on, up to the first that is missing. A table has no more
indices in a row than fields. -/
def collectList (converted : List (LuaKey × Conversion)) : ℕ → ℕ → Except String (List QVariant)
  | 0, _ => .ok []
  | fuel + 1, i =>
      match converted.lookup (.integer i) with
      | none => .ok []
      | some (.error e) => .error e
      | some (.ok v) =>
          match collectList converted fuel (i + 1) with
          | .error e => .error e
          | .ok rest => .ok (v :: rest)

mutual

/-- `toQVar` with `room` free slots on the Lua stack. A level of a table takes three of them while
its fields are converted, a level of a list two, and a table for which `lua_checkstack` finds no
three is dropped. `lazy` is `lazy::ToQVariant`. -/
def toQVar (fl : Floats) (lazy : ℕ → Path → Conversion) (room : ℕ) : LuaValue → Conversion
  | .nil => .ok .invalid
  | .boolean b => .ok (.leaf (.bool b))
  | .integer n => .ok (.leaf (.longlong n))
  | .number bits => .ok (.leaf (.double bits))
  | .string s => .ok (.leaf (toStrOrBinary s))
  | .bytes b => .ok (.leaf (.byteArray b))
  | .view path => lazy room path
  | .table fields =>
      if room < 3 then .ok .invalid
      else if (rawget fields (.integer 1)).isNil then
        match collectMap fl (toQVarFields fl lazy (room - 3) fields) [] with
        | .error e => .error e
        | .ok entries => .ok (.map entries)
      else
        match collectList (toQVarFields fl lazy (room - 2) fields) fields.length 1 with
        | .error e => .error e
        | .ok items => .ok (.list items)

/-- The conversions of the fields of a table. -/
def toQVarFields (fl : Floats) (lazy : ℕ → Path → Conversion) (room : ℕ) :
    Fields → List (LuaKey × Conversion)
  | [] => []
  | (k, v) :: rest => (k, toQVar fl lazy room v) :: toQVarFields fl lazy room rest

end

/-- The fields of a table are converted one by one. -/
theorem toQVarFields_eq (fl : Floats) (lazy : ℕ → Path → Conversion) (room : ℕ) (fields : Fields) :
    toQVarFields fl lazy room fields = fields.map (fun f => (f.1, toQVar fl lazy room f.2)) := by
  induction fields with
  | nil => rfl
  | cons f rest ih => rw [toQVarFields, ih, List.map_cons]

/-- The effect of one field on the map that is built. -/
def insertField (fl : Floats) (entries : List (QString × QVariant)) (field : LuaKey × Conversion) :
    List (QString × QVariant) :=
  match fieldKey fl field.1, field.2 with
  | some q, .ok v => updateEntry q (fun _ => v) entries
  | _, _ => entries

/-- Without an error the fields are inserted one after the other. -/
theorem collectMap_ok (fl : Floats) {fields : List (LuaKey × Conversion)}
    (h : ∀ f ∈ fields, ∃ v, f.2 = .ok v) (entries : List (QString × QVariant)) :
    collectMap fl fields entries = .ok (fields.foldl (insertField fl) entries) := by
  induction fields generalizing entries with
  | nil => rfl
  | cons f fields ih =>
    obtain ⟨k, converted⟩ := f
    obtain ⟨v, rfl : converted = .ok v⟩ := h (k, converted) (by simp)
    have hrest := ih (fun f hf => h f (List.mem_cons_of_mem _ hf))
    cases hk : fieldKey fl k with
    | none => simp only [collectMap, hk, hrest, List.foldl_cons, insertField]
    | some q => simp only [collectMap, hk, hrest, List.foldl_cons, insertField]

/-- The list that is built from the fields `i`, `i + 1` and so on. -/
theorem collectList_eq {converted : List (LuaKey × Conversion)} {items : List QVariant} {i : ℕ}
    (hitems : ∀ j v, items[j]? = some v → converted.lookup (.integer ((i + j : ℕ) : ℤ)) =
      some (.ok v))
    (hend : converted.lookup (.integer ((i + items.length : ℕ) : ℤ)) = none) {fuel : ℕ}
    (hfuel : items.length ≤ fuel) : collectList converted fuel i = .ok items := by
  induction items generalizing i fuel with
  | nil =>
    cases fuel with
    | zero => rfl
    | succ fuel =>
      rw [List.length_nil, Nat.add_zero] at hend
      rw [collectList, hend]
  | cons v items ih =>
    obtain ⟨fuel, rfl⟩ : ∃ n, fuel = n + 1 := ⟨fuel - 1, by simp at hfuel; omega⟩
    have hfirst : converted.lookup (.integer (i : ℤ)) = some (.ok v) := hitems 0 v rfl
    have hrest : collectList converted fuel (i + 1) = .ok items := by
      refine ih ?_ ?_ (by simpa using hfuel)
      · intro j w hw
        have hnext := hitems (j + 1) w hw
        rwa [show i + 1 + j = i + (j + 1) by omega]
      · rw [List.length_cons] at hend
        rwa [show i + 1 + items.length = i + (items.length + 1) by omega]
    simp only [collectList, hfirst, hrest]

/-- The items of a list are the fields `1`, `2` and so on. -/
example (fl : Floats) (lazy : ℕ → Path → Conversion) :
    toQVar fl lazy 10 (.table [(.integer 2, .boolean false), (.integer 1, .boolean true)]) =
      .ok (.list [.leaf (.bool true), .leaf (.bool false)]) := rfl

/-! ## Texts that survive -/

/-- A sequence that needs more bytes is not read. -/
theorem decodePoint_of_cutShort {tail : Bytes} (h : cutShort tail = true) :
    decodePoint tail = none := by
  cases tail with
  | nil => rfl
  | cons b rest =>
    cases hhead : sequenceHead b.toNat with
    | none => simp [decodePoint, hhead]
    | some head =>
      obtain ⟨len, least, bits⟩ := head
      simp only [cutShort, hhead, Bool.and_eq_true, decide_eq_true_eq] at h
      simp only [decodePoint, hhead, Option.bind_eq_bind, Option.bind_some, if_pos h.1]

/-- The decoder reads the UTF-8 form of a sequence of scalar values, up to an incomplete sequence
at the end. -/
theorem decodeLoop_points {points : List ℕ} (h : ∀ c ∈ points, IsScalar c) {tail : Bytes}
    (htail : tail = [] ∨ cutShort tail = true) {fuel : ℕ}
    (hfuel : (points.flatMap encodePoint ++ tail).length ≤ fuel) :
    decodeLoop fuel (points.flatMap encodePoint ++ tail) = ⟨ofPoints points, false, tail⟩ := by
  induction points generalizing fuel with
  | nil =>
    rw [List.flatMap_nil, List.nil_append] at hfuel ⊢
    cases fuel with
    | zero =>
      obtain rfl : tail = [] := List.length_eq_zero_iff.mp (by omega)
      rfl
    | succ fuel =>
      rcases htail with rfl | hcut
      · rfl
      · obtain ⟨b, rest, rfl⟩ := List.exists_cons_of_ne_nil
          (show tail ≠ [] by rintro rfl; cases hcut)
        simp only [decodeLoop, decodePoint_of_cutShort hcut, hcut, if_true, ofPoints_nil]
  | cons c points ih =>
    have hread := decodePoint_encodePoint (h c (by simp)) (points.flatMap encodePoint ++ tail)
    have hdrop := @List.drop_left _ (encodePoint c) (points.flatMap encodePoint ++ tail)
    have hpos := List.length_pos_of_ne_nil (encodePoint_ne_nil c)
    rw [List.flatMap_cons, List.append_assoc] at hfuel ⊢
    rw [List.length_append] at hfuel
    obtain ⟨b, more, hcons⟩ := List.exists_cons_of_ne_nil
      (show encodePoint c ++ (points.flatMap encodePoint ++ tail) ≠ [] by
        simp [encodePoint_ne_nil c])
    rw [hcons] at hread hdrop ⊢
    obtain ⟨fuel, rfl⟩ : ∃ n, fuel = n + 1 := ⟨fuel - 1, by omega⟩
    have hrest := @ih (fun c hc => h c (List.mem_cons_of_mem _ hc)) fuel (by omega)
    rw [decodeLoop]
    simp only [hread, hdrop, hrest, ofPoints_cons]

/-- A valid text without a byte-order mark at its front is read from its UTF-8 form without an
error. -/
theorem toStrOrBinary_toStdString {q : QString} (hvalid : validUtf16 q = true)
    (hbom : startsWithBom q = false) : toStrOrBinary (toStdString q) = .string q := by
  obtain ⟨points, hpoints, rfl⟩ := exists_points hvalid
  have hdecode : decodeUtf8 (points.flatMap encodePoint) = ⟨ofPoints points, false, []⟩ := by
    rw [decodeUtf8, if_neg]
    · have hread := @decodeLoop_points points hpoints [] (.inl rfl) _ (Nat.le_refl _)
      rwa [List.append_nil] at hread
    · intro hmark
      cases points with
      | nil => simp at hmark
      | cons c points =>
        have hc := hpoints c (by simp)
        rw [List.flatMap_cons, encodePoint_take_three hc] at hmark
        rw [(startsWithBom_ofPoints_cons hc points).mpr hmark] at hbom
        cases hbom
  rw [toStdString_ofPoints hpoints, toStrOrBinary, hdecode]
  rfl

end Radapter.Lua
