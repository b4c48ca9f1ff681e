import Radapter.Flatten

/-!
# Rebuilding messages from field paths

`Unflatten` writes every entry of a flat map into a message tree. A path is cut at its
separators; a part `[i]` selects a list item, any other part a map entry, and a level that has
another type is replaced by an empty container first.
-/

namespace Radapter

/-- The value of a digit text, in the wrapping arithmetic of a 64-bit `long`. -/
def tryDigits : Bytes → ℤ → Option ℤ
  | [], res => some res
  | ch :: rest, res =>
      if 48 ≤ ch.toNat && ch.toNat ≤ 57 then
        tryDigits rest ((res * 10 + (ch.toNat - 48)).bmod (2 ^ 64))
      else none

/-- `tryInt`: the index a part names, or `-1`. -/
def tryInt (part : Bytes) : ℤ :=
  if part.length < 3 ∨ part.head? ≠ some 91 ∨ part.getLast? ≠ some 93 then -1
  else (tryDigits (part.drop 1).dropLast 0).getD (-1)

/-- `walkParts`: the parts of a path. One leading separator is skipped, an empty path has no
part. -/
def walkParts (key : Bytes) : List Bytes :=
  if key = [] then []
  else (if key.head? = some colon then key.tail else key).splitOn colon

/-- `QMap::operator[]` with an assignment: the entry is made when it is missing. -/
def updateEntry (q : QString) (f : QVariant → QVariant) :
    List (QString × QVariant) → List (QString × QVariant)
  | [] => [(q, f .invalid)]
  | (k, v) :: rest =>
      if q < k then (q, f .invalid) :: (k, v) :: rest
      else if q = k then (k, f v) :: rest
      else (k, v) :: updateEntry q f rest

/-- The loop that pads a list up to an item, and the assignment to it. -/
def updateItem (f : QVariant → QVariant) : ℕ → List QVariant → List QVariant
  | 0, [] => [f .invalid]
  | 0, v :: rest => f v :: rest
  | n + 1, [] => .invalid :: updateItem f n []
  | n + 1, v :: rest => v :: updateItem f n rest

/-- `QString::fromUtf8(subkey.data(), int(subkey.size()))` for a part with the parts behind it in
the path: `data` points into the path, which goes on behind the part. -/
def partKey (part : Bytes) (rest : List Bytes) : QString :=
  fromUtf8Sized ([colon].intercalate (part :: rest)) part.length

/-- The walk of one entry from a level down to the place of its value. -/
def setPath (value : QVariant) : List Bytes → QVariant → QVariant
  | [], level => level
  | part :: rest, level =>
      let below := fun old =>
        match rest with
        | [] => value
        | _ :: _ => setPath value rest old
      if tryInt part < 0 ∨ 2 ^ 31 - 1 < tryInt part then
        match level with
        | .map entries => .map (updateEntry (partKey part rest) below entries)
        | _ => .map (updateEntry (partKey part rest) below [])
      else
        match level with
        | .list items => .list (updateItem below (tryInt part).toNat items)
        | _ => .list (updateItem below (tryInt part).toNat [])

/-- `Unflatten`. -/
def Unflatten (out : QVariant) (flat : FlatMap) : QVariant :=
  flat.foldl (fun out it => setPath it.2 (walkParts it.1) out) out

/-- The path `a:[1]` makes a map with a list that is padded up to its second item. -/
example : Unflatten .invalid [([97, 58, 91, 49, 93], .leaf (.bool true))] =
    .map [([97], .list [.invalid, .leaf (.bool true)])] := by decide

end Radapter
