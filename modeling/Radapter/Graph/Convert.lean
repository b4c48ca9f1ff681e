import Radapter.Graph.Value
import Radapter.Lazy.Forward

/-!
# Converting a graph

`toQVar` calls itself for the fields of a table and for what a view resolves to. Nothing looks out
for cycles: a level of a table takes slots of the Lua stack, whose number is bounded, and a level of
a view takes none for good but is counted by `ConvertDepth`, up to a limit. A conversion that goes
round forever runs out of one of the two, if the C++ stack holds so many calls. It does not hold the
hundreds of thousands that a table with itself as a field takes.

The keys of a view are pushed on the Lua stack without asking for the slots, so there may be too
few.

The counter is global. It is set back by the destructor of `ConvertDepth`, which a C++ exception
runs and an error raised by Lua does not.
-/

namespace Radapter.Graph

open Library Lua Lazy

/-- The errors that end a conversion. -/
inductive Failure where
  /-- The C++ exception of `ConvertDepth`. -/
  | nestsTooDeeply
  /-- The error that Lua raises where a view does not resolve. -/
  | stale
  deriving DecidableEq, Repr

/-- The slots of the Lua stack: those that it may still get and those that it has free. -/
structure Slots where
  room : ℕ
  free : ℕ

/-- The slots after some are taken. -/
def Slots.push (slots : Slots) (n : ℕ) : Slots := ⟨slots.room - n, slots.free - n⟩

/-- How a conversion ended, and `convertDepth` after it. -/
abbrev Ended (α : Type) := Except Failure α × ℕ

/-- The end of the scope of a `ConvertDepth`. -/
def leave {α : Type} : Ended α → Ended α
  | (.error .stale, depth) => (.error .stale, depth)
  | (ended, depth) => (ended, depth - 1)

/-- A loop that converts one value after the other and puts the results into a container. -/
def convertEach {α γ : Type} (convert : ℕ → Value → Option (Ended QVariant))
    (put : α → γ → QVariant → α) : ℕ → List (γ × Value) → α → Option (Ended α)
  | depth, [], made => some (.ok made, depth)
  | depth, (key, v) :: rest, made =>
      match convert depth v with
      | none => none
      | some (.error e, after) => some (.error e, after)
      | some (.ok x, after) => convertEach convert put after rest (put made key x)

/-- The fields `i`, `i + 1` and so on, up to the first that is missing. -/
def itemsFrom (fields : Fields) : ℕ → ℕ → List Value
  | 0, _ => []
  | rounds + 1, i =>
      if (rawget fields (.integer i)).isNil then []
      else rawget fields (.integer i) :: itemsFrom fields rounds (i + 1)

/-- The fields that get into a map, under their keys there. -/
def keyed (fl : Floats) (fields : Fields) : List (QString × Value) :=
  fields.filterMap (fun f => (fieldKey fl f.1).map (·, f.2))

section Conversion

variable (rt : Runtime) (h : Heap) (calls : ℕ)

/-- `lua_checkstack` for the slots of a level of a table, when it succeeds. -/
def Slots.checked (slots : Slots) : Slots :=
  { slots with free := rt.checkstack slots.room slots.free }

/-- `lazy::ToQVariant` of a view, given the conversion of what it resolves to. -/
def ToQVariant (toQVar : ℕ → Slots → Value → Option (Ended QVariant)) (depth : ℕ) (slots : Slots)
    (message : ℕ) (path : Path) (value : QVariant) : Option (Ended QVariant) :=
  if MaxConvertDepth ≤ depth then some (.error .nestsTooDeeply, depth)
  else
    match h.tableOf message with
    | none => some (leave (.ok value, depth + 1))
    | some table =>
        if slots.free < slotsNeeded path then none
        else
          match PushResolved (gettable rt h calls) table path with
          | none => some (leave (.error .stale, depth + 1))
          | some v => (toQVar (depth + 1) (slots.push 1) v).map leave

/-- `toQVar` with room for so many nested calls on the C++ stack, the value of `convertDepth` and
the slots of the Lua stack; none when one of the stacks is overrun. -/
def toQVar : ℕ → ℕ → Slots → Value → Option (Ended QVariant)
  | 0, _, _, _ => none
  | nested + 1, depth, slots, v =>
      match v with
      | .nil => some (.ok .invalid, depth)
      | .boolean b => some (.ok (.leaf (.bool b)), depth)
      | .integer n => some (.ok (.leaf (.longlong n)), depth)
      | .number bits => some (.ok (.leaf (.double bits)), depth)
      | .string s => some (.ok (.leaf (toStrOrBinary s)), depth)
      | .bytes b => some (.ok (.leaf (.byteArray b)), depth)
      | .object id => some (.ok (rt.handle id), depth)
      | .view message path value =>
          ToQVariant rt h calls (toQVar nested) depth slots message path value
      | .table t =>
          if slots.room < 3 then some (.ok .invalid, depth)
          else if (rawget (h.fields t) (.integer 1)).isNil then
            (convertEach (fun depth v => toQVar nested depth ((slots.checked rt).push 3) v)
              (fun entries q x => updateEntry q (fun _ => x) entries) depth
              (keyed rt.fl (h.fields t)) []).map (fun ended => (ended.1.map .map, ended.2))
          else
            (convertEach (fun depth v => toQVar nested depth ((slots.checked rt).push 2) v)
              (fun items (_ : Unit) x => items ++ [x]) depth
              ((itemsFrom (h.fields t) (h.fields t).length 1).map ((), ·)) []).map
              (fun ended => (ended.1.map .list, ended.2))

/-! ## What a conversion comes to -/

/-- The values that the conversion of a table converts, in their order. -/
def children (t : ℕ) : List Value :=
  if (rawget (h.fields t) (.integer 1)).isNil then (keyed rt.fl (h.fields t)).map Prod.snd
  else itemsFrom (h.fields t) (h.fields t).length 1

/-- The slots of the stack that are left for them. -/
def slotsBelow (slots : Slots) (t : ℕ) : Slots :=
  if (rawget (h.fields t) (.integer 1)).isNil then (slots.checked rt).push 3
  else (slots.checked rt).push 2

/-- A value that is neither a table nor a view. -/
def Plain : Value → Prop
  | .table _ => False
  | .view _ _ _ => False
  | _ => True

/-- All that the conversion comes to is converted, with so many nested calls. -/
inductive Converts : ℕ → ℕ → Slots → Value → Prop where
  | plain {nested depth : ℕ} {slots : Slots} {v : Value} : Plain v →
      Converts (nested + 1) depth slots v
  /-- A table that finds no room is dropped. -/
  | dropped {nested depth t : ℕ} {slots : Slots} : slots.room < 3 →
      Converts (nested + 1) depth slots (.table t)
  | table {nested depth t : ℕ} {slots : Slots} : 3 ≤ slots.room →
      (∀ v ∈ children rt h t, Converts nested depth (slotsBelow rt h slots t) v) →
      Converts (nested + 1) depth slots (.table t)
  | retained {nested depth message : ℕ} {slots : Slots} {path : Path} {value : QVariant} :
      depth < MaxConvertDepth → h.tableOf message = none →
      Converts (nested + 1) depth slots (.view message path value)
  | resolved {nested depth message table : ℕ} {slots : Slots} {path : Path} {value : QVariant}
      {v : Value} : depth < MaxConvertDepth → h.tableOf message = some table →
      slotsNeeded path ≤ slots.free →
      PushResolved (gettable rt h calls) table path = some v →
      Converts nested (depth + 1) (slots.push 1) v →
      Converts (nested + 1) depth slots (.view message path value)

/-- What a conversion may come to that it cannot convert. -/
inductive Obstacle where
  | nestsTooDeeply
  | stale
  /-- One call more than the C++ stack holds. -/
  | overflow
  /-- A view whose keys find no slots on the Lua stack. -/
  | overrun
  deriving DecidableEq, Repr

/-- The first thing that the conversion comes to and that cannot be converted. -/
inductive ComesTo : Obstacle → ℕ → ℕ → Slots → Value → Prop where
  | overflow {depth : ℕ} {slots : Slots} {v : Value} : ComesTo .overflow 0 depth slots v
  | limit {nested depth message : ℕ} {slots : Slots} {path : Path} {value : QVariant} :
      MaxConvertDepth ≤ depth →
      ComesTo .nestsTooDeeply (nested + 1) depth slots (.view message path value)
  | overrun {nested depth message table : ℕ} {slots : Slots} {path : Path} {value : QVariant} :
      depth < MaxConvertDepth → h.tableOf message = some table →
      slots.free < slotsNeeded path →
      ComesTo .overrun (nested + 1) depth slots (.view message path value)
  | stale {nested depth message table : ℕ} {slots : Slots} {path : Path} {value : QVariant} :
      depth < MaxConvertDepth → h.tableOf message = some table →
      slotsNeeded path ≤ slots.free →
      PushResolved (gettable rt h calls) table path = none →
      ComesTo .stale (nested + 1) depth slots (.view message path value)
  | resolved {e : Obstacle} {nested depth message table : ℕ} {slots : Slots} {path : Path}
      {value : QVariant} {v : Value} : depth < MaxConvertDepth → h.tableOf message = some table →
      slotsNeeded path ≤ slots.free →
      PushResolved (gettable rt h calls) table path = some v →
      ComesTo e nested (depth + 1) (slots.push 1) v →
      ComesTo e (nested + 1) depth slots (.view message path value)
  | table {e : Obstacle} {nested depth t : ℕ} {slots : Slots} {front back : List Value}
      {v : Value} : 3 ≤ slots.room → children rt h t = front ++ v :: back →
      (∀ u ∈ front, Converts rt h calls nested depth (slotsBelow rt h slots t) u) →
      ComesTo e nested depth (slotsBelow rt h slots t) v →
      ComesTo e (nested + 1) depth slots (.table t)

end Conversion

variable {rt : Runtime} {h : Heap} {calls : ℕ}

/-- What is converted comes to nothing that cannot be. -/
theorem Converts.not_comesTo {nested depth : ℕ} {slots : Slots} {v : Value}
    (hconverts : Converts rt h calls nested depth slots v) (e : Obstacle) :
    ¬ ComesTo rt h calls e nested depth slots v := by
  induction hconverts with
  | plain hplain =>
    intro hcomes
    cases hcomes <;> exact hplain
  | dropped hroom =>
    intro hcomes
    cases hcomes with
    | table henough => omega
  | table hroom _ ih =>
    intro hcomes
    cases hcomes with
    | table _ hchildren _ hbelow =>
      exact ih _ (by rw [hchildren]; simp) hbelow
  | retained hdepth hnone =>
    intro hcomes
    cases hcomes with
    | limit hlimit => exact absurd hdepth (not_lt.mpr hlimit)
    | overrun _ htable => simp [hnone] at htable
    | stale _ htable => simp [hnone] at htable
    | resolved _ htable => simp [hnone] at htable
  | resolved hdepth htable hslots hresolved _ ih =>
    intro hcomes
    cases hcomes with
    | limit hlimit => exact absurd hdepth (not_lt.mpr hlimit)
    | overrun _ _ hfew => exact absurd hslots (not_le.mpr hfew)
    | stale _ htable' _ hstale =>
      obtain rfl := Option.some.inj (htable.symm.trans htable')
      simp [hresolved] at hstale
    | resolved _ htable' _ hresolved' hbelow =>
      obtain rfl := Option.some.inj (htable.symm.trans htable')
      obtain rfl := Option.some.inj (hresolved.symm.trans hresolved')
      exact ih hbelow

/-- A conversion comes to one thing. -/
theorem ComesTo.unique {e e' : Obstacle} {nested depth : ℕ} {slots : Slots} {v : Value}
    (hcomes : ComesTo rt h calls e nested depth slots v)
    (hother : ComesTo rt h calls e' nested depth slots v) : e = e' := by
  induction hcomes with
  | overflow =>
    cases hother
    rfl
  | limit hlimit =>
    cases hother with
    | limit => rfl
    | overrun hdepth => exact absurd hdepth (not_lt.mpr hlimit)
    | stale hdepth => exact absurd hdepth (not_lt.mpr hlimit)
    | resolved hdepth => exact absurd hdepth (not_lt.mpr hlimit)
  | overrun hdepth _ hfew =>
    cases hother with
    | limit hlimit => exact absurd hdepth (not_lt.mpr hlimit)
    | overrun => rfl
    | stale _ _ hslots => exact absurd hslots (not_le.mpr hfew)
    | resolved _ _ hslots => exact absurd hslots (not_le.mpr hfew)
  | stale hdepth htable hslots hstale =>
    cases hother with
    | limit hlimit => exact absurd hdepth (not_lt.mpr hlimit)
    | overrun _ _ hfew => exact absurd hslots (not_le.mpr hfew)
    | stale => rfl
    | resolved _ htable' _ hresolved =>
      obtain rfl := Option.some.inj (htable.symm.trans htable')
      simp [hstale] at hresolved
  | resolved hdepth htable hslots hresolved _ ih =>
    cases hother with
    | limit hlimit => exact absurd hdepth (not_lt.mpr hlimit)
    | overrun _ _ hfew => exact absurd hslots (not_le.mpr hfew)
    | stale _ htable' _ hstale =>
      obtain rfl := Option.some.inj (htable.symm.trans htable')
      simp [hresolved] at hstale
    | resolved _ htable' _ hresolved' hbelow =>
      obtain rfl := Option.some.inj (htable.symm.trans htable')
      obtain rfl := Option.some.inj (hresolved.symm.trans hresolved')
      exact ih hbelow
  | table hroom hchildren hfront hbelow ih =>
    cases hother with
    | table _ hchildren' hfront' hbelow' =>
      -- Neither of the two children stands before the other, since all that do are converted.
      rw [hchildren] at hchildren'
      rcases List.append_eq_append_iff.mp hchildren' with
        ⟨more, hmore, hrest⟩ | ⟨more, hmore, hrest⟩
      · cases more with
        | nil =>
          obtain ⟨rfl, -⟩ := List.cons.inj (by simpa using hrest)
          exact ih hbelow'
        | cons first more =>
          obtain ⟨rfl, -⟩ := List.cons.inj hrest
          exact absurd hbelow ((hfront' _ (by simp [hmore])).not_comesTo _)
      · cases more with
        | nil =>
          obtain ⟨rfl, -⟩ := List.cons.inj (by simpa using hrest)
          exact ih hbelow'
        | cons first more =>
          obtain ⟨rfl, -⟩ := List.cons.inj hrest
          exact absurd hbelow' ((hfront _ (by simp [hmore])).not_comesTo _)

/-! ## How a conversion ends -/

/-- A value is converted, and the counter is as before. -/
def Converted (depth : ℕ) (ended : Option (Ended QVariant)) : Prop :=
  ∃ x, ended = some (.ok x, depth)

/-- A loop over values that are converted at the same depth ends when all are, or as the first that
is not: with its error, or with a stack overrun. -/
theorem convertEach_cases {α γ : Type} {convert : ℕ → Value → Option (Ended QVariant)}
    (put : α → γ → QVariant → α) {depth : ℕ} {values : List (γ × Value)}
    (hends : ∀ c ∈ values, Converted depth (convert depth c.2) ∨ convert depth c.2 = none ∨
      ∃ e after, convert depth c.2 = some (.error e, after)) (made : α) :
    (∃ all, convertEach convert put depth values made = some (.ok all, depth) ∧
        ∀ c ∈ values, Converted depth (convert depth c.2)) ∨
      ∃ front c back, values = front ++ c :: back ∧
        (∀ u ∈ front, Converted depth (convert depth u.2)) ∧
        (convert depth c.2 = none ∧ convertEach convert put depth values made = none ∨
          ∃ e after, convert depth c.2 = some (.error e, after) ∧
            convertEach convert put depth values made = some (.error e, after)) := by
  induction values generalizing made with
  | nil => exact Or.inl ⟨made, rfl, by simp⟩
  | cons c rest ih =>
    rcases hends c List.mem_cons_self with ⟨x, hx⟩ | hnone | ⟨e, after, he⟩
    · have hstep : convertEach convert put depth (c :: rest) made =
          convertEach convert put depth rest (put made c.1 x) := by
        rw [convertEach, hx]
      rw [hstep]
      rcases ih (fun d hd => hends d (List.mem_cons_of_mem c hd)) (put made c.1 x) with
        ⟨all, hall, hconverted⟩ | ⟨front, d, back, rfl, hfront, hd⟩
      · refine Or.inl ⟨all, hall, ?_⟩
        intro d hd
        rcases List.mem_cons.mp hd with rfl | hd
        · exact ⟨x, hx⟩
        · exact hconverted d hd
      · refine Or.inr ⟨c :: front, d, back, rfl, ?_, hd⟩
        intro u hu
        rcases List.mem_cons.mp hu with rfl | hu
        · exact ⟨x, hx⟩
        · exact hfront u hu
    · refine Or.inr ⟨[], c, rest, rfl, by simp, Or.inl ⟨hnone, ?_⟩⟩
      rw [convertEach, hnone]
    · refine Or.inr ⟨[], c, rest, rfl, by simp, Or.inr ⟨e, after, he, ?_⟩⟩
      rw [convertEach, he]

/-- How a conversion ends, given what it comes to. -/
inductive EndsAs (rt : Runtime) (h : Heap) (calls nested depth : ℕ) (slots : Slots) (v : Value) :
    Option (Ended QVariant) → Prop where
  | converted (x : QVariant) : Converts rt h calls nested depth slots v →
      EndsAs rt h calls nested depth slots v (some (.ok x, depth))
  | nestsTooDeeply : ComesTo rt h calls .nestsTooDeeply nested depth slots v →
      EndsAs rt h calls nested depth slots v (some (.error .nestsTooDeeply, depth))
  /-- The scopes that are left by a Lua error are still counted. -/
  | stale (after : ℕ) : depth < after → ComesTo rt h calls .stale nested depth slots v →
      EndsAs rt h calls nested depth slots v (some (.error .stale, after))
  | crashed (e : Obstacle) : e = .overflow ∨ e = .overrun →
      ComesTo rt h calls e nested depth slots v → EndsAs rt h calls nested depth slots v none

/-- The conversion of a table ends as that of its children. -/
theorem EndsAs.of_children {α γ : Type} {convert : ℕ → Value → Option (Ended QVariant)}
    {put : α → γ → QVariant → α} {nested depth t : ℕ} {slots : Slots} (hroom : 3 ≤ slots.room)
    {values : List (γ × Value)} (hvalues : values.map Prod.snd = children rt h t)
    (hends : ∀ v, EndsAs rt h calls nested depth (slotsBelow rt h slots t) v (convert depth v))
    (made : α) (whole : α → QVariant) :
    EndsAs rt h calls (nested + 1) depth slots (.table t)
      ((convertEach convert put depth values made).map
        (fun ended => (ended.1.map whole, ended.2))) := by
  have hconverts (c : γ × Value) (hc : Converted depth (convert depth c.2)) :
      Converts rt h calls nested depth (slotsBelow rt h slots t) c.2 := by
    obtain ⟨x, hx⟩ := hc
    have hend := hends c.2
    rw [hx] at hend
    cases hend with
    | converted _ hconverts => exact hconverts
  rcases @convertEach_cases _ _ convert put depth values (by
      intro c _
      have hend := hends c.2
      generalize convert depth c.2 = r at hend
      cases hend with
      | converted x _ => exact Or.inl ⟨x, rfl⟩
      | nestsTooDeeply _ => exact Or.inr (Or.inr ⟨_, _, rfl⟩)
      | stale after _ _ => exact Or.inr (Or.inr ⟨_, _, rfl⟩)
      | crashed _ _ _ => exact Or.inr (Or.inl rfl)) made with
    ⟨all, hall, hconverted⟩ | ⟨front, c, back, rfl, hfront, hstops⟩
  · rw [hall]
    refine EndsAs.converted (whole all) (.table hroom ?_)
    rw [← hvalues]
    intro v hv
    obtain ⟨c, hc, rfl⟩ := List.mem_map.mp hv
    exact hconverts c (hconverted c hc)
  · have hcomes (e : Obstacle)
        (he : ComesTo rt h calls e nested depth (slotsBelow rt h slots t) c.2) :
        ComesTo rt h calls e (nested + 1) depth slots (.table t) := by
      have hchildren : children rt h t = front.map Prod.snd ++ c.2 :: back.map Prod.snd := by
        rw [← hvalues, List.map_append, List.map_cons]
      refine .table hroom hchildren ?_ he
      intro u hu
      obtain ⟨d, hd, rfl⟩ := List.mem_map.mp hu
      exact hconverts d (hfront d hd)
    have hend := hends c.2
    rcases hstops with ⟨hc, hended⟩ | ⟨e, after, hc, hended⟩
    · rw [hended]
      rw [hc] at hend
      cases hend with
      | crashed e hcrash he => exact EndsAs.crashed e hcrash (hcomes e he)
    · rw [hended]
      rw [hc] at hend
      cases hend with
      | nestsTooDeeply he => exact EndsAs.nestsTooDeeply (hcomes _ he)
      | stale after hafter he => exact EndsAs.stale after hafter (hcomes _ he)

/-- The conversion of a view ends as that of what it resolves to. -/
theorem EndsAs.of_resolved {nested depth message table : ℕ} {slots : Slots} {path : Path}
    {value : QVariant} {v : Value} (hlimit : depth < MaxConvertDepth)
    (htable : h.tableOf message = some table) (hslots : slotsNeeded path ≤ slots.free)
    (hresolved : PushResolved (gettable rt h calls) table path = some v)
    {ended : Option (Ended QVariant)}
    (hend : EndsAs rt h calls nested (depth + 1) (slots.push 1) v ended) :
    EndsAs rt h calls (nested + 1) depth slots (.view message path value) (ended.map leave) := by
  cases hend with
  | converted x hbelow => exact .converted x (.resolved hlimit htable hslots hresolved hbelow)
  | nestsTooDeeply hbelow =>
    exact .nestsTooDeeply (.resolved hlimit htable hslots hresolved hbelow)
  | stale after hafter hbelow =>
    exact .stale after (Nat.lt_of_succ_lt hafter) (.resolved hlimit htable hslots hresolved hbelow)
  | crashed e hcrash hbelow =>
    exact .crashed e hcrash (.resolved hlimit htable hslots hresolved hbelow)

/-- Every conversion ends as what it comes to says. -/
theorem toQVar_ends (nested depth : ℕ) (slots : Slots) (v : Value) :
    EndsAs rt h calls nested depth slots v (toQVar rt h calls nested depth slots v) := by
  induction nested generalizing depth slots v with
  | zero => exact .crashed .overflow (Or.inl rfl) .overflow
  | succ nested ih =>
    cases v with
    | table t =>
      rw [toQVar]
      by_cases hroom : slots.room < 3
      · rw [if_pos hroom]
        exact .converted _ (.dropped hroom)
      · rw [if_neg hroom]
        by_cases hfirst : (rawget (h.fields t) (.integer 1)).isNil = true
        · rw [if_pos hfirst]
          refine EndsAs.of_children (not_lt.mp hroom) ?_ ?_ [] .map
          · rw [children, if_pos hfirst]
          · intro v
            rw [slotsBelow, if_pos hfirst]
            exact ih depth _ v
        · rw [if_neg hfirst]
          refine EndsAs.of_children (not_lt.mp hroom) ?_ ?_ [] .list
          · rw [children, if_neg hfirst, List.map_map]
            exact List.map_id _
          · intro v
            rw [slotsBelow, if_neg hfirst]
            exact ih depth _ v
    | view message path value =>
      rw [toQVar, ToQVariant]
      by_cases hlimit : MaxConvertDepth ≤ depth
      · rw [if_pos hlimit]
        exact .nestsTooDeeply (.limit hlimit)
      · rw [if_neg hlimit]
        rw [not_le] at hlimit
        cases htable : h.tableOf message with
        | none => exact .converted value (.retained hlimit htable)
        | some table =>
          simp only
          by_cases hfew : slots.free < slotsNeeded path
          · rw [if_pos hfew]
            exact .crashed .overrun (Or.inr rfl) (.overrun hlimit htable hfew)
          · rw [if_neg hfew]
            rw [not_lt] at hfew
            cases hresolved : PushResolved (gettable rt h calls) table path with
            | none => exact .stale _ (Nat.lt_succ_self depth) (.stale hlimit htable hfew hresolved)
            | some v =>
              exact EndsAs.of_resolved hlimit htable hfew hresolved (ih (depth + 1) _ v)
    | _ => exact .converted _ (.plain trivial)

/-! ## Termination -/

/-- The conversion terminates, with a message or with the error of `ConvertDepth`. -/
def EndsWell (rt : Runtime) (h : Heap) (calls nested depth : ℕ) (slots : Slots) (v : Value) :
    Prop :=
  ∃ ended, toQVar rt h calls nested depth slots v = some ended ∧
    ((∃ x, ended.1 = .ok x) ∨ ended.1 = .error .nestsTooDeeply)

/-- A conversion terminates, with a message or with the error of `ConvertDepth`, exactly if it comes
to nothing else before: no call more than the C++ stack holds, no view whose keys find no slots, and
no view that does not resolve. -/
theorem endsWell_iff (rt : Runtime) (h : Heap) (calls nested depth : ℕ) (slots : Slots)
    (v : Value) : EndsWell rt h calls nested depth slots v ↔
      ∀ e, ComesTo rt h calls e nested depth slots v → e = .nestsTooDeeply := by
  have hends := @toQVar_ends rt h calls nested depth slots v
  rw [EndsWell]
  generalize toQVar rt h calls nested depth slots v = r at hends
  cases hends with
  | converted x hconverts =>
    exact iff_of_true ⟨_, rfl, Or.inl ⟨x, rfl⟩⟩ fun e he => absurd he (hconverts.not_comesTo e)
  | nestsTooDeeply hdeep =>
    exact iff_of_true ⟨_, rfl, Or.inr rfl⟩ fun e he => he.unique hdeep
  | stale after _ hcomes =>
    apply iff_of_false
    · rintro ⟨ended, hended, hwell⟩
      obtain rfl := Option.some.inj hended
      rcases hwell with ⟨x, hx⟩ | hx
      · cases hx
      · cases hx
    · intro hall
      cases hall _ hcomes
  | crashed e hcrash hcomes =>
    apply iff_of_false
    · rintro ⟨ended, hended, -⟩
      cases hended
    · intro hall
      obtain rfl := hall _ hcomes
      rcases hcrash with hcrash | hcrash
      · cases hcrash
      · cases hcrash

/-- The calls are nested no further than there is room on the Lua stack and depth left. -/
theorem not_overflow {nested depth : ℕ} {slots : Slots}
    (hnested : slots.room + (MaxConvertDepth - depth) < nested) (v : Value) :
    ¬ ComesTo rt h calls .overflow nested depth slots v := by
  induction nested generalizing depth slots v with
  | zero => cases hnested
  | succ nested ih =>
    intro hcomes
    cases hcomes with
    | resolved hdepth _ _ _ hbelow =>
      refine ih ?_ _ hbelow
      simp only [Slots.push]
      omega
    | @table _ _ _ t _ _ _ _ hroom _ _ hbelow =>
      refine ih ?_ _ hbelow
      rw [slotsBelow]
      split_ifs
      · simp only [Slots.push, Slots.checked]
        omega
      · simp only [Slots.push, Slots.checked]
        omega

/-- On a C++ stack that holds so many calls, every conversion terminates whose views find slots. -/
theorem conversion_terminates {nested depth : ℕ} {slots : Slots} {v : Value}
    (hnested : slots.room + (MaxConvertDepth - depth) < nested)
    (hslots : ¬ ComesTo rt h calls .overrun nested depth slots v) :
    ∃ ended, toQVar rt h calls nested depth slots v = some ended := by
  have hends := @toQVar_ends rt h calls nested depth slots v
  generalize toQVar rt h calls nested depth slots v = r at hends
  cases hends with
  | converted x _ => exact ⟨_, rfl⟩
  | nestsTooDeeply _ => exact ⟨_, rfl⟩
  | stale after _ _ => exact ⟨_, rfl⟩
  | crashed e hcrash hcomes =>
    rcases hcrash with rfl | rfl
    · exact absurd hcomes (not_overflow hnested v)
    · exact absurd hcomes hslots

/-- The table `{a = t}` that is `t` itself. -/
def selfTable : Heap := ⟨[[(.string [97], .table 0)]], []⟩

/-- The conversion of a table that holds itself goes on as long as the C++ stack does, if the Lua
stack has three slots for each call. -/
theorem comesTo_overflow_self {nested depth : ℕ} {slots : Slots}
    (hroom : 3 * nested ≤ slots.room) :
    ComesTo .unused selfTable 0 .overflow nested depth slots (.table 0) := by
  induction nested generalizing slots with
  | zero => exact .overflow
  | succ nested ih =>
    have hchildren : children .unused selfTable 0 = [] ++ .table 0 :: [] := by rfl
    refine .table (by omega) hchildren (fun u hu => absurd hu List.not_mem_nil) (ih ?_)
    change 3 * nested ≤ slots.room - 3
    omega

/-- A fiber has 4 MiB of C++ stack: 262144 calls if each took 16 bytes. A table that holds itself
nests more of them before the Lua stack is full. -/
theorem not_endsWell_self :
    ¬ EndsWell .unused selfTable 0 262144 0 ⟨999980, 20⟩ (.table 0) := by
  rw [endsWell_iff]
  intro hall
  cases hall _ (comesTo_overflow_self (by decide))

end Radapter.Graph
