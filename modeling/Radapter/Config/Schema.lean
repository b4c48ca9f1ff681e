import Radapter.Config.Trace

/-!
# What a schema says

A schema marks the members that a configuration may leave out: those with a default, the optional
ones, and those that take any value.

The schema of a member with a default is made from the default itself: first its type is populated,
in place, and then what is there is dumped. Populating a container puts an element into it, so the
default of a container is shown with an element that it does not have.
-/

namespace Radapter.Config

open Library

variable {qt : Qt} {T : Type}

/-- The default that the schema of a member shows. -/
def shownDefault : Conf → Option Conf
  | .map entries => entries.lookup (latin1 (text "default"))
  | _ => none

/-- The schema shows what the default was populated to. -/
theorem shownDefault_withDefault (c : Template T) (x : T) :
    shownDefault ((withDefault c).populateSchema x).2 =
      (c.dump (c.populateSchema x).1 .invalid).toOption := by
  simp only [withDefault]
  cases c.dump (c.populateSchema x).1 .invalid with
  | ok conf => exact Sorted.lookup_assign_self ..
  | error e =>
    have hkey : (latin1 (text "default") == latin1 (text "[has_default]")) = false := by decide
    simp only [shownDefault, List.lookup_cons, hkey, List.lookup_nil, Except.toOption]

/-- A default that is shown is parsed back to what it was populated to. -/
theorem parse_shownDefault {c : Template T} {x : T} {shown : Conf}
    (hrestores : Restores c (c.populateSchema x).1)
    (hshown : shownDefault ((withDefault c).populateSchema x).2 = some shown)
    (hnull : shown.isNull = false) (out : T) (frame : TraceFrame) :
    (withDefault c).parse out shown frame = .ok (c.populateSchema x).1 := by
  rw [shownDefault_withDefault] at hshown
  obtain ⟨conf, hdump, hback⟩ := hrestores out
  rw [hdump, Except.toOption, Option.some.injEq] at hshown
  subst hshown
  simp only [withDefault, hnull, Bool.false_eq_true, if_false, hback]

/-! ## Members that may be left out -/

/-- The schema of a member that may be missing. -/
def mayBeMissing : Conf → Bool
  | .string s => s = latin1 (text "any")
  | .map entries => (entries.lookup (latin1 (text "[has_default]"))).isSome ||
      (entries.lookup (latin1 (text "[optional]"))).isSome
  | _ => false

/-- A type named by a word must be given, unless the word is `any`. -/
theorem mayBeMissing_literal {s : String} (h : text s ≠ text "any") :
    mayBeMissing (literal s) = false := by
  rw [literal, mayBeMissing, decide_eq_false_iff_not]
  exact fun heq => h (latin1_injective heq)

/-- A member with a default may be missing. -/
theorem mayBeMissing_withDefault (c : Template T) (x : T) :
    mayBeMissing ((withDefault c).populateSchema x).2 = true := by
  have hkey : latin1 (text "[has_default]") ≠ latin1 (text "default") := by decide
  simp only [withDefault]
  cases c.dump (c.populateSchema x).1 .invalid with
  | ok conf =>
    rw [mayBeMissing, Sorted.lookup_assign_ne hkey, List.lookup_cons, beq_self_eq_true]
    rfl
  | error e =>
    rw [mayBeMissing, List.lookup_cons, beq_self_eq_true]
    rfl

/-- So may an optional one. -/
theorem mayBeMissing_optional (c : Template T) (x : Option T) :
    mayBeMissing ((optional c).populateSchema x).2 = true := by
  have hkey : (latin1 (text "[has_default]") == latin1 (text "[optional]")) = false := by decide
  simp only [optional, mayBeMissing, List.lookup_cons, hkey, beq_self_eq_true]
  rfl

namespace Description

variable {S : Type}

/-- The keys of the schema of a struct are the names of its members, each with the schema of the
member. -/
theorem lookup_populateMembers {members : List (Part Member S)}
    (hnames : (members.map fun m => m.info.name).Nodup) (s : S) (map : List (QString × Conf)) :
    (∀ m ∈ members, ∃ x, (populateMembers members s map).2.lookup (latin1 m.info.name) =
      some (m.info.template.populateSchema x).2) ∧
    ∀ q, (∀ m ∈ members, latin1 m.info.name ≠ q) →
      (populateMembers members s map).2.lookup q = map.lookup q := by
  induction members generalizing s map with
  | nil => exact ⟨fun m hm => absurd hm List.not_mem_nil, fun _ _ => rfl⟩
  | cons m rest ih =>
    obtain ⟨hnew, hrest⟩ := List.nodup_cons.mp hnames
    obtain ⟨hin, hout⟩ := ih hrest (m.access.set (m.info.template.populateSchema
      (m.access.get s)).1 s) (Sorted.assign (latin1 m.info.name)
        (m.info.template.populateSchema (m.access.get s)).2 map)
    refine ⟨List.forall_mem_cons.mpr ⟨⟨m.access.get s, ?_⟩, hin⟩, fun q hq => ?_⟩
    · rw [populateMembers, hout _ fun n hn heq =>
        hnew (List.mem_map.mpr ⟨n, hn, latin1_injective heq⟩), Sorted.lookup_assign_self]
    · obtain ⟨hne, hothers⟩ := List.forall_mem_cons.mp hq
      rw [populateMembers, hout q hothers, Sorted.lookup_assign_ne (Ne.symm hne)]

end Description

/-- No member is named like a mark. -/
theorem mayBeMissing_struct {S : Type} (d : Description S) (s : S) :
    mayBeMissing (d.template.populateSchema s).2 = false := by
  have hbracket : ∀ name : Bytes, 91 ∈ name → ∀ m ∈ d.members,
      latin1 m.info.name ≠ latin1 name := by
    intro name hname m hm heq
    rw [← latin1_injective heq] at hname
    exact (d.names_plain m hm 91 hname).2 rfl
  have hnone : ∀ name : Bytes, 91 ∈ name →
      (Description.populateMembers d.members s []).2.lookup (latin1 name) = none := by
    intro name hname
    rw [(Description.lookup_populateMembers d.names_nodup s []).2 _ (hbracket name hname)]
    rfl
  rw [Description.template, mayBeMissing, hnone _ (by decide), hnone _ (by decide)]
  rfl

/-- What is missing is taken exactly where the schema says that it may be. -/
theorem mayBeMissing_iff {c : Template T} (h : Overload qt c) (x out : T) (frame : TraceFrame) :
    mayBeMissing (c.populateSchema x).2 = true ↔ ∃ y, c.parse out .invalid frame = .ok y := by
  have hrefused : ∀ {target : MetaType}, ¬ checkCanConvert qt target .invalid frame = .ok () := by
    intro target hcheck
    have hcan := checkCanConvert_eq_ok.mp hcheck
    rw [Conf.metaType, qt.canConvert_unknown] at hcan
    cases hcan
  have hno : ∀ {p : Prop}, ¬ p → (false = true ↔ p) := fun hp => iff_of_false Bool.false_ne_true hp
  cases h with
  | converted target value fromValue schema init hschema =>
    rw [converted, mayBeMissing_literal hschema]
    refine hno ?_
    rintro ⟨y, hy⟩
    obtain ⟨⟨⟩, hcheck, -⟩ := bind_eq_ok.mp hy
    exact hrefused hcheck
  | any => exact ⟨fun _ => ⟨.invalid, rfl⟩, fun _ => rfl⟩
  | anyList =>
    rw [anyList, mayBeMissing_literal (by decide)]
    refine hno ?_
    rintro ⟨y, hy⟩
    obtain ⟨⟨⟩, hcheck, -⟩ := bind_eq_ok.mp hy
    exact hrefused hcheck
  | customObject cls hcls =>
    rw [customObject, mayBeMissing_literal hcls]
    refine hno ?_
    rintro ⟨y, hy⟩
    obtain ⟨o, ho, -⟩ := bind_eq_ok.mp hy
    obtain ⟨⟨⟩, hcheck, -⟩ := bind_eq_ok.mp ho
    exact hrefused hcheck
  | enumeration e =>
    refine hno ?_
    rintro ⟨y, hy⟩
    simp only [enumeration, Conf.metaType, qt.canConvert_unknown, Bool.false_eq_true,
      if_false] at hy
    cases hy
  | number t =>
    rw [number, mayBeMissing_literal (by cases t <;> decide)]
    refine hno ?_
    rintro ⟨y, hy⟩
    obtain ⟨⟨⟩, hcheck, -⟩ := bind_eq_ok.mp hy
    exact hrefused hcheck
  | struct d hmembers =>
    rw [mayBeMissing_struct]
    refine hno ?_
    rintro ⟨y, hy⟩
    cases hy
  | withDefault c hc => exact ⟨fun _ => ⟨out, rfl⟩, fun _ => mayBeMissing_withDefault c x⟩
  | optional c hc => exact ⟨fun _ => ⟨none, rfl⟩, fun _ => mayBeMissing_optional c x⟩
  | optionalPtr c hc => exact ⟨fun _ => ⟨none, rfl⟩, fun _ => mayBeMissing_optional c none⟩
  | vector c ofString hc =>
    refine hno ?_
    rintro ⟨y, hy⟩
    cases ofString <;> cases hy
  | mapOf c key hc =>
    have hmark : mayBeMissing ((mapOf c key).populateSchema x).2 = false := by
      have hdefault : (latin1 (text "[has_default]") == latin1 (text "<key>")) = false := by decide
      have hoptional : (latin1 (text "[optional]") == latin1 (text "<key>")) = false := by decide
      simp only [mapOf, mayBeMissing, List.lookup_cons, hdefault, hoptional, List.lookup_nil]
      rfl
    rw [hmark]
    refine hno ?_
    rintro ⟨y, hy⟩
    cases hy

/-- The entry of a schema for a member. -/
def schemaEntry (name : Bytes) : Conf → Conf
  | .map fields => Conf.value fields (latin1 name)
  | _ => .invalid

end Radapter.Config
