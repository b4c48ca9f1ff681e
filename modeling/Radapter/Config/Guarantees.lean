import Radapter.Config.Settings

/-!
# What holds of every described type

The results about `Parse`, `Dump` and `PopulateSchema`, for any type that is built from the
templates, and each for some of the settings of the workers.
-/

namespace Radapter.Config

open Library

variable {qt : Qt} {T : Type}

/-- What is dumped is parsed back, whatever it is parsed over: for a value of a described type whose
structs have no other data members than the described ones, whose texts are UTF-8 and start with no
byte-order mark, and whose enumerators have names. -/
theorem dump_parse {c : Template T} {x : T} (h : Storable qt c x) :
    ∃ conf, c.dump x .invalid = .ok conf ∧ ∀ out frame, c.parse out conf frame = .ok x := by
  obtain ⟨conf, hdump, -⟩ := h.restores x
  refine ⟨conf, hdump, fun out frame => ?_⟩
  obtain ⟨conf', hdump', hparse⟩ := h.restores out
  obtain rfl := Except.ok.inj (hdump.symm.trans hdump')
  exact hparse frame

namespace Settings

/-- Two holding registers. -/
def someRegisters : RegistersMap where
  holding := [(text "level", { index := 3, type := .float32, mode := .read, validator := some 7 }),
    (text "valve", { index := 9, type := .uint16, mode := .read_write })]

end Settings

/-- A serial device, which inherits from another struct. -/
def Settings.someDevice : Settings.RtuDevice where
  name := text "rtu"
  port := text "/dev/ttyS0"
  on_read_overflow := .pop_last

/-- A registers map and a device of the program: what each dumps parses to it again, at any frame.
-/
theorem dump_parse_settings :
    (∃ conf, (Settings.registersMap Qt.plain).template.dump Settings.someRegisters .invalid =
      .ok conf ∧ ∀ out frame, (Settings.registersMap Qt.plain).template.parse out conf frame =
        .ok Settings.someRegisters) ∧
    ∃ conf, (Settings.rtuDevice Qt.plain).template.dump Settings.someDevice .invalid =
      .ok conf ∧ ∀ out frame, (Settings.rtuDevice Qt.plain).template.parse out conf frame =
        .ok Settings.someDevice := by
  have hnone : Settings.Complete [] := ⟨List.Pairwise.nil, fun _ he => absurd he List.not_mem_nil⟩
  refine ⟨dump_parse (Settings.storable_registersMap hnone ⟨?_, ?_⟩ hnone hnone), ?_⟩
  · exact List.pairwise_pair.mpr (by decide)
  · refine List.forall_mem_cons.mpr ⟨⟨by decide, nofun, nofun, nofun⟩, ?_⟩
    exact List.forall_mem_singleton.mpr ⟨by decide, nofun, nofun, nofun⟩
  · exact dump_parse (Settings.storable_rtuDevice (by decide) (by decide))

/-- An error of a described type is traced from the frame of the parse, or at the root from the name
of the struct that the type begins with, to a place of the configuration. What is at that place has
the whole refused, whatever else the configuration has and whatever it is parsed over. -/
theorem parse_error_blames {c : Template T} {conf : Conf} {out : T} {frame : TraceFrame}
    {e : ParseError} (hc : Overload qt c) (hconf : Ordered conf)
    (herr : c.parse out conf frame = .error e) :
    (∃ name, Opening qt c name) ∧ ∀ name, Opening qt c name →
      ∃ places, Names name frame conf places e ∧ Blames c conf places := by
  obtain ⟨name, hname, -⟩ := hc.traces
  exact ⟨⟨name, hname⟩, fun _ hname => hname.traces conf hconf out frame e herr⟩

/-- The settings of a master with a query whose type is a number of the wrong kind. -/
def Settings.someMaster : Conf :=
  .map [(latin1 (text "device"), .object "QObject"
      (some ⟨0, "radapter::modbus::MasterDevice", ["QObject"]⟩)),
    (latin1 (text "queries"), .list [.map [(latin1 (text "type"), .bool true)]]),
    (latin1 (text "registers"), .map []), (latin1 (text "slave_id"), .integer .longlong 1)]

/-- The type of the query of a master is not the name of a table. -/
theorem parse_error_blames_master :
    (∃ name, Opening Qt.plain (Settings.masterConfig Qt.plain).template name) ∧
      ∀ name, Opening Qt.plain (Settings.masterConfig Qt.plain).template name →
        ∃ places, Names name [] Settings.someMaster places
            ⟨[.key (text "modbus::MasterConfig"), .key (text "queries"), .index 0,
              .key (text "type")], text "Cannot convert to modbus::RegisterType from bool"⟩ ∧
          Blames (Settings.masterConfig Qt.plain).template Settings.someMaster places := by
  have herr : (Settings.masterConfig Qt.plain).template.parse
      { registers := {}, slave_id := 0, device := none } Settings.someMaster [] =
        .error ⟨[.key (text "modbus::MasterConfig"), .key (text "queries"), .index 0,
          .key (text "type")], text "Cannot convert to modbus::RegisterType from bool"⟩ := rfl
  refine parse_error_blames Settings.overload_masterConfig ?_ herr
  have hquery : Ordered (.map [(latin1 (text "type"), .bool true)]) :=
    .map _ (List.pairwise_singleton ..) (List.forall_mem_singleton.mpr (.scalar _ nofun nofun))
  refine .map _ (by unfold Sorted.Ascending; decide) ?_
  simp only [List.forall_mem_cons]
  exact ⟨.scalar _ nofun nofun, .list _ (List.forall_mem_singleton.mpr hquery),
    .map _ List.Pairwise.nil (fun _ he => absurd he List.not_mem_nil), .scalar _ nofun nofun,
    fun _ he => absurd he List.not_mem_nil⟩

/-- A parse that went through says all that there is to say: nothing changes when it is done again
over its result, even from a configuration with other entries that no member is named after. -/
theorem parse_again {c : Template T} {conf conf' : Conf} {out x : T} {frame : TraceFrame}
    (hc : Overload qt c) (hok : c.parse out conf frame = .ok x) (halike : Alike c conf conf')
    (frame' : TraceFrame) : c.parse x conf' frame' = .ok x := by
  rw [← halike.parse_eq x frame']
  exact (hc.settles conf out frame x hok frame').2

/-- A packing that is parsed again from a table with a further entry. -/
theorem parse_again_packing :
    (Settings.registerPacking Qt.plain).template.parse ⟨.little, .big⟩
      (.map [(latin1 (text "bit"), .bool true), (latin1 (text "word"), literal "big")])
      [.key (text "packing")] = .ok ⟨.little, .big⟩ := by
  have hok : (Settings.registerPacking Qt.plain).template.parse {}
      (.map [(latin1 (text "word"), literal "big")]) [] = .ok ⟨.little, .big⟩ := rfl
  refine parse_again Settings.overload_registerPacking hok (.struct _ _ _ ?_) _
  exact List.forall_mem_cons.mpr ⟨.same _ _, List.forall_mem_singleton.mpr (.same _ _)⟩

/-- The key of a member can be left out of a configuration exactly where the schema marks the
member. -/
theorem leave_out_iff {S : Type} {d : Description S}
    (hmembers : ∀ m ∈ d.members, Overload qt m.info.template) {asMap : List (QString × Conf)}
    {out s : S} {frame : TraceFrame} (hok : d.template.parse out (.map asMap) frame = .ok s)
    {m : Part Member S} (hm : m ∈ d.members) (x : S) :
    (∃ s', d.template.parse out (.map (Assoc.erase (latin1 m.info.name) asMap)) frame = .ok s') ↔
      mayBeMissing (schemaEntry m.info.name (d.template.populateSchema x).2) = true := by
  obtain ⟨y, hy⟩ := (Description.lookup_populateMembers d.names_nodup x []).1 m hm
  have hentry : schemaEntry m.info.name (d.template.populateSchema x).2 =
      (m.info.template.populateSchema y).2 := by
    rw [Description.template, schemaEntry, Conf.value, hy, Option.getD_some]
  have herased : Conf.value (Assoc.erase (latin1 m.info.name) asMap) (latin1 m.info.name) =
      .invalid := by
    rw [Conf.value, Assoc.lookup_erase_self, Option.getD_none]
  rw [hentry, mayBeMissing_iff (hmembers m hm) y (m.access.get out)
    (d.current frame ++ [.key m.info.name])]
  constructor
  · rintro ⟨s', hs'⟩
    have hget := Part.visit_get d.members_apart hs' hm
    rw [Description.parseMember, herased] at hget
    exact ⟨_, hget⟩
  · rintro ⟨value, hvalue⟩
    refine Part.exists_visit d.members_apart fun n hn => ?_
    by_cases hname : n = m
    · subst hname
      refine ⟨value, ?_⟩
      rw [Description.parseMember, herased]
      exact hvalue
    · refine ⟨n.access.get s, ?_⟩
      have hne : latin1 n.info.name ≠ latin1 m.info.name := by
        intro heq
        exact hname (List.inj_on_of_nodup_map d.names_nodup hn hm (latin1_injective heq))
      rw [Description.parseMember, Conf.value, Assoc.lookup_erase_ne hne]
      exact Part.visit_get d.members_apart hok hn

/-- The mode of a register can be left out. -/
theorem leave_out_mode :
    (∃ s', (Settings.register Qt.plain).template.parse { index := 0 } (.map (Assoc.erase
      (latin1 (text "mode")) [(latin1 (text "index"), .integer .longlong 5),
        (latin1 (text "mode"), literal "w")])) [] = .ok s') ↔
      mayBeMissing (schemaEntry (text "mode")
        ((Settings.register Qt.plain).template.populateSchema { index := 0 }).2) = true := by
  have hmembers : ∀ m ∈ (Settings.register Qt.plain).members,
      Overload Qt.plain m.info.template := by
    simp only [Settings.register, describe, Settings.overload_cons]
    exact ⟨.number _, .withDefault _ Settings.overload_registerPacking,
      .withDefault _ (.enumeration _), .withDefault _ (.enumeration _),
      .optionalPtr _ Settings.overload_luaFunction, Settings.overload_nil⟩
  have hok : (Settings.register Qt.plain).template.parse { index := 0 }
      (.map [(latin1 (text "index"), .integer .longlong 5),
        (latin1 (text "mode"), literal "w")]) [] = .ok { index := 5, mode := .write } := rfl
  have hm : (Settings.register Qt.plain).members.get ⟨3, by decide⟩ ∈
      (Settings.register Qt.plain).members := List.get_mem ..
  exact leave_out_iff hmembers hok hm { index := 0 }

/-- The default that the schema of a member shows is parsed back to the default exactly when the
schema is populated without a change. -/
theorem shown_is_default_iff {c : Template T} {x : T} {shown : Conf}
    (hstorable : Storable qt c (c.populateSchema x).1)
    (hshown : shownDefault ((withDefault c).populateSchema x).2 = some shown)
    (hnull : shown.isNull = false) :
    (∀ out frame, (withDefault c).parse out shown frame = .ok x) ↔ (c.populateSchema x).1 = x := by
  have hparse := parse_shownDefault hstorable.restores hshown hnull
  constructor
  · intro h
    exact Except.ok.inj ((hparse x []).symm.trans (h x []))
  · intro hkeeps out frame
    rw [hparse, hkeeps]

/-- The packing of a register is shown as it is by default. -/
theorem shown_packing_is_default :
    (∀ out frame, (withDefault (Settings.registerPacking Qt.plain).template).parse out
      (.map [(latin1 (text "byte"), literal "little"), (latin1 (text "word"), literal "little")])
      frame = .ok {}) ↔
      ((Settings.registerPacking Qt.plain).template.populateSchema {}).1 = {} := by
  have hshown : shownDefault
      ((withDefault (Settings.registerPacking Qt.plain).template).populateSchema {}).2 =
        some (.map [(latin1 (text "byte"), literal "little"),
          (latin1 (text "word"), literal "little")]) := rfl
  exact shown_is_default_iff (Settings.storable_registerPacking _) hshown rfl

end Radapter.Config
