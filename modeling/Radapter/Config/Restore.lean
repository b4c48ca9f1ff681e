import Radapter.Config.Template

/-!
# What is dumped is parsed back

`RestoresFrom c out x` says that the dump of `x` parses to `x` over the value `out`. What this takes
is found type by type: a struct is restored if its members are, a vector if its items are. The
exceptions are texts that are not UTF-8, enumerators without a name, and what dumps to null where
null stands for an absent value.
-/

namespace Radapter.Config

open Library

/-- The dump of the value parses to the value over `out`. -/
def RestoresFrom {T : Type} (c : Template T) (out x : T) : Prop :=
  ∃ conf, c.dump x .invalid = .ok conf ∧ ∀ frame, c.parse out conf frame = .ok x

/-- The dump of the value parses to the value over any other. -/
def Restores {T : Type} (c : Template T) (x : T) : Prop := ∀ out, RestoresFrom c out x

/-- A dump that holds a value. -/
def DumpsValue {T : Type} (c : Template T) (x : T) : Prop :=
  ∀ conf, c.dump x .invalid = .ok conf → conf.isNull = false

variable {qt : Qt} {T : Type}

/-- The check passes exactly where Qt can convert. -/
theorem checkCanConvert_eq_ok {target : MetaType} {source : Conf} {frame : TraceFrame} :
    checkCanConvert qt target source frame = .ok () ↔
      qt.canConvert source.metaType target = true := by
  unfold checkCanConvert
  split <;> simp_all

/-- A value can be converted to its own type. -/
theorem checkCanConvert_self (conf : Conf) (h : conf.metaType ≠ .UnknownType)
    (frame : TraceFrame) : checkCanConvert qt conf.metaType conf frame = .ok () :=
  checkCanConvert_eq_ok.mpr (qt.canConvert_self h)

/-! ## Values -/

section Values

variable {value : Conf → T} {fromValue : T → Conf} {schema : String} {init x : T}

/-- A type that is dumped as itself is restored if reading the variant undoes writing it. -/
theorem restoresFrom_converted {target : MetaType} (htype : (fromValue x).metaType = target)
    (htarget : target ≠ .UnknownType) (out : T) :
    RestoresFrom (converted qt target value fromValue schema init) out x ↔
      value (fromValue x) = x := by
  subst htype
  have hparse : ∀ frame, (converted qt (fromValue x).metaType value fromValue schema init).parse
      out (fromValue x) frame = .ok (value (fromValue x)) := by
    intro frame
    refine bind_eq_ok.mpr ⟨(), checkCanConvert_self _ htarget frame, ?_⟩
    rw [qt.convert_self]
  constructor
  · rintro ⟨conf, hdump, hback⟩
    cases hdump
    exact Except.ok.inj ((hparse []).symm.trans (hback []))
  · intro hvalue
    exact ⟨fromValue x, rfl, fun frame => by rw [hparse, hvalue]⟩

/-- Types that are stored as a `QVariant` of their own come back by the conversion that does
nothing. -/
theorem restores_converted {target : MetaType} (htype : (fromValue x).metaType = target)
    (htarget : target ≠ .UnknownType) (hvalue : value (fromValue x) = x) :
    Restores (converted qt target value fromValue schema init) x :=
  fun out => (restoresFrom_converted htype htarget out).mpr hvalue

end Values

/-- A `bool` comes back. -/
theorem restores_bool (b : Bool) : Restores (bool qt) b :=
  restores_converted rfl nofun rfl

/-- A `std::string` is restored if its bytes survive the way through a `QString`. -/
theorem restores_string {s : Bytes} :
    Restores (string qt) s ↔ toStdString (fromUtf8 s) = s := by
  have hiff (out : Bytes) : RestoresFrom (string qt) out s ↔ toStdString (fromUtf8 s) = s := by
    refine restoresFrom_converted ?_ ?_ out
    · rfl
    · nofun
  exact ⟨fun h => (hiff []).mp (h []), fun h out => (hiff out).mpr h⟩

/-- A `QString` comes back, whatever its characters. -/
theorem restores_qString (s : QString) : Restores (qString qt) s :=
  restores_converted rfl nofun rfl

/-- A `QVariant` is dumped as it is. -/
theorem restores_any (conf : Conf) : Restores any conf :=
  fun _ => ⟨conf, rfl, fun _ => rfl⟩

/-- So is a `QVariantMap`. -/
theorem restores_anyMap (entries : List (QString × Conf)) : Restores (anyMap qt) entries :=
  restores_converted rfl nofun rfl

/-- So is a `QVariantList`. -/
theorem restores_anyList (items : List Conf) : Restores (anyList qt) items := by
  refine fun out => ⟨.list items, rfl, fun frame => ?_⟩
  have hself := qt.convert_self (.list items)
  refine bind_eq_ok.mpr ⟨(), checkCanConvert_self (.list items) nofun frame, ?_⟩
  rw [show qt.convert .QVariantList (.list items) = .list items from hself, Conf.asList]

/-- A Lua function comes back as the same reference. -/
theorem restores_luaFunction (ref : ℕ) : Restores (luaFunction qt) ref :=
  restores_converted rfl nofun rfl

/-- A `QUuid` comes back. -/
theorem restores_uuid (id : BitVec 128) : Restores (uuid qt) id :=
  restores_converted rfl nofun rfl

/-- A pointer to an object comes back, also the null pointer. -/
theorem restores_qObject (o : Option Object) : Restores (qObject qt) o :=
  restores_converted rfl nofun rfl

/-- A pointer is restored if the object is there and of the class. -/
theorem restores_customObject {cls : String} {o : Object}
    (hcls : cls ∈ o.className :: o.inherits) : Restores (customObject qt cls) (some o) := by
  refine fun out => ⟨.object "QObject" (some o), rfl, fun frame => ?_⟩
  refine bind_eq_ok.mpr ⟨some o, bind_eq_ok.mpr ⟨(), ?_, ?_⟩, if_pos hcls⟩
  · exact checkCanConvert_eq_ok.mpr (qt.canConvert_object "QObject")
  · rw [qt.convert_object]

/-- The value of an integer type, signed or not, names its bits. -/
theorem ofInt_toInt (t : IntegerType) (n : BitVec t.width) :
    BitVec.ofInt t.width (t.toInt n) = n := by
  unfold IntegerType.toInt
  split
  · exact BitVec.ofInt_toInt
  · rw [BitVec.ofInt_natCast, BitVec.ofNat_toNat, BitVec.setWidth_eq]

/-- An integer comes back: the dump is of a type whose range holds it. -/
theorem restores_number (t : IntegerType) (n : BitVec t.width) : Restores (number qt t) n := by
  refine fun out => ⟨.integer t n, rfl, fun frame => ?_⟩
  have hcan : checkCanConvert qt (.integer t) (.integer t n) frame = .ok () :=
    checkCanConvert_self (.integer t n) nofun frame
  refine bind_eq_ok.mpr ⟨(), hcan, ?_⟩
  simp only [toInteger, equals, ofInt_toInt, decide_true, if_true]

/-- An enumerator is restored if its name stands for it. -/
theorem restores_enumeration {E : Type} [DecidableEq E] {e : Enumeration E} {x : E} {name : Bytes}
    (hname : e.enum_to_name x = some name) (hback : e.name_to_enum name = some x)
    (hutf8 : toStdString (fromUtf8 name) = name) : Restores (enumeration qt e) x := by
  refine fun out => ⟨.string (fromUtf8 name), ?_, fun frame => ?_⟩
  · simp only [enumeration, hname]
  · have hcan : qt.canConvert (.QString) .QString = true := qt.canConvert_self (by simp)
    have hself : qt.convert .QString (.string (fromUtf8 name)) = .string (fromUtf8 name) :=
      qt.convert_self (.string (fromUtf8 name))
    simp only [enumeration, Conf.metaType, hcan, if_true, hself, Conf.asString, hutf8, hback]

/-! ## Containers -/

section Containers

variable {c : Template T}

/-- `WithDefault` parses to the default only where nothing is given. -/
theorem restores_withDefault {x : T} (hx : Restores c x) (hvalue : DumpsValue c x) :
    Restores (withDefault c) x := by
  intro out
  obtain ⟨conf, hdump, hback⟩ := hx out
  refine ⟨conf, hdump, fun frame => ?_⟩
  simp only [withDefault, hvalue conf hdump, Bool.false_eq_true, if_false, hback]

/-- Nothing is dumped for an empty optional, and nothing is parsed to one. -/
theorem restores_optional_none : Restores (optional c) none :=
  fun _ => ⟨.invalid, rfl, fun _ => rfl⟩

/-- An optional that holds a value is not taken for an empty one. -/
theorem restores_optional_some {x : T} (hx : Restores c x) (hvalue : DumpsValue c x) :
    Restores (optional c) (some x) := by
  intro out
  obtain ⟨conf, hdump, hback⟩ := hx c.init
  refine ⟨conf, hdump, fun frame => ?_⟩
  simp only [optional, hvalue conf hdump, Bool.false_eq_true, if_false]
  exact bind_eq_ok.mpr ⟨x, hback frame, rfl⟩

/-- The null pointer is dumped like an empty optional. -/
theorem restores_optionalPtr_none : Restores (optionalPtr c) none :=
  fun _ => ⟨.invalid, rfl, fun _ => rfl⟩

/-- A pointer is dumped as what it points to. -/
theorem restores_optionalPtr_some {x : T} (hx : Restores c x) (hvalue : DumpsValue c x) :
    Restores (optionalPtr c) (some x) :=
  fun out => restores_optional_some hx hvalue out

/-- The items of a list that is dumped are parsed back over any others. -/
theorem exists_dumpItems {xs : List T} (h : ∀ x ∈ xs, Restores c x) :
    ∃ items, dumpItems c xs = .ok items ∧
      ∀ i out frame, parseItems c i out items frame = .ok xs := by
  induction xs with
  | nil => exact ⟨[], rfl, fun _ _ _ => rfl⟩
  | cons x rest ih =>
    obtain ⟨hfirst, hrest⟩ := List.forall_mem_cons.mp h
    obtain ⟨items, hitems, hback⟩ := ih hrest
    obtain ⟨item, hitem, -⟩ := hfirst c.init
    refine ⟨item :: items, bind_eq_ok.mpr ⟨item, hitem, bind_eq_ok.mpr ⟨items, hitems, rfl⟩⟩, ?_⟩
    intro i out frame
    obtain ⟨item', hitem', hparse⟩ := hfirst (out.head?.getD c.init)
    obtain rfl := Except.ok.inj (hitem.symm.trans hitem')
    exact bind_eq_ok.mpr ⟨x, hparse _, bind_eq_ok.mpr ⟨rest, hback .., rfl⟩⟩

/-- A list comes back if its items do; induction on the items. -/
theorem restores_vector {ofString : Option (QString → T)} {xs : List T}
    (h : ∀ x ∈ xs, Restores c x) : Restores (vector c ofString) xs := by
  intro out
  obtain ⟨items, hitems, hback⟩ := exists_dumpItems h
  refine ⟨.list items, bind_eq_ok.mpr ⟨items, hitems, rfl⟩, fun frame => ?_⟩
  cases ofString <;> exact hback 0 out frame

section Maps

variable {K : Type} [LT K] [DecidableEq K] [DecidableLT K] {key : KeyType K}

/-- A map has no valid value at a key that it lacks. -/
theorem value_of_not_mem {j : QString} {entries : List (QString × Conf)}
    (h : j ∉ entries.map Prod.fst) : Conf.value entries j = .invalid := by
  rw [Conf.value, Assoc.lookup_eq_none_of_not_mem h]
  rfl

omit [DecidableEq K] [DecidableLT K] in
/-- What the dump of a map finds under a key: the dump of the value there, or what was found
before. -/
theorem lookup_dumpEntries {entries : List (K × T)} {res done : List (QString × Conf)}
    (hdistinct : (entries.map fun e => key.toQString e.1).Nodup)
    (hfresh : ∀ e ∈ entries, key.toQString e.1 ∉ res.map Prod.fst)
    (hdump : dumpEntries c key entries res = .ok done) (q : QString) :
    (∀ e ∈ entries, key.toQString e.1 = q →
      ∃ item, c.dump e.2 .invalid = .ok item ∧ done.lookup q = some item) ∧
    ((∀ e ∈ entries, key.toQString e.1 ≠ q) → done.lookup q = res.lookup q) := by
  induction entries generalizing res with
  | nil =>
    cases hdump
    exact ⟨fun e he => absurd he List.not_mem_nil, fun _ => rfl⟩
  | cons e rest ih =>
    obtain ⟨hnew, hrest⟩ := List.nodup_cons.mp hdistinct
    obtain ⟨hfirst, hlater⟩ := List.forall_mem_cons.mp hfresh
    obtain ⟨item, hitem, hdump⟩ := bind_eq_ok.mp hdump
    rw [value_of_not_mem hfirst] at hitem
    have hnext : ∀ f ∈ rest, key.toQString f.1 ∉
        (Sorted.assign (key.toQString e.1) item res).map Prod.fst := by
      intro f hf hmem
      rcases Sorted.mem_keys_assign.mp hmem with heq | hmem
      · exact hnew (List.mem_map.mpr ⟨f, hf, heq⟩)
      · exact hlater f hf hmem
    obtain ⟨hin, hout⟩ := ih hrest hnext hdump
    constructor
    · intro f hf hq
      rcases List.mem_cons.mp hf with rfl | hf
      · refine ⟨item, hitem, ?_⟩
        rw [hout fun g hg hgq => hnew (List.mem_map.mpr ⟨g, hg, hgq.trans hq.symm⟩), ← hq,
          Sorted.lookup_assign_self]
      · exact hin f hf hq
    · intro hne
      obtain ⟨hne, hothers⟩ := List.forall_mem_cons.mp hne
      rw [hout hothers, Sorted.lookup_assign_ne (Ne.symm hne)]

omit [DecidableEq K] [DecidableLT K] in
/-- The dump of a map goes through if that of each value does, and has its keys in order. -/
theorem exists_dumpEntries {entries : List (K × T)} {res : List (QString × Conf)}
    (hdistinct : (entries.map fun e => key.toQString e.1).Nodup)
    (hfresh : ∀ e ∈ entries, key.toQString e.1 ∉ res.map Prod.fst)
    (hall : ∀ e ∈ entries, ∃ item, c.dump e.2 .invalid = .ok item) (hres : Sorted.Ascending res) :
    ∃ done, dumpEntries c key entries res = .ok done ∧ Sorted.Ascending done := by
  induction entries generalizing res with
  | nil => exact ⟨res, rfl, hres⟩
  | cons e rest ih =>
    obtain ⟨hnew, hrest⟩ := List.nodup_cons.mp hdistinct
    obtain ⟨hfirst, hlater⟩ := List.forall_mem_cons.mp hfresh
    obtain ⟨⟨item, hitem⟩, htail⟩ := List.forall_mem_cons.mp hall
    have hnext : ∀ f ∈ rest, key.toQString f.1 ∉
        (Sorted.assign (key.toQString e.1) item res).map Prod.fst := by
      intro f hf hmem
      rcases Sorted.mem_keys_assign.mp hmem with heq | hmem
      · exact hnew (List.mem_map.mpr ⟨f, hf, heq⟩)
      · exact hlater f hf hmem
    obtain ⟨done, hdone, hasc⟩ :=
      ih hrest hnext htail (Sorted.ascending_assign hres (key.toQString e.1) item)
    refine ⟨done, bind_eq_ok.mpr ⟨item, ?_, hdone⟩, hasc⟩
    rw [value_of_not_mem hfirst, hitem]

/-- The parse of entries whose keys are distinct, each with a value that does not depend on what is
parsed over. -/
theorem exists_parseEntries [IsTrans K (· < ·)] [@Std.Trichotomous K (· < ·)]
    {done : List (QString × Conf)} {out : List (K × T)} {g : QString → T}
    (hdistinct : (done.map fun e => key.ofQString e.1).Nodup)
    (hparse : ∀ e ∈ done, ∀ o frame, c.parse o e.2 frame = .ok (g e.1)) (frame : TraceFrame)
    (hasc : Sorted.Ascending out) :
    ∃ entries, parseEntries c key out done frame = .ok entries ∧ Sorted.Ascending entries ∧
      ∀ k, (∀ e ∈ done, key.ofQString e.1 = k → entries.lookup k = some (g e.1)) ∧
        ((∀ e ∈ done, key.ofQString e.1 ≠ k) → entries.lookup k = out.lookup k) := by
  induction done generalizing out with
  | nil => exact ⟨out, rfl, hasc, fun k => ⟨fun e he => absurd he List.not_mem_nil, fun _ => rfl⟩⟩
  | cons e rest ih =>
    obtain ⟨hnew, hrest⟩ := List.nodup_cons.mp hdistinct
    obtain ⟨hfirst, hlater⟩ := List.forall_mem_cons.mp hparse
    obtain ⟨entries, hentries, hascending, hlookup⟩ :=
      ih hrest hlater (Sorted.ascending_assign hasc (key.ofQString e.1) (g e.1))
    refine ⟨entries, bind_eq_ok.mpr ⟨g e.1, hfirst _ _, hentries⟩, hascending, fun k => ?_⟩
    obtain ⟨hin, hout⟩ := hlookup k
    constructor
    · intro f hf hk
      rcases List.mem_cons.mp hf with rfl | hf
      · have hothers : ∀ h ∈ rest, key.ofQString h.1 ≠ k := by
          intro h hh hhk
          exact hnew (List.mem_map.mpr ⟨h, hh, hhk.trans hk.symm⟩)
        rw [hout hothers, ← hk, Sorted.lookup_assign_self]
      · exact hin f hf hk
    · intro hne
      obtain ⟨hne, hothers⟩ := List.forall_mem_cons.mp hne
      rw [hout hothers, Sorted.lookup_assign_ne (Ne.symm hne)]

omit [DecidableLT K] in
/-- Keys that survive the way through a `QString` have texts of their own. -/
theorem nodup_toQString [@Std.Irrefl K (· < ·)] {entries : List (K × T)}
    (hasc : Sorted.Ascending entries)
    (hkeys : ∀ e ∈ entries, key.ofQString (key.toQString e.1) = e.1) :
    (entries.map fun e => key.toQString e.1).Nodup := by
  refine List.Nodup.map_on ?_ (List.Nodup.of_map _ hasc.distinct)
  intro e he f hf heq
  have hsame : e.1 = f.1 := by rw [← hkeys e he, ← hkeys f hf, heq]
  have hlookup := Assoc.lookup_of_mem hasc.distinct he
  rw [hsame, Assoc.lookup_of_mem hasc.distinct hf] at hlookup
  exact Prod.ext hsame (Option.some.inj hlookup).symm

omit [DecidableEq K] [DecidableLT K] in
/-- Every entry of the dump of a map is the dump of a value. -/
theorem exists_of_mem_dumpEntries {entries : List (K × T)} {done : List (QString × Conf)}
    (himages : (entries.map fun e => key.toQString e.1).Nodup)
    (hdump : dumpEntries c key entries [] = .ok done) (hasc : Sorted.Ascending done)
    {f : QString × Conf} (hf : f ∈ done) :
    ∃ e ∈ entries, key.toQString e.1 = f.1 ∧ c.dump e.2 .invalid = .ok f.2 := by
  have hfound := Assoc.lookup_of_mem hasc.distinct hf
  obtain ⟨hin, hout⟩ := lookup_dumpEntries himages (fun _ _ => List.not_mem_nil) hdump f.1
  by_contra hnone
  have hmissing : ∀ e ∈ entries, key.toQString e.1 ≠ f.1 := by
    intro e he hkey
    obtain ⟨item, hitem, hlookup⟩ := hin e he hkey
    rw [hfound] at hlookup
    exact hnone ⟨e, he, hkey, Option.some.inj hlookup ▸ hitem⟩
  rw [hout hmissing] at hfound
  cases hfound

/-- A map is restored if its keys survive the way through a `QString` and its values are
restored. -/
theorem restores_mapOf [IsTrans K (· < ·)] [@Std.Trichotomous K (· < ·)]
    [@Std.Irrefl K (· < ·)] {entries : List (K × T)} (hasc : Sorted.Ascending entries)
    (hkeys : ∀ e ∈ entries, key.ofQString (key.toQString e.1) = e.1)
    (hvalues : ∀ e ∈ entries, Restores c e.2) : Restores (mapOf c key) entries := by
  have himages := nodup_toQString hasc hkeys
  have hdumps : ∀ e ∈ entries, ∃ item, c.dump e.2 .invalid = .ok item := by
    intro e he
    obtain ⟨item, hitem, -⟩ := hvalues e he c.init
    exact ⟨item, hitem⟩
  obtain ⟨done, hdone, hdoneAsc⟩ :=
    exists_dumpEntries himages (fun _ _ => List.not_mem_nil) hdumps List.Pairwise.nil
  have hsource : ∀ f ∈ done, ∃ e ∈ entries, key.toQString e.1 = f.1 ∧
      c.dump e.2 .invalid = .ok f.2 :=
    fun f hf => exists_of_mem_dumpEntries himages hdone hdoneAsc hf
  have hdistinct : (done.map fun f => key.ofQString f.1).Nodup := by
    refine List.Nodup.map_on ?_ (List.Nodup.of_map _ hdoneAsc.distinct)
    intro f hf h hh heq
    obtain ⟨e, he, hef, -⟩ := hsource f hf
    obtain ⟨e', he', heh, -⟩ := hsource h hh
    rw [← hef, ← heh, hkeys e he, hkeys e' he'] at heq
    have hlookup := Assoc.lookup_of_mem hdoneAsc.distinct hf
    rw [← hef, heq, heh, Assoc.lookup_of_mem hdoneAsc.distinct hh] at hlookup
    exact Prod.ext (by rw [← hef, ← heh, heq]) (Option.some.inj hlookup).symm
  -- what is under a key of the dump parses to the value under the key that it was made from
  let found : QString → T := fun q => (entries.lookup (key.ofQString q)).getD c.init
  have hparse : ∀ f ∈ done, ∀ o frame, c.parse o f.2 frame = .ok (found f.1) := by
    intro f hf o frame
    obtain ⟨e, he, hef, hdump⟩ := hsource f hf
    obtain ⟨conf, hconf, hback⟩ := hvalues e he o
    obtain rfl := Except.ok.inj (hconf.symm.trans hdump)
    simp only [found]
    rw [hback, ← hef, hkeys e he, Assoc.lookup_of_mem hasc.distinct he, Option.getD_some]
  refine fun out => ⟨.map done, bind_eq_ok.mpr ⟨done, hdone, rfl⟩, fun frame => ?_⟩
  obtain ⟨entries', hentries', hasc', hlookup⟩ :=
    exists_parseEntries hdistinct hparse frame List.Pairwise.nil
  have hsame : entries' = entries := by
    refine hasc'.ext hasc fun k => ?_
    obtain ⟨hin, hout⟩ := hlookup k
    cases hk : entries.lookup k with
    | some x =>
      have hmem := Assoc.mem_of_lookup hk
      obtain ⟨hfound, -⟩ := lookup_dumpEntries himages (fun _ _ => List.not_mem_nil) hdone
        (key.toQString k)
      obtain ⟨item, -, hitem⟩ := hfound _ hmem rfl
      rw [hin _ (Assoc.mem_of_lookup hitem) (hkeys _ hmem)]
      simp only [found]
      rw [hkeys _ hmem, hk, Option.getD_some]
    | none =>
      refine hout fun f hf hfk => ?_
      obtain ⟨e, he, hef, -⟩ := hsource f hf
      rw [← hef, hkeys e he] at hfk
      rw [← hfk, Assoc.lookup_of_mem hasc.distinct he] at hk
      cases hk
  rw [← hsame]
  exact hentries'

end Maps

end Containers

/-! ## Structs -/

/-- Two texts of Latin-1 with the same characters have the same bytes. -/
theorem latin1_injective : Function.Injective latin1 := by
  refine List.map_injective_iff.mpr fun a b h => ?_
  have hnat := congrArg UInt16.toNat h
  simp only [UInt16.toNat_ofNat'] at hnat
  rw [Nat.mod_eq_of_lt (a.toNat_lt.trans (by decide)),
    Nat.mod_eq_of_lt (b.toNat_lt.trans (by decide))] at hnat
  exact UInt8.toNat_inj.mp hnat

namespace Description

variable {S : Type} {d : Description S}

/-- The members are all that there is to the struct. -/
def Covers (d : Description S) : Prop :=
  ∀ s s', (∀ m ∈ d.members, m.access.get s = m.access.get s') → s = s'

/-- The dump of a struct goes through if that of each member does, and has each under its name. -/
theorem exists_dumpMembers {s : S} {members : List (Part Member S)} (map : List (QString × Conf))
    (hnames : (members.map fun m => m.info.name).Nodup)
    (hall : ∀ m ∈ members, ∃ nested, m.info.template.dump (m.access.get s) .invalid = .ok nested) :
    ∃ done, dumpMembers s members map = .ok done ∧
      (∀ m ∈ members, m.info.template.dump (m.access.get s) .invalid =
        .ok (Conf.value done (latin1 m.info.name))) ∧
      ∀ q, (∀ m ∈ members, latin1 m.info.name ≠ q) → done.lookup q = map.lookup q := by
  induction members generalizing map with
  | nil => exact ⟨map, rfl, fun m hm => absurd hm List.not_mem_nil, fun _ _ => rfl⟩
  | cons m rest ih =>
    obtain ⟨hnew, hrest⟩ := List.nodup_cons.mp hnames
    obtain ⟨⟨nested, hnested⟩, htail⟩ := List.forall_mem_cons.mp hall
    obtain ⟨done, hdone, hin, hout⟩ :=
      ih (Sorted.assign (latin1 m.info.name) nested map) hrest htail
    have hfirst : done.lookup (latin1 m.info.name) = some nested := by
      rw [hout _ fun n hn heq => hnew (List.mem_map.mpr ⟨n, hn, latin1_injective heq⟩),
        Sorted.lookup_assign_self]
    refine ⟨done, bind_eq_ok.mpr ⟨nested, hnested, hdone⟩, ?_, fun q hq => ?_⟩
    · refine List.forall_mem_cons.mpr ⟨?_, hin⟩
      rw [hnested, Conf.value, hfirst, Option.getD_some]
    · obtain ⟨hne, hothers⟩ := List.forall_mem_cons.mp hq
      rw [hout q hothers, Sorted.lookup_assign_ne (Ne.symm hne)]

/-- A struct that is all members is restored if they are. -/
theorem restores_template {s : S} (hcovers : d.Covers)
    (h : ∀ m ∈ d.members, Restores m.info.template (m.access.get s)) : Restores d.template s := by
  intro out
  have hdumps : ∀ m ∈ d.members, ∃ nested,
      m.info.template.dump (m.access.get s) .invalid = .ok nested := by
    intro m hm
    obtain ⟨nested, hnested, -⟩ := h m hm (m.access.get s)
    exact ⟨nested, hnested⟩
  obtain ⟨done, hdone, hmember, -⟩ := exists_dumpMembers [] d.names_nodup hdumps
  refine ⟨.map done, bind_eq_ok.mpr ⟨done, hdone, rfl⟩, fun frame => ?_⟩
  have hparse : ∀ m ∈ d.members, ∀ o,
      parseMember done (d.current frame) m o = .ok (m.access.get s) := by
    intro m hm o
    obtain ⟨nested, hnested, hback⟩ := h m hm o
    obtain rfl := Except.ok.inj ((hmember m hm).symm.trans hnested)
    exact hback _
  obtain ⟨s', hs'⟩ :=
    Part.exists_visit (s := out) d.members_apart fun m hm => ⟨_, hparse m hm _⟩
  have hsame : s' = s := by
    refine hcovers s' s fun m hm => ?_
    have hget := Part.visit_get d.members_apart hs' hm
    rw [hparse m hm] at hget
    exact (Except.ok.inj hget).symm
  rw [← hsame]
  exact hs'

end Description

/-! ## Described types -/

/-- What the dump keeps of a value of a described type. A `std::string` must be UTF-8 and must not
start with a byte-order mark, an enumerator must have a name, every data member of a struct must be
described, and what stands for an absent value must not be a value. -/
inductive Storable (qt : Qt) : {T : Type} → Template T → T → Prop
  | bool (b : Bool) : Storable qt (bool qt) b
  | string (s : Bytes) (h : toStdString (fromUtf8 s) = s) : Storable qt (string qt) s
  | qString (s : QString) : Storable qt (qString qt) s
  | any (conf : Conf) : Storable qt any conf
  | anyMap (entries : List (QString × Conf)) : Storable qt (anyMap qt) entries
  | anyList (items : List Conf) : Storable qt (anyList qt) items
  | luaFunction (ref : ℕ) : Storable qt (luaFunction qt) ref
  | uuid (id : BitVec 128) : Storable qt (uuid qt) id
  | qObject (o : Option Object) : Storable qt (qObject qt) o
  | customObject (cls : String) (o : Object) (h : cls ∈ o.className :: o.inherits) :
      Storable qt (customObject qt cls) (some o)
  | number (t : IntegerType) (n : BitVec t.width) : Storable qt (number qt t) n
  | enumeration {E : Type} [DecidableEq E] (e : Enumeration E) (x : E) (name : Bytes)
      (hname : e.enum_to_name x = some name) (hback : e.name_to_enum name = some x)
      (hutf8 : toStdString (fromUtf8 name) = name) : Storable qt (enumeration qt e) x
  | struct {S : Type} (d : Description S) (s : S) (hcovers : d.Covers)
      (h : ∀ m ∈ d.members, Storable qt m.info.template (m.access.get s)) :
      Storable qt d.template s
  | withDefault {T : Type} (c : Template T) (x : T) (h : Storable qt c x)
      (hvalue : DumpsValue c x) : Storable qt (withDefault c) x
  | optionalNone {T : Type} (c : Template T) : Storable qt (optional c) none
  | optionalSome {T : Type} (c : Template T) (x : T) (h : Storable qt c x)
      (hvalue : DumpsValue c x) : Storable qt (optional c) (some x)
  | optionalPtrNone {T : Type} (c : Template T) : Storable qt (optionalPtr c) none
  | optionalPtrSome {T : Type} (c : Template T) (x : T) (h : Storable qt c x)
      (hvalue : DumpsValue c x) : Storable qt (optionalPtr c) (some x)
  | vector {T : Type} (c : Template T) (ofString : Option (QString → T)) (xs : List T)
      (h : ∀ x ∈ xs, Storable qt c x) : Storable qt (vector c ofString) xs
  | stringMap {T : Type} (c : Template T) (entries : List (Bytes × T))
      (hasc : Sorted.Ascending entries)
      (hkeys : ∀ e ∈ entries, toStdString (fromUtf8 e.1) = e.1)
      (h : ∀ e ∈ entries, Storable qt c e.2) : Storable qt (mapOf c stringKey) entries
  | qStringMap {T : Type} (c : Template T) (entries : List (QString × T))
      (hasc : Sorted.Ascending entries)
      (h : ∀ e ∈ entries, Storable qt c e.2) : Storable qt (mapOf c qStringKey) entries

/-- Every storable value comes back from its dump; induction on the described type. -/
theorem Storable.restores {c : Template T} {x : T} (h : Storable qt c x) : Restores c x := by
  induction h with
  | bool b => exact restores_bool b
  | string s h => exact restores_string.mpr h
  | qString s => exact restores_qString s
  | any conf => exact restores_any conf
  | anyMap entries => exact restores_anyMap entries
  | anyList items => exact restores_anyList items
  | luaFunction ref => exact restores_luaFunction ref
  | uuid id => exact restores_uuid id
  | qObject o => exact restores_qObject o
  | customObject cls o h => exact restores_customObject h
  | number t n => exact restores_number t n
  | enumeration e x name hname hback hutf8 => exact restores_enumeration hname hback hutf8
  | struct d s hcovers h ih => exact d.restores_template hcovers ih
  | withDefault c x h hvalue ih => exact restores_withDefault ih hvalue
  | optionalNone c => exact restores_optional_none
  | optionalSome c x h hvalue ih => exact restores_optional_some ih hvalue
  | optionalPtrNone c => exact restores_optionalPtr_none
  | optionalPtrSome c x h hvalue ih => exact restores_optionalPtr_some ih hvalue
  | vector c ofString xs h ih => exact restores_vector ih
  | stringMap c entries hasc hkeys h ih => exact restores_mapOf hasc hkeys ih
  | qStringMap c entries hasc h ih => exact restores_mapOf hasc (fun _ _ => rfl) ih

end Radapter.Config
