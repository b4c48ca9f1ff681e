import Radapter.Config.Restore

/-!
# What an error says, and what a parse settles

An error names a place of the configuration, and what is at that place is enough to have the whole
refused, whatever else is changed and whatever is parsed over. At the root the name of the struct
that is parsed stands in front. A parse that goes through has said
all that there is to say: parsing the same configuration over its result changes nothing.
-/

namespace Radapter.Config

open Library

/-- The templates of the described types. -/
inductive Overload (qt : Qt) : {T : Type} → Template T → Prop
  | converted {T : Type} (target : MetaType) (value : Conf → T) (fromValue : T → Conf)
      (schema : String) (init : T) (hschema : text schema ≠ text "any") :
      Overload qt (converted qt target value fromValue schema init)
  | any : Overload qt any
  | anyList : Overload qt (anyList qt)
  | customObject (cls : String) (hcls : text cls ≠ text "any") : Overload qt (customObject qt cls)
  | enumeration {E : Type} [DecidableEq E] (e : Enumeration E) : Overload qt (enumeration qt e)
  | number (t : IntegerType) : Overload qt (number qt t)
  | struct {S : Type} (d : Description S) (h : ∀ m ∈ d.members, Overload qt m.info.template) :
      Overload qt d.template
  | withDefault {T : Type} (c : Template T) (h : Overload qt c) : Overload qt (withDefault c)
  | optional {T : Type} (c : Template T) (h : Overload qt c) : Overload qt (optional c)
  | optionalPtr {T : Type} (c : Template T) (h : Overload qt c) : Overload qt (optionalPtr c)
  | vector {T : Type} (c : Template T) (ofString : Option (QString → T)) (h : Overload qt c) :
      Overload qt (vector c ofString)
  | mapOf {T K : Type} [LT K] [DecidableEq K] [DecidableLT K] (c : Template T) (key : KeyType K)
      (h : Overload qt c) : Overload qt (mapOf c key)

variable {qt : Qt} {T : Type}

/-! ## Plain values -/

/-- A result that does not depend on the frame, which only says where an error is. -/
def Plain {α : Type} (f : TraceFrame → Except ParseError α) : Prop :=
  ∃ r : Except Bytes α, ∀ frame, f frame = r.mapError (ParseError.mk frame)

/-- A value does not depend on the frame. -/
theorem plain_ok {α : Type} (a : α) : Plain fun _ => .ok a := ⟨.ok a, fun _ => rfl⟩

/-- Nor does an error, but for the frame it carries. -/
theorem plain_error {α : Type} (reason : Bytes) :
    Plain fun frame => (.error ⟨frame, reason⟩ : Except ParseError α) :=
  ⟨.error reason, fun _ => rfl⟩

/-- Nor does a choice between two such results, by a condition on neither. -/
theorem plain_ite {α : Type} {f g : TraceFrame → Except ParseError α} (hf : Plain f) (hg : Plain g)
    (p : Prop) [Decidable p] : Plain fun frame => if p then f frame else g frame := by
  by_cases hp : p
  · simpa only [if_pos hp] using hf
  · simpa only [if_neg hp] using hg

/-- Nor does one such step after another. -/
theorem Plain.bind {α β : Type} {f : TraceFrame → Except ParseError α}
    {g : α → TraceFrame → Except ParseError β} (hf : Plain f) (hg : ∀ a, Plain (g a)) :
    Plain fun frame => f frame >>= fun a => g a frame := by
  obtain ⟨r, hr⟩ := hf
  cases r with
  | error reason =>
    exact ⟨.error reason, fun frame => congrArg (· >>= fun a => g a frame) (hr frame)⟩
  | ok a =>
    obtain ⟨r', hr'⟩ := hg a
    exact ⟨r', fun frame => (congrArg (· >>= fun a => g a frame) (hr frame)).trans (hr' frame)⟩

/-- What is parsed depends on the configuration alone. -/
def PlainAt (c : Template T) (conf : Conf) : Prop :=
  ∃ f, Plain f ∧ ∀ out frame, c.parse out conf frame = f frame

/-- Whether a value converts is a matter of its type. -/
theorem plain_checkCanConvert (target : MetaType) (source : Conf) :
    Plain (checkCanConvert qt target source) :=
  plain_ite (plain_ok ()) (plain_error _) _

/-- A type that is stored as a `QVariant` of its own is parsed in one step. -/
theorem plainAt_converted {target : MetaType} {value : Conf → T} {fromValue : T → Conf}
    {schema : String} {init : T} (conf : Conf) :
    PlainAt (converted qt target value fromValue schema init) conf :=
  ⟨_, (plain_checkCanConvert target conf).bind fun _ => plain_ok _, fun _ _ => rfl⟩

/-- A `QVariant` is taken as it is. -/
theorem plainAt_any (conf : Conf) : PlainAt any conf :=
  ⟨_, plain_ok conf, fun _ _ => rfl⟩

/-- An object is looked up by its pointer alone. -/
theorem plainAt_customObject (cls : String) (conf : Conf) :
    PlainAt (customObject qt cls) conf := by
  have hcast : ∀ o : Option Object, Plain fun frame => castTo cls frame o := by
    intro o
    cases o with
    | none => exact plain_error _
    | some object => exact plain_ite (plain_ok _) (plain_error _) _
  obtain ⟨f, hf, hparse⟩ : PlainAt (qObject qt) conf := plainAt_converted conf
  exact ⟨_, hf.bind hcast, fun out frame => by rw [← hparse none]; rfl⟩

/-- An enumerator is looked up by its name alone. -/
theorem plainAt_enumeration {E : Type} [DecidableEq E] (e : Enumeration E) (conf : Conf) :
    PlainAt (enumeration qt e) conf := by
  refine ⟨(enumeration qt e).parse e.init conf, plain_ite ?_ (plain_error _) _, fun _ _ => rfl⟩
  cases e.name_to_enum (toStdString (qt.convert .QString conf).asString) with
  | some value => exact plain_ok value
  | none => exact plain_error _

/-- A number is checked against its range in one step. -/
theorem plainAt_number (t : IntegerType) (conf : Conf) : PlainAt (number qt t) conf :=
  ⟨_, (plain_checkCanConvert (.integer t) conf).bind fun _ =>
    plain_ite (plain_ok _) (plain_error _) _, fun _ _ => rfl⟩

/-- An empty map leaves a list as it is; anything else is converted. -/
theorem plainAt_anyList {conf : Conf} (h : conf ≠ .map []) : PlainAt (anyList qt) conf := by
  refine ⟨fun frame => checkCanConvert qt .QVariantList conf frame >>= fun _ =>
    .ok (qt.convert .QVariantList conf).asList,
    (plain_checkCanConvert .QVariantList conf).bind fun _ => plain_ok _, fun out frame => ?_⟩
  cases conf with
  | map entries =>
    cases entries with
    | nil => exact absurd rfl h
    | cons e rest => rfl
  | _ => rfl

/-! ## Places -/

/-- A place below a configuration: the entry of a map, or an item of a list. -/
inductive Place where
  | entry (q : QString)
  | item (i : ℕ)
  deriving DecidableEq, Repr

/-- The step of a frame that names the place. -/
def Place.step : Place → Step
  | .entry q => .key (toStdString q)
  | .item i => .index i

/-- Every map in the tree has its keys in order, as `QMap` keeps them. -/
inductive Ordered : Conf → Prop
  | scalar (conf : Conf) (hmap : ∀ entries, conf ≠ .map entries)
      (hlist : ∀ items, conf ≠ .list items) : Ordered conf
  | list (items : List Conf) (h : ∀ conf ∈ items, Ordered conf) : Ordered (.list items)
  | map (entries : List (QString × Conf)) (hasc : Sorted.Ascending entries)
      (h : ∀ e ∈ entries, Ordered e.2) : Ordered (.map entries)

/-- The items of an ordered list are ordered. -/
theorem Ordered.items {items : List Conf} (h : Ordered (.list items)) :
    ∀ conf ∈ items, Ordered conf := by
  cases h with
  | scalar _ _ hlist => exact absurd rfl (hlist items)
  | list _ h => exact h

/-- The entries of an ordered map stand in order and are ordered. -/
theorem Ordered.entries {entries : List (QString × Conf)} (h : Ordered (.map entries)) :
    Sorted.Ascending entries ∧ ∀ e ∈ entries, Ordered e.2 := by
  cases h with
  | scalar _ hmap _ => exact absurd rfl (hmap entries)
  | map _ hasc h => exact ⟨hasc, h⟩

/-- Nothing is out of order where nothing is given. -/
theorem Ordered.invalid : Ordered .invalid := by
  refine .scalar _ ?_ ?_ <;> intro _ h <;> cases h

/-- What is at a key is ordered, also where the key is missing. -/
theorem Ordered.value {entries : List (QString × Conf)} (h : Ordered (.map entries))
    (q : QString) : Ordered (Conf.value entries q) := by
  rw [Conf.value]
  cases hq : entries.lookup q with
  | none => exact .invalid
  | some conf => exact h.entries.2 _ (Assoc.mem_of_lookup hq)

/-- The struct whose name stands at the start of a trace, for the types that begin with one. -/
inductive Opening (qt : Qt) : {T : Type} → Template T → Option Bytes → Prop
  | struct {S : Type} (d : Description S) (h : ∀ m ∈ d.members, Overload qt m.info.template) :
      Opening qt d.template (some d.name)
  | withDefault {T : Type} {name : Option Bytes} (c : Template T) (h : Opening qt c name) :
      Opening qt (withDefault c) name
  | optional {T : Type} {name : Option Bytes} (c : Template T) (h : Opening qt c name) :
      Opening qt (optional c) name
  | optionalPtr {T : Type} {name : Option Bytes} (c : Template T) (h : Opening qt c name) :
      Opening qt (optionalPtr c) name
  | vector {T : Type} (c : Template T) (ofString : Option (QString → T)) (h : Overload qt c) :
      Opening qt (vector c ofString) none
  | mapOf {T K : Type} [LT K] [DecidableEq K] [DecidableLT K] (c : Template T) (key : KeyType K)
      (h : Overload qt c) : Opening qt (mapOf c key) none
  | converted {T : Type} (target : MetaType) (value : Conf → T) (fromValue : T → Conf)
      (schema : String) (init : T) :
      Opening qt (converted qt target value fromValue schema init) none
  | any : Opening qt any none
  | anyList : Opening qt (anyList qt) none
  | customObject (cls : String) : Opening qt (customObject qt cls) none
  | enumeration {E : Type} [DecidableEq E] (e : Enumeration E) : Opening qt (enumeration qt e) none
  | number (t : IntegerType) : Opening qt (number qt t) none

/-- Two configurations that have the same at a place, which leads into both. On the way there they
may differ in everything else, and the last entry may be missing in both. -/
inductive Agree : List Place → Conf → Conf → Prop
  | here (conf : Conf) : Agree [] conf conf
  | entry {q : QString} {places : List Place} {es fs : List (QString × Conf)} {x y : Conf}
      (hx : es.lookup q = some x) (hy : fs.lookup q = some y) (h : Agree places x y) :
      Agree (.entry q :: places) (.map es) (.map fs)
  | missing {q : QString} {es fs : List (QString × Conf)} (hes : es.lookup q = none)
      (hfs : fs.lookup q = none) : Agree [.entry q] (.map es) (.map fs)
  | item {i : ℕ} {places : List Place} {xs ys : List Conf} {x y : Conf}
      (hx : xs[i]? = some x) (hy : ys[i]? = some y) (h : Agree places x y) :
      Agree (.item i :: places) (.list xs) (.list ys)

/-- The place leads into the configuration, up to a last entry that may be missing. -/
def Leads (places : List Place) (conf : Conf) : Prop := Agree places conf conf

/-- Configurations that agree at a place are both given, or neither is. -/
theorem Agree.isNull {places : List Place} {conf conf' : Conf} (h : Agree places conf conf') :
    conf'.isNull = conf.isNull := by
  cases h <;> rfl

/-- At the root to agree is to be the same. -/
theorem Agree.of_nil {conf conf' : Conf} (h : Agree [] conf conf') : conf' = conf := by
  cases h
  rfl

/-- Two maps that agree below a key agree at what they have there. -/
theorem Agree.value {q : QString} {places : List Place} {es : List (QString × Conf)}
    {conf' : Conf} (h : Agree (.entry q :: places) (.map es) conf') :
    ∃ fs, conf' = .map fs ∧ Agree places (Conf.value es q) (Conf.value fs q) := by
  cases h with
  | entry hx hy h => exact ⟨_, rfl, by rw [Conf.value, Conf.value, hx, hy]; exact h⟩
  | missing hes hfs => exact ⟨_, rfl, by rw [Conf.value, Conf.value, hes, hfs]; exact .here _⟩

/-- The way to an entry goes on from there. -/
theorem Leads.entry {q : QString} {places : List Place} {es : List (QString × Conf)}
    (h : Leads places (Conf.value es q)) : Leads (.entry q :: places) (.map es) := by
  rw [Conf.value] at h
  cases hq : es.lookup q with
  | some x =>
    rw [hq] at h
    exact Agree.entry hq hq h
  | none =>
    rw [hq] at h
    cases h
    exact .missing hq hq

/-- What is at the place has the whole refused. -/
def Blames (c : Template T) (conf : Conf) (places : List Place) : Prop :=
  ∀ conf', Agree places conf conf' → ∀ out frame, ∃ e, c.parse out conf' frame = .error e

/-- The frame that a trace starts with: that of the parse, or the name of the struct at the root. -/
def front (name : Option Bytes) (frame : TraceFrame) : TraceFrame :=
  match name with
  | some name => if frame.isRoot then [.key name] else frame
  | none => frame

/-- The frame of an error is the frame of the parse and the way to a place of the configuration. -/
structure Names (name : Option Bytes) (frame : TraceFrame) (conf : Conf) (places : List Place)
    (e : ParseError) : Prop where
  trace : e.frame = front name frame ++ places.map Place.step
  leads : Leads places conf

/-- Every error names a place that is to blame. -/
def Traces (name : Option Bytes) (c : Template T) : Prop :=
  ∀ conf, Ordered conf → ∀ out frame e, c.parse out conf frame = .error e →
    ∃ places, Names name frame conf places e ∧ Blames c conf places

/-- Every error below a step names a place that is to blame. -/
def TracesBelow (c : Template T) : Prop :=
  ∀ conf, Ordered conf → ∀ out frame step e, c.parse out conf (frame ++ [step]) = .error e →
    ∃ places, e.frame = frame ++ step :: places.map Place.step ∧ Leads places conf ∧
      Blames c conf places

/-- A frame with a step is not that of the root. -/
theorem isRoot_concat (frame : TraceFrame) (step : Step) :
    TraceFrame.isRoot (frame ++ [step]) = false := by
  cases frame <;> rfl

/-- Below a step no struct is at the root. -/
theorem Traces.below {name : Option Bytes} {c : Template T} (h : Traces name c) :
    TracesBelow c := by
  intro conf hconf out frame step e herr
  obtain ⟨places, ⟨htrace, hleads⟩, hblames⟩ := h conf hconf out _ e herr
  refine ⟨places, ?_, hleads, hblames⟩
  have hfront : front name (frame ++ [step]) = frame ++ [step] := by
    cases name with
    | none => rfl
    | some name => rw [front, isRoot_concat, if_neg Bool.false_ne_true]
  rw [htrace, hfront, List.append_assoc, List.singleton_append]

/-- An error of a type that is parsed in one step names the place it is at. -/
theorem PlainAt.traces {c : Template T} {conf : Conf} (h : PlainAt c conf) {out : T}
    {frame : TraceFrame} {e : ParseError} (herr : c.parse out conf frame = .error e) :
    ∃ places, Names none frame conf places e ∧ Blames c conf places := by
  obtain ⟨f, ⟨r, hr⟩, hparse⟩ := h
  rw [hparse, hr] at herr
  cases r with
  | ok a => cases herr
  | error reason =>
    cases herr
    refine ⟨[], ⟨(List.append_nil _).symm, .here conf⟩, fun conf' hagree out' frame' => ?_⟩
    rw [hagree.of_nil, hparse, hr]
    exact ⟨_, rfl⟩

/-- An error that every parse of the configuration raises at its own frame. -/
theorem traces_of_error {c : Template T} {conf : Conf} {reason : Bytes}
    (h : ∀ out frame, c.parse out conf frame = .error ⟨frame, reason⟩) {out : T}
    {frame : TraceFrame} {e : ParseError} (herr : c.parse out conf frame = .error e) :
    ∃ places, Names none frame conf places e ∧ Blames c conf places :=
  PlainAt.traces ⟨_, plain_error reason, h⟩ herr

/-- An error of two steps is one of the first, or of the second at what the first gave. -/
theorem bind_eq_error {α β : Type} {x : Except ParseError α} {f : α → Except ParseError β}
    {e : ParseError} : (x >>= f) = .error e ↔ x = .error e ∨ ∃ a, x = .ok a ∧ f a = .error e := by
  cases x with
  | error e' => simp [Bind.bind, Except.bind]
  | ok a => simp [Bind.bind, Except.bind]

section Wrappers

variable {name : Option Bytes} {c : Template T}

/-- `WithDefault` fails only where its type does. -/
theorem traces_withDefault (hc : Traces name c) : Traces name (withDefault c) := by
  intro conf hconf out frame e herr
  simp only [withDefault] at herr
  split at herr
  · cases herr
  · next hnull =>
    obtain ⟨places, hnames, hblames⟩ := hc conf hconf out frame e herr
    refine ⟨places, hnames, fun conf' hagree out' frame' => ?_⟩
    simp only [withDefault, hagree.isNull, if_neg hnull]
    exact hblames conf' hagree out' frame'

/-- So does an optional. -/
theorem traces_optional (hc : Traces name c) : Traces name (optional c) := by
  intro conf hconf out frame e herr
  simp only [optional] at herr
  split at herr
  · cases herr
  · next hnull =>
    rcases bind_eq_error.mp herr with herr | ⟨x, -, herr⟩
    · obtain ⟨places, hnames, hblames⟩ := hc conf hconf c.init frame e herr
      refine ⟨places, hnames, fun conf' hagree out' frame' => ?_⟩
      obtain ⟨e', he'⟩ := hblames conf' hagree c.init frame'
      simp only [optional, hagree.isNull, if_neg hnull]
      exact ⟨e', bind_eq_error.mpr (.inl he')⟩
    · cases herr

end Wrappers

/-- The error of a list is the error of one of its items. -/
theorem of_parseItems_error {c : Template T} {i : ℕ} {out : List T} {items : List Conf}
    {frame : TraceFrame} {e : ParseError} (herr : parseItems c i out items frame = .error e) :
    ∃ j conf o, items[j]? = some conf ∧ c.parse o conf (frame ++ [.index (i + j)]) = .error e := by
  induction items generalizing i out with
  | nil => cases herr
  | cons conf rest ih =>
    rcases bind_eq_error.mp herr with herr | ⟨x, -, herr⟩
    · exact ⟨0, conf, _, rfl, herr⟩
    · rcases bind_eq_error.mp herr with herr | ⟨xs, -, herr⟩
      · obtain ⟨j, conf', o, hj, herr⟩ := ih herr
        refine ⟨j + 1, conf', o, hj, ?_⟩
        rwa [Nat.add_comm j 1, ← Nat.add_assoc]
      · cases herr

/-- An item that no parse takes has the list refused. -/
theorem exists_parseItems_error {c : Template T} {j : ℕ} {conf : Conf} {items : List Conf}
    (hj : items[j]? = some conf) (hitem : ∀ o frame, ∃ e, c.parse o conf frame = .error e)
    (i : ℕ) (out : List T) (frame : TraceFrame) :
    ∃ e, parseItems c i out items frame = .error e := by
  cases hparse : parseItems c i out items frame with
  | error e => exact ⟨e, rfl⟩
  | ok values =>
    exfalso
    induction items generalizing i j out values with
    | nil => cases hj
    | cons first rest ih =>
      obtain ⟨x, hx, hparse⟩ := bind_eq_ok.mp hparse
      obtain ⟨xs, hxs, -⟩ := bind_eq_ok.mp hparse
      cases j with
      | zero =>
        obtain rfl : first = conf := Option.some.inj hj
        obtain ⟨e, he⟩ := hitem (out.head?.getD c.init) (frame ++ [.index i])
        rw [he] at hx
        cases hx
      | succ j => exact ih hj (i + 1) out.tail xs hxs

/-- An error of a list is one at an item, which the frame names by its index, or of the whole. -/
theorem traces_vector {c : Template T} (hc : TracesBelow c) (ofString : Option (QString → T)) :
    Traces none (vector c ofString) := by
  intro conf hconf out frame e herr
  cases conf with
  | list items =>
    have herr : parseItems c 0 out items frame = .error e := by cases ofString <;> exact herr
    obtain ⟨j, conf, o, hj, herr⟩ := of_parseItems_error herr
    rw [Nat.zero_add] at herr
    obtain ⟨places, htrace, hleads, hblames⟩ :=
      hc conf (hconf.items conf (List.mem_of_getElem? hj)) o frame _ e herr
    refine ⟨.item j :: places, ⟨htrace, Agree.item hj hj hleads⟩, ?_⟩
    intro conf' hagree out' frame'
    have hitems : ∃ ys y, conf' = .list ys ∧ ys[j]? = some y ∧ Agree places conf y := by
      cases hagree with
      | item hx hy h => exact ⟨_, _, rfl, hy, Option.some.inj (hj.symm.trans hx) ▸ h⟩
    obtain ⟨ys, y, rfl, hy, hplaces⟩ := hitems
    have hfails := exists_parseItems_error hy (hblames y hplaces) 0 out' frame'
    cases ofString <;> exact hfails
  | map entries =>
    cases entries with
    | nil => cases ofString <;> cases herr
    | cons first rest => exact traces_of_error (fun _ _ => by cases ofString <;> rfl) herr
  | stringList items =>
    cases ofString with
    | none => exact traces_of_error (fun _ _ => rfl) herr
    | some f => cases herr
  | _ => exact traces_of_error (fun _ _ => by cases ofString <;> rfl) herr

section Maps

variable {K : Type} [LT K] [DecidableEq K] [DecidableLT K] {key : KeyType K}

/-- The error of a map is the error of one of its entries. -/
theorem of_parseEntries_error {c : Template T} {out : List (K × T)}
    {entries : List (QString × Conf)} {frame : TraceFrame} {e : ParseError}
    (herr : parseEntries c key out entries frame = .error e) :
    ∃ f ∈ entries, ∃ o, c.parse o f.2 (frame ++ [.key (toStdString f.1)]) = .error e := by
  induction entries generalizing out with
  | nil => cases herr
  | cons f rest ih =>
    rcases bind_eq_error.mp herr with herr | ⟨x, -, herr⟩
    · exact ⟨f, List.mem_cons_self, _, herr⟩
    · obtain ⟨g, hg, o, herr⟩ := ih herr
      exact ⟨g, List.mem_cons_of_mem f hg, o, herr⟩

/-- An entry that no parse takes has the map refused. -/
theorem exists_parseEntries_error {c : Template T} {f : QString × Conf}
    {entries : List (QString × Conf)} (hf : f ∈ entries)
    (hentry : ∀ o frame, ∃ e, c.parse o f.2 frame = .error e) (out : List (K × T))
    (frame : TraceFrame) : ∃ e, parseEntries c key out entries frame = .error e := by
  cases hparse : parseEntries c key out entries frame with
  | error e => exact ⟨e, rfl⟩
  | ok values =>
    exfalso
    induction entries generalizing out values with
    | nil => cases hf
    | cons first rest ih =>
      obtain ⟨x, hx, hparse⟩ := bind_eq_ok.mp hparse
      rcases List.mem_cons.mp hf with rfl | hf
      · obtain ⟨e, he⟩ := hentry _ _
        rw [he] at hx
        cases hx
      · exact ih hf _ values hparse

/-- An error of a map is one at an entry, which the frame names by its key, or of the whole. -/
theorem traces_mapOf {c : Template T} (hc : TracesBelow c) : Traces none (mapOf c key) := by
  intro conf hconf out frame e herr
  cases conf with
  | map entries =>
    obtain ⟨⟨q, conf⟩, hf, o, herr⟩ := of_parseEntries_error herr
    obtain ⟨hasc, hentries⟩ := hconf.entries
    obtain ⟨places, htrace, hleads, hblames⟩ := hc conf (hentries _ hf) o frame _ e herr
    have hfound := Assoc.lookup_of_mem hasc.distinct hf
    refine ⟨.entry q :: places, ⟨htrace, Agree.entry hfound hfound hleads⟩, ?_⟩
    intro conf' hagree out' frame'
    have hother : ∃ fs y, conf' = .map fs ∧ (q, y) ∈ fs ∧ Agree places conf y := by
      cases hagree with
      | entry hx hy h =>
        exact ⟨_, _, rfl, Assoc.mem_of_lookup hy, Option.some.inj (hfound.symm.trans hx) ▸ h⟩
      | missing hes hfs =>
        rw [hfound] at hes
        cases hes
    obtain ⟨fs, y, rfl, hy, hplaces⟩ := hother
    exact exists_parseEntries_error hy (hblames y hplaces) [] frame'
  | _ => exact traces_of_error (fun _ _ => rfl) herr

end Maps

/-! ## Structs -/

/-- A name in ASCII is its own UTF-8 form. -/
theorem toStdString_latin1 {name : Bytes} (h : ∀ b ∈ name, b < 128) :
    toStdString (latin1 name) = name := by
  have hsurrogate : ∀ b : UInt8, b < 128 → isHighSurrogate (UInt16.ofNat b.toNat) = false ∧
      encodeUnit (UInt16.ofNat b.toNat) = [b] := by
    intro b hb
    have hlt : b.toNat < 128 := hb
    have hnat : (UInt16.ofNat b.toNat).toNat = b.toNat := by
      rw [UInt16.toNat_ofNat']
      exact Nat.mod_eq_of_lt (by omega)
    have hhigh : isHighSurrogate (UInt16.ofNat b.toNat) = false := by
      simp only [isHighSurrogate, hnat, Bool.and_eq_false_imp, decide_eq_true_eq]
      omega
    have hlow : isLowSurrogate (UInt16.ofNat b.toNat) = false := by
      simp only [isLowSurrogate, hnat, Bool.and_eq_false_imp, decide_eq_true_eq]
      omega
    refine ⟨hhigh, ?_⟩
    rw [encodeUnit, hhigh, hlow, hnat, encodePoint, if_pos hlt, UInt8.ofNat_toNat]
    rfl
  induction name with
  | nil => rfl
  | cons b rest ih =>
    obtain ⟨hb, hrest⟩ := List.forall_mem_cons.mp h
    obtain ⟨hhigh, hunit⟩ := hsurrogate b hb
    cases rest with
    | nil => exact hunit
    | cons b' rest =>
      have htail := ih hrest
      simp only [latin1, List.map_cons] at htail ⊢
      rw [toStdString, hhigh, Bool.false_and, if_neg Bool.false_ne_true, hunit, htail]
      rfl

/-- An error of a struct is one of a member, which the frame names by its key; at the root the name
of the struct stands before it. -/
theorem traces_struct {S : Type} {d : Description S}
    (h : ∀ m ∈ d.members, TracesBelow m.info.template) : Traces (some d.name) d.template := by
  intro conf hconf out frame e herr
  have hcurrent : d.current frame = front (some d.name) frame := by
    cases frame <;> rfl
  cases conf with
  | map entries =>
    obtain ⟨members, m, later, hmembers, herr, -⟩ := Part.of_visit_error d.members_apart herr
    have hm : m ∈ d.members := by rw [hmembers]; simp
    have hname := toStdString_latin1 fun b hb => (d.names_plain m hm b hb).1
    have hstep : Place.step (.entry (latin1 m.info.name)) = .key m.info.name := by
      rw [Place.step, hname]
    rw [Description.parseMember, ← hstep] at herr
    obtain ⟨places, htrace, hleads, hblames⟩ := h m hm _ (hconf.value _) _ _ _ e herr
    refine ⟨.entry (latin1 m.info.name) :: places, ⟨?_, hleads.entry⟩, ?_⟩
    · rw [htrace, hcurrent, List.map_cons]
    · intro conf' hagree out' frame'
      obtain ⟨fs, rfl, hplaces⟩ := hagree.value
      cases hparse : d.template.parse out' (.map fs) frame' with
      | error e' => exact ⟨e', rfl⟩
      | ok s =>
        obtain ⟨e', he'⟩ := hblames _ hplaces (m.access.get out')
          (d.current frame' ++ [.key m.info.name])
        have hget := Part.visit_get d.members_apart hparse hm
        rw [Description.parseMember, he'] at hget
        cases hget
  | _ =>
    cases herr
    refine ⟨[], ⟨?_, .here _⟩, ?_⟩
    · rw [List.map_nil, List.append_nil, ← hcurrent]
    · intro conf' hagree out' frame'
      rw [hagree.of_nil]
      exact ⟨_, rfl⟩

/-- A `QVariantList` is refused as a whole. -/
theorem traces_anyList : Traces none (anyList qt) := by
  intro conf _ out frame e herr
  by_cases hempty : conf = .map []
  · subst hempty
    cases herr
  · exact (plainAt_anyList hempty).traces herr

/-- What is parsed in one step names no struct. -/
theorem traces_plain {c : Template T} (h : ∀ conf, PlainAt c conf) : Traces none c :=
  fun conf _ _ _ _ herr => (h conf).traces herr

/-- A described type begins with a struct or with none, and its errors name a place that is to
blame. -/
theorem Overload.traces {c : Template T} (h : Overload qt c) :
    ∃ name, Opening qt c name ∧ Traces name c := by
  induction h with
  | converted => exact ⟨none, .converted .., traces_plain plainAt_converted⟩
  | any => exact ⟨none, .any, traces_plain plainAt_any⟩
  | anyList => exact ⟨none, .anyList, traces_anyList⟩
  | customObject cls _ => exact ⟨none, .customObject cls, traces_plain (plainAt_customObject cls)⟩
  | enumeration e => exact ⟨none, .enumeration e, traces_plain (plainAt_enumeration e)⟩
  | number t => exact ⟨none, .number t, traces_plain (plainAt_number t)⟩
  | struct d h ih =>
    refine ⟨some d.name, .struct d h, traces_struct fun m hm => ?_⟩
    obtain ⟨name, -, htraces⟩ := ih m hm
    exact htraces.below
  | withDefault c h ih =>
    obtain ⟨name, hname, htraces⟩ := ih
    exact ⟨name, .withDefault c hname, traces_withDefault htraces⟩
  | optional c h ih =>
    obtain ⟨name, hname, htraces⟩ := ih
    exact ⟨name, .optional c hname, traces_optional htraces⟩
  | optionalPtr c h ih =>
    obtain ⟨name, hname, htraces⟩ := ih
    exact ⟨name, .optionalPtr c hname, traces_optional htraces⟩
  | vector c ofString h ih =>
    obtain ⟨name, -, htraces⟩ := ih
    exact ⟨none, .vector c ofString h, traces_vector htraces.below ofString⟩
  | mapOf c key h ih =>
    obtain ⟨name, -, htraces⟩ := ih
    exact ⟨none, .mapOf c key h, traces_mapOf htraces.below⟩

/-- The errors of every described type name the place that is to blame, wherever the type stands;
induction on the description. -/
theorem Overload.tracesBelow {c : Template T} (h : Overload qt c) : TracesBelow c := by
  obtain ⟨name, -, htraces⟩ := h.traces
  exact htraces.below

/-- An error of a type that begins with a struct names it at the root. -/
theorem Opening.traces {c : Template T} {name : Option Bytes} (h : Opening qt c name) :
    Traces name c := by
  induction h with
  | struct d h => exact traces_struct fun m hm => (h m hm).tracesBelow
  | withDefault c h ih => exact traces_withDefault ih
  | optional c h ih => exact traces_optional ih
  | optionalPtr c h ih => exact traces_optional ih
  | vector c ofString h => exact traces_vector h.tracesBelow ofString
  | mapOf c key h => exact traces_mapOf h.tracesBelow
  | converted => exact traces_plain plainAt_converted
  | any => exact traces_plain plainAt_any
  | anyList => exact traces_anyList
  | customObject cls => exact traces_plain (plainAt_customObject cls)
  | enumeration e => exact traces_plain (plainAt_enumeration e)
  | number t => exact traces_plain (plainAt_number t)

/-! ## What a parse settles -/

/-- A parse that goes through does so at any frame, and again over its own result. -/
def Settles (c : Template T) : Prop :=
  ∀ conf out frame x, c.parse out conf frame = .ok x →
    ∀ frame', c.parse out conf frame' = .ok x ∧ c.parse x conf frame' = .ok x

/-- What is parsed in one step depends neither on the frame nor on the value before. -/
theorem PlainAt.settles {c : Template T} {conf : Conf} (h : PlainAt c conf) {out x : T}
    {frame : TraceFrame} (hok : c.parse out conf frame = .ok x) (frame' : TraceFrame) :
    c.parse out conf frame' = .ok x ∧ c.parse x conf frame' = .ok x := by
  obtain ⟨f, ⟨r, hr⟩, hparse⟩ := h
  rw [hparse, hr] at hok
  cases r with
  | error reason => cases hok
  | ok a =>
    cases hok
    exact ⟨by rw [hparse, hr]; rfl, by rw [hparse, hr]; rfl⟩

/-- The default is found again, or the type settles. -/
theorem settles_withDefault {c : Template T} (hc : Settles c) : Settles (withDefault c) := by
  intro conf out frame x hok frame'
  simp only [withDefault] at hok ⊢
  split at hok
  · next hnull =>
    cases hok
    simp only [if_pos hnull, and_self]
  · next hnull =>
    simp only [if_neg hnull]
    exact hc conf out frame x hok frame'

/-- An optional settles if its type does. -/
theorem settles_optional {c : Template T} (hc : Settles c) : Settles (optional c) := by
  intro conf out frame x hok frame'
  simp only [optional] at hok ⊢
  split at hok
  · next hnull =>
    cases hok
    simp only [if_pos hnull, and_self]
  · next hnull =>
    obtain ⟨value, hvalue, hok⟩ := bind_eq_ok.mp hok
    cases hok
    have hagain := (hc conf c.init frame value hvalue frame').1
    simp only [if_neg hnull, and_self]
    exact bind_eq_ok.mpr ⟨value, hagain, rfl⟩

/-- Each item settles over the one parsed before at its index; induction on the items. -/
theorem settles_parseItems {c : Template T} (hc : Settles c) {i : ℕ} {out xs : List T}
    {items : List Conf} {frame : TraceFrame} (hok : parseItems c i out items frame = .ok xs)
    (frame' : TraceFrame) :
    parseItems c i out items frame' = .ok xs ∧ parseItems c i xs items frame' = .ok xs := by
  induction items generalizing i out xs with
  | nil =>
    cases hok
    exact ⟨rfl, rfl⟩
  | cons conf rest ih =>
    obtain ⟨x, hx, hok⟩ := bind_eq_ok.mp hok
    obtain ⟨later, hlater, hok⟩ := bind_eq_ok.mp hok
    cases hok
    obtain ⟨hfirst, hagain⟩ := hc conf _ _ x hx (frame' ++ [.index i])
    obtain ⟨hrest, hrestAgain⟩ := ih hlater
    exact ⟨bind_eq_ok.mpr ⟨x, hfirst, bind_eq_ok.mpr ⟨later, hrest, rfl⟩⟩,
      bind_eq_ok.mpr ⟨x, hagain, bind_eq_ok.mpr ⟨later, hrestAgain, rfl⟩⟩⟩

/-- A list settles if its items do. -/
theorem settles_vector {c : Template T} (hc : Settles c) (ofString : Option (QString → T)) :
    Settles (vector c ofString) := by
  intro conf out frame x hok frame'
  cases conf with
  | list items =>
    have hok : parseItems c 0 out items frame = .ok x := by cases ofString <;> exact hok
    have hboth := settles_parseItems hc hok frame'
    cases ofString <;> exact hboth
  | map entries =>
    cases entries with
    | nil => cases ofString <;> cases hok <;> exact ⟨rfl, rfl⟩
    | cons first rest => cases ofString <;> cases hok
  | stringList items =>
    cases ofString with
    | none => cases hok
    | some f =>
      cases hok
      exact ⟨rfl, rfl⟩
  | _ => cases ofString <;> cases hok

/-- The entries are parsed into new values, so that those before do not matter; induction on the
entries. -/
theorem settles_parseEntries {c : Template T} (hc : Settles c) {K : Type} [LT K] [DecidableEq K]
    [DecidableLT K] {key : KeyType K} {out xs : List (K × T)} {entries : List (QString × Conf)}
    {frame : TraceFrame} (hok : parseEntries c key out entries frame = .ok xs)
    (frame' : TraceFrame) : parseEntries c key out entries frame' = .ok xs := by
  induction entries generalizing out with
  | nil => exact hok
  | cons e rest ih =>
    obtain ⟨x, hx, hok⟩ := bind_eq_ok.mp hok
    exact bind_eq_ok.mpr ⟨x, (hc e.2 _ _ x hx _).1, ih hok⟩

/-- A struct settles if its members do: parsing one leaves the others alone. -/
theorem settles_struct {S : Type} {d : Description S}
    (h : ∀ m ∈ d.members, Settles m.info.template) : Settles d.template := by
  intro conf out frame s hok frame'
  cases conf with
  | map entries =>
    have hmember : ∀ m ∈ d.members,
        Description.parseMember entries (d.current frame') m (m.access.get out) =
          .ok (m.access.get s) ∧
        Description.parseMember entries (d.current frame') m (m.access.get s) =
          .ok (m.access.get s) :=
      fun m hm => h m hm _ _ _ _ (Part.visit_get d.members_apart hok hm) _
    have hsame : Part.visit (Description.parseMember entries (d.current frame')) d.members out =
        Part.visit (Description.parseMember entries (d.current frame)) d.members out := by
      refine Part.visit_congr d.members_apart fun m hm => ?_
      rw [(hmember m hm).1, Part.visit_get d.members_apart hok hm]
    exact ⟨hsame.trans hok, Part.visit_of_fixed fun m hm => (hmember m hm).2⟩
  | _ => cases hok

/-- A parse of a described type settles it. -/
theorem Overload.settles {c : Template T} (h : Overload qt c) : Settles c := by
  induction h with
  | converted => exact fun conf out frame x hok => (plainAt_converted conf).settles hok
  | any => exact fun conf out frame x hok => (plainAt_any conf).settles hok
  | anyList =>
    intro conf out frame x hok
    by_cases hempty : conf = .map []
    · subst hempty
      cases hok
      exact fun _ => ⟨rfl, rfl⟩
    · exact (plainAt_anyList hempty).settles hok
  | customObject cls _ =>
    exact fun conf out frame x hok => (plainAt_customObject cls conf).settles hok
  | enumeration e => exact fun conf out frame x hok => (plainAt_enumeration e conf).settles hok
  | number t => exact fun conf out frame x hok => (plainAt_number t conf).settles hok
  | struct d h ih => exact settles_struct ih
  | withDefault c h ih => exact settles_withDefault ih
  | optional c h ih => exact settles_optional ih
  | optionalPtr c h ih => exact settles_optional ih
  | vector c ofString h ih => exact settles_vector ih ofString
  | mapOf c key h ih =>
    intro conf out frame x hok frame'
    cases conf with
    | map entries =>
      have hagain := settles_parseEntries ih hok frame'
      exact ⟨hagain, hagain⟩
    | _ => cases hok

/-! ## What a parse does not read -/

/-- Two configurations that differ only in what no member of a described struct is named after. -/
inductive Alike : {T : Type} → Template T → Conf → Conf → Prop
  | same {T : Type} (c : Template T) (conf : Conf) : Alike c conf conf
  | struct {S : Type} (d : Description S) (es fs : List (QString × Conf))
      (h : ∀ m ∈ d.members, Alike m.info.template (Conf.value es (latin1 m.info.name))
        (Conf.value fs (latin1 m.info.name))) : Alike d.template (.map es) (.map fs)
  | withDefault {T : Type} (c : Template T) (a b : Conf) (h : Alike c a b) :
      Alike (withDefault c) a b
  | optional {T : Type} (c : Template T) (a b : Conf) (h : Alike c a b) : Alike (optional c) a b
  | optionalPtr {T : Type} (c : Template T) (a b : Conf) (h : Alike c a b) :
      Alike (optionalPtr c) a b
  | vector {T : Type} (c : Template T) (ofString : Option (QString → T)) (xs ys : List Conf)
      (hlength : xs.length = ys.length)
      (h : ∀ e ∈ xs.zip ys, Alike c e.1 e.2) : Alike (vector c ofString) (.list xs) (.list ys)
  | mapOf {T K : Type} [LT K] [DecidableEq K] [DecidableLT K] (c : Template T) (key : KeyType K)
      (es fs : List (QString × Conf)) (hkeys : es.map Prod.fst = fs.map Prod.fst)
      (h : ∀ e ∈ es.zip fs, Alike c e.1.2 e.2.2) : Alike (mapOf c key) (.map es) (.map fs)

/-- Alike configurations are both given, or neither is. -/
theorem Alike.isNull {c : Template T} {a b : Conf} (h : Alike c a b) : a.isNull = b.isNull := by
  induction h with
  | withDefault c a b h ih => exact ih
  | optional c a b h ih => exact ih
  | optionalPtr c a b h ih => exact ih
  | _ => rfl

/-- Lists whose items parse alike parse alike. -/
theorem parseItems_congr {c : Template T} {xs ys : List Conf} (hlength : xs.length = ys.length)
    (h : ∀ e ∈ xs.zip ys, ∀ out frame, c.parse out e.1 frame = c.parse out e.2 frame) (i : ℕ)
    (out : List T) (frame : TraceFrame) :
    parseItems c i out xs frame = parseItems c i out ys frame := by
  induction xs generalizing ys i out with
  | nil =>
    obtain rfl := List.length_eq_zero_iff.mp hlength.symm
    rfl
  | cons x xs ih =>
    obtain ⟨y, ys, rfl⟩ := List.exists_cons_of_length_eq_add_one hlength.symm
    rw [List.zip_cons_cons] at h
    obtain ⟨hfirst, hrest⟩ := List.forall_mem_cons.mp h
    rw [parseItems, parseItems, hfirst]
    refine congrArg _ (funext fun value => ?_)
    rw [ih (Nat.succ.inj hlength) hrest]

/-- Maps with the same keys whose entries parse alike parse alike. -/
theorem parseEntries_congr {K : Type} [LT K] [DecidableEq K] [DecidableLT K] {c : Template T}
    {key : KeyType K} {es fs : List (QString × Conf)} (hkeys : es.map Prod.fst = fs.map Prod.fst)
    (h : ∀ e ∈ es.zip fs, ∀ out frame, c.parse out e.1.2 frame = c.parse out e.2.2 frame)
    (out : List (K × T)) (frame : TraceFrame) :
    parseEntries c key out es frame = parseEntries c key out fs frame := by
  induction es generalizing fs out with
  | nil =>
    obtain rfl := List.map_eq_nil_iff.mp hkeys.symm
    rfl
  | cons e es ih =>
    obtain ⟨f, fs, rfl, hkey, hlater⟩ := List.map_eq_cons_iff.mp hkeys.symm
    rw [List.zip_cons_cons] at h
    obtain ⟨hfirst, hrest⟩ := List.forall_mem_cons.mp h
    obtain ⟨q, a⟩ := e
    obtain ⟨r, b⟩ := f
    obtain rfl : r = q := hkey
    rw [parseEntries, parseEntries, hfirst]
    exact congrArg _ (funext fun value => ih hlater.symm hrest _)

/-- What is not read changes neither the result of a parse nor its error. -/
theorem Alike.parse_eq {c : Template T} {a b : Conf} (h : Alike c a b) (out : T)
    (frame : TraceFrame) : c.parse out a frame = c.parse out b frame := by
  induction h generalizing frame with
  | same => rfl
  | struct d es fs h ih =>
    refine Part.visit_congr d.members_apart fun m hm => ?_
    exact ih m hm (m.access.get out) _
  | withDefault c a b h ih => simp only [Config.withDefault, h.isNull, ih]
  | optional c a b h ih => simp only [Config.optional, h.isNull, ih]
  | optionalPtr c a b h ih => simp only [Config.optionalPtr, h.isNull, ih]
  | vector c ofString xs ys hlength h ih =>
    have hitems := parseItems_congr hlength (fun e he out frame => ih e he out frame) 0 out frame
    cases ofString <;> exact hitems
  | mapOf c key es fs hkeys h ih =>
    exact parseEntries_congr hkeys (fun e he out frame => ih e he out frame) [] frame

end Radapter.Config
