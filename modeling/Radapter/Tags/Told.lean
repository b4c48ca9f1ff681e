import Radapter.Library.Histories
import Radapter.Tags.Registry

/-!
# What a tag holds

A tag is one cell that hears what happens: the leaves and the advertisements of its own worker, the
connection events of that worker, and its subscriptions. Since no name contains the separator, the
start of a key decides which worker is its own, and no other worker is ever heard.
-/

namespace Radapter.Tags

open Library

/-! ## What concerns a tag -/

/-- The entry of the tag is made, if it is not there. -/
def makes (wname field : QString) : Happened → Bool
  | .advertised wname' field' => wname' = wname ∧ field' = field
  | .leaf wname' field' _ => wname' = wname ∧ field' = field
  | .disconnected _ => false
  | .connected _ => false
  | .subscribed key => key = tagName wname field

/-- The value that the tag has from then on. -/
def valueTold (wname field : QString) : Happened → Option QVariant
  | .leaf wname' field' value => if wname' = wname ∧ field' = field then some value else none
  | .advertised _ _ => none
  | .disconnected _ => none
  | .connected _ => none
  | .subscribed _ => none

/-- The quality that the tag has from then on. -/
def qualityTold (wname field : QString) : Happened → Option Quality
  | .advertised wname' field' => if wname' = wname ∧ field' = field then some .CommFail else none
  | .leaf wname' field' _ => if wname' = wname ∧ field' = field then some .Good else none
  | .disconnected wname' => if wname' = wname then some .CommFail else none
  | .connected wname' => if wname' = wname then some .Good else none
  | .subscribed _ => none

/-- The entry of the tag is there once something has made it. It holds the last value that its
worker's leaves brought, and null before the first; its quality is the one that was told last since
the entry was made, and `CommFail` before the first. -/
structure Told (wname field : QString) (s : State) : Prop where
  entry : (s.tags (tagName wname field)).isSome = s.happened.any (makes wname field)
  value : ∀ tag, s.tags (tagName wname field) = some tag →
    tag.value = (History.last (valueTold wname field) s.happened).getD .invalid
  quality : ∀ tag, s.tags (tagName wname field) = some tag →
    tag.quality = (History.last (qualityTold wname field)
      (History.since (makes wname field) s.happened)).getD .CommFail

/-! ## What one operation tells a tag -/

/-- The entry of the tag changes as a cell does that hears these events. -/
structure Heard (wname field : QString) (tags next : TagMap) (events : List Happened) : Prop where
  value : (next (tagName wname field)).map Tag.value =
    events.foldl (History.hear (makes wname field) (valueTold wname field) .invalid)
      ((tags (tagName wname field)).map Tag.value)
  quality : (next (tagName wname field)).map Tag.quality =
    events.foldl (History.hear (makes wname field) (qualityTold wname field) .CommFail)
      ((tags (tagName wname field)).map Tag.quality)

/-- The event does not concern the tag. -/
structure Silent (wname field : QString) (e : Happened) : Prop where
  makes : makes wname field e = false
  value : valueTold wname field e = none
  quality : qualityTold wname field e = none

variable {wname field : QString} {tags mid next : TagMap}

/-- Events are heard one after the other. -/
theorem Heard.trans {events events' : List Happened} (h : Heard wname field tags mid events)
    (h' : Heard wname field mid next events') :
    Heard wname field tags next (events ++ events') where
  value := by rw [List.foldl_append, ← h.value, h'.value]
  quality := by rw [List.foldl_append, ← h.quality, h'.quality]

/-- The entry stays as it is where nothing concerns it. -/
theorem heard_of_eq (hentry : next (tagName wname field) = tags (tagName wname field))
    {events : List Happened} (hsilent : ∀ e ∈ events, Silent wname field e) :
    Heard wname field tags next events where
  value := by
    rw [hentry, History.foldl_hear_of_silent]
    intro e he
    exact ⟨(hsilent e he).makes, (hsilent e he).value⟩
  quality := by
    rw [hentry, History.foldl_hear_of_silent]
    intro e he
    exact ⟨(hsilent e he).makes, (hsilent e he).quality⟩

/-- A change of the entry with some key, where the event makes that entry and tells what the change
sets. -/
theorem heard_modify {key : QString} {f : Tag → Tag} {e : Happened}
    (hown : key = tagName wname field → makes wname field e = true ∧
      ∀ tag, (f tag).value = (valueTold wname field e).getD tag.value ∧
        (f tag).quality = (qualityTold wname field e).getD tag.quality)
    (hother : key ≠ tagName wname field → Silent wname field e) :
    Heard wname field tags (tags.modify key f) [e] := by
  by_cases hkey : key = tagName wname field
  · obtain ⟨hmakes, htold⟩ := hown hkey
    subst hkey
    constructor
    all_goals
      rw [modify_self, List.foldl_cons, List.foldl_nil, Option.map_some]
      cases tags (tagName wname field) with
      | none => simp [History.hear, hmakes, htold, Tag.new]
      | some tag => simp [History.hear, htold]
  · apply heard_of_eq (modify_of_ne tags (Ne.symm hkey) f)
    intro e' he'
    rw [List.mem_singleton.mp he']
    exact hother hkey

/-- A subscription makes the entry of its tag. -/
theorem heard_Subscribe (tags : TagMap) (key : QString) :
    Heard wname field tags (Subscribe tags key) [.subscribed key] := by
  apply heard_modify
  · intro hkey
    simp [makes, valueTold, qualityTold, hkey]
  · intro hkey
    constructor <;> simp [makes, valueTold, qualityTold, hkey]

section Worker

variable {wname' : QString} (hname : separator ∉ wname) (hname' : separator ∉ wname')

include hname hname'

/-- So does a field that is advertised. -/
theorem heard_advertiseField (w : ℕ) (tags : TagMap) (field' : QString) :
    Heard wname field tags (advertiseField w wname' tags field') [.advertised wname' field'] := by
  apply heard_modify
  · rw [tagName_inj hname' hname]
    intro hkey
    simp [makes, valueTold, qualityTold, hkey]
  · rw [Ne, tagName_inj hname' hname]
    intro hkey
    constructor <;> simp [makes, valueTold, qualityTold, hkey]

/-- The fields are advertised one after the other. -/
theorem heard_Advertise (w : ℕ) (tags : TagMap) (fields : List QString) :
    Heard wname field tags (Advertise tags w wname' fields)
      (fields.map (Happened.advertised wname')) := by
  induction fields generalizing tags with
  | nil => exact heard_of_eq rfl (by simp)
  | cons field' rest ih =>
    exact (heard_advertiseField hname hname' w tags field').trans (ih _)

/-- A leaf gives its tag a value. -/
theorem heard_updateTag (w : ℕ) (tags : TagMap) (field' : QString) (value : QVariant) :
    Heard wname field tags (updateTag tags (tagName wname' field') value w wname')
      [.leaf wname' field' value] := by
  apply heard_modify
  · rw [tagName_inj hname' hname]
    intro hkey
    simp [makes, valueTold, qualityTold, hkey]
  · rw [Ne, tagName_inj hname' hname]
    intro hkey
    constructor <;> simp [makes, valueTold, qualityTold, hkey]

/-- A message is its leaves that are not null, one after the other. -/
theorem heard_onWorkerMsg (w : ℕ) (tags : TagMap) (msg : QVariant) :
    Heard wname field tags (onWorkerMsg tags w wname' msg) (leafEvents wname' msg) := by
  rw [onWorkerMsg, leafEvents]
  induction Flatten msg generalizing tags with
  | nil => exact heard_of_eq rfl (by simp)
  | cons entry rest ih =>
    rw [List.foldl_cons, updateLeaf]
    cases hvalid : entry.2.isValid with
    | true =>
      have hkept := List.filter_cons_of_pos (l := rest)
        (p := fun entry : Bytes × QVariant => entry.2.isValid) hvalid
      rw [if_pos rfl, hkept, List.map_cons]
      exact (heard_updateTag hname hname' w tags (fromUtf8 entry.1) entry.2).trans (ih _)
    | false =>
      rw [if_neg Bool.false_ne_true, List.filter_cons_of_neg (by simp [hvalid])]
      exact ih tags

/-- A loop over the entries of a worker changes the tags of this worker. -/
theorem forWorker_tagName (tags : TagMap) (f : QString → Tag → Tag) :
    tags.forWorker wname' f (tagName wname field) =
      if wname' = wname then (tags (tagName wname field)).map (f (tagName wname field))
      else tags (tagName wname field) := by
  rw [TagMap.forWorker]
  by_cases h : wname' = wname
  · have hstart := (startsWith_tagName hname hname' field).mpr h
    simp only [hstart, if_pos h, if_true]
  · have hstart : ¬ startsWith (tagName wname field) (wname' ++ [separator]) = true :=
      fun hstart => h ((startsWith_tagName hname hname' field).mp hstart)
    rw [if_neg h]
    simp only [if_neg hstart]
    exact Option.map_id'

/-- A worker that has been created takes over entries, which says nothing about them. -/
theorem heard_onWorkerCreated (w : ℕ) (tags : TagMap) :
    Heard wname field tags (onWorkerCreated tags w wname') [] := by
  constructor
  all_goals
    rw [onWorkerCreated, forWorker_tagName hname hname', List.foldl_nil]
    split_ifs
    · rw [Option.map_map]
      congr 1
      funext tag
      simp
    · rfl

/-- The quality of all tags of a worker is set, as an event tells them. -/
theorem heard_setWorkerQuality (tags : TagMap) {q : Quality} {e : Happened}
    (hmakes : makes wname field e = false) (hvalue : valueTold wname field e = none)
    (hquality : qualityTold wname field e = if wname' = wname then some q else none) :
    Heard wname field tags (setWorkerQuality tags wname' q) [e] := by
  by_cases h : wname' = wname
  · rw [if_pos h] at hquality
    constructor
    all_goals
      rw [setWorkerQuality, forWorker_tagName hname hname', if_pos h, List.foldl_cons,
        List.foldl_nil]
      cases tags (tagName wname field) with
      | none => simp [History.hear, hmakes]
      | some tag =>
        simp only [Option.map_some, History.hear, hvalue, hquality, Option.getD_none,
          Option.getD_some]
        split_ifs with hsame <;> simp [hsame]
  · rw [if_neg h] at hquality
    apply heard_of_eq
    · rw [setWorkerQuality, forWorker_tagName hname hname', if_neg h]
    · intro e' he'
      rw [List.mem_singleton.mp he']
      exact ⟨hmakes, hvalue, hquality⟩

/-- An event about a connection gives a quality to all tags of the worker. -/
theorem heard_onWorkerEvent (tags : TagMap) (msg : QVariant) :
    Heard wname field tags (onWorkerEvent tags wname' msg) (connectionEvents wname' msg) := by
  rw [onWorkerEvent, connectionEvents]
  cases eventQuality msg with
  | none => exact heard_of_eq rfl (by simp)
  | some q =>
    cases q with
    | Good => exact heard_setWorkerQuality hname hname' tags rfl rfl rfl
    | CommFail => exact heard_setWorkerQuality hname hname' tags rfl rfl rfl

/-! ## Other workers -/

/-- A message of another worker leaves the entry as it is. -/
theorem onWorkerMsg_of_ne (hne : wname' ≠ wname) (tags : TagMap) (w : ℕ) (msg : QVariant) :
    onWorkerMsg tags w wname' msg (tagName wname field) = tags (tagName wname field) := by
  rw [onWorkerMsg]
  induction Flatten msg generalizing tags with
  | nil => rfl
  | cons entry rest ih =>
    rw [List.foldl_cons, ih, updateLeaf]
    split_ifs
    · apply modify_of_ne
      rw [Ne, tagName_inj hname hname']
      rintro ⟨rfl, -⟩
      exact hne rfl
    · rfl

/-- An event of another worker leaves the entry as it is. -/
theorem onWorkerEvent_of_ne (hne : wname' ≠ wname) (tags : TagMap) (msg : QVariant) :
    onWorkerEvent tags wname' msg (tagName wname field) = tags (tagName wname field) := by
  rw [onWorkerEvent]
  cases eventQuality msg with
  | none => rfl
  | some q => exact (forWorker_tagName hname hname' tags _).trans (if_neg hne)

end Worker

/-- The worker is gone, which says nothing about its tags. -/
theorem heard_forget (w : ℕ) (tags : TagMap) :
    Heard wname field tags (fun key => (tags key).map (Tag.forget w)) [] := by
  constructor
  all_goals
    rw [List.foldl_nil, Option.map_map]
    congr 1
    funext tag
    simp

/-! ## Runs -/

/-- No worker has a name with the separator in it, and every tag has heard what happened. -/
structure Faithful (s : State) : Prop where
  names : ∀ entry ∈ s.workers, separator ∉ entry.2
  heard : ∀ wname field, separator ∉ wname →
    Heard wname field (fun _ => none) s.tags s.happened

/-- Nothing has happened at first. -/
theorem faithful_start : Faithful start where
  names := by simp [start]
  heard := fun _ _ _ => heard_of_eq rfl (by simp [start])

/-- A step of a worker that is alive. -/
private theorem Faithful.afterStep {s t : State} (h : Faithful s) {events : List Happened}
    (hnames : ∀ entry ∈ t.workers, entry ∈ s.workers)
    (hhappened : t.happened = s.happened ++ events)
    (hheard : ∀ wname field, separator ∉ wname → Heard wname field s.tags t.tags events) :
    Faithful t where
  names := fun entry hentry => h.names entry (hnames entry hentry)
  heard := fun wname field hname => by
    rw [hhappened]
    exact (h.heard wname field hname).trans (hheard wname field hname)

section Runs

variable {isLetterOrNumber : UInt16 → Bool} (hseparator : isLetterOrNumber separator = false)

include hseparator

/-- Every step changes the tags as its events say. -/
theorem faithful_step {s t : State} {a : Action} (h : Faithful s)
    (hstep : step isLetterOrNumber s a = some t) : Faithful t := by
  have hlive : ∀ {w wname}, s.workers.lookup w = some wname → separator ∉ wname :=
    fun hlookup => h.names _ (Assoc.mem_of_lookup hlookup)
  cases a with
  | construct conf category =>
    rw [step] at hstep
    split at hstep
    · next name hname =>
      cases hstep
      refine ⟨?_, h.heard⟩
      intro entry hentry
      rcases List.mem_append.mp hentry with hentry | hentry
      · exact h.names entry hentry
      · rw [List.mem_singleton.mp hentry]
        exact separator_notMem_workerName hseparator hname
    · cases hstep
      exact h
  | WorkerCreated w =>
    obtain ⟨wname, hw, rfl⟩ := Option.map_eq_some_iff.mp hstep
    exact h.afterStep (fun _ he => he) (List.append_nil _).symm fun _ _ hname =>
      heard_onWorkerCreated hname (hlive hw) w s.tags
  | destroyed w =>
    obtain ⟨wname, -, rfl⟩ := Option.map_eq_some_iff.mp hstep
    exact h.afterStep (fun _ he => (List.mem_filter.mp he).1) (List.append_nil _).symm fun _ _ _ =>
      heard_forget w s.tags
  | Advertise w fields =>
    obtain ⟨wname, hw, rfl⟩ := Option.map_eq_some_iff.mp hstep
    exact h.afterStep (fun _ he => he) rfl fun _ _ hname =>
      heard_Advertise hname (hlive hw) w s.tags fields
  | message w msg =>
    obtain ⟨wname, hw, rfl⟩ := Option.map_eq_some_iff.mp hstep
    exact h.afterStep (fun _ he => he) rfl fun _ _ hname =>
      heard_onWorkerMsg hname (hlive hw) w s.tags msg
  | event w msg =>
    obtain ⟨wname, hw, rfl⟩ := Option.map_eq_some_iff.mp hstep
    exact h.afterStep (fun _ he => he) rfl fun _ _ hname =>
      heard_onWorkerEvent hname (hlive hw) s.tags msg
  | Subscribe key =>
    cases hstep
    exact h.afterStep (fun _ he => he) rfl fun _ _ _ => heard_Subscribe s.tags key

omit hseparator in
/-- The invariant gives what a tag is told. -/
theorem Faithful.told {s : State} (h : Faithful s) (hname : separator ∉ wname) (field : QString) :
    Told wname field s := by
  have hvalue := (h.heard wname field hname).value
  have hquality := (h.heard wname field hname).quality
  rw [Option.map_none, History.foldl_hear] at hvalue hquality
  have hvalid : ∀ tag, s.tags (tagName wname field) = some tag →
      s.happened.any (makes wname field) = true := by
    intro tag htag
    by_contra hnone
    rw [htag, if_neg hnone] at hvalue
    cases hvalue
  constructor
  · rw [← Option.isSome_map, hvalue]
    cases s.happened.any (makes wname field) with
    | true => rfl
    | false => rfl
  · intro tag htag
    rw [htag, if_pos (hvalid tag htag), History.last_since] at hvalue
    · exact Option.some.inj hvalue
    · intro e he
      cases e with
      | leaf wname' field' value =>
        rw [makes, decide_eq_true_eq]
        by_contra hother
        exact he (if_neg hother)
      | advertised _ _ => exact absurd rfl he
      | disconnected _ => exact absurd rfl he
      | connected _ => exact absurd rfl he
      | subscribed _ => exact absurd rfl he
  · intro tag htag
    rw [htag, if_pos (hvalid tag htag)] at hquality
    exact Option.some.inj hquality

/-- In every run, every tag of a worker holds what it has been told, and no message or event of a
worker with another name changes it. -/
theorem told_of_run {actions : List Action} {s : State}
    (hrun : run (step isLetterOrNumber) start actions = some s) {wname : QString}
    (hname : separator ∉ wname) (field : QString) :
    Told wname field s ∧
    ∀ w wname' msg t, s.workers.lookup w = some wname' → wname' ≠ wname →
      step isLetterOrNumber s (.message w msg) = some t ∨
        step isLetterOrNumber s (.event w msg) = some t →
      t.tags (tagName wname field) = s.tags (tagName wname field) := by
  have hfaithful : Faithful s :=
    run_invariant_of_step (fun h => faithful_step hseparator h) faithful_start hrun
  refine ⟨hfaithful.told hname field, ?_⟩
  intro w wname' msg t hw hne hstep
  have hname' : separator ∉ wname' := hfaithful.names _ (Assoc.mem_of_lookup hw)
  rcases hstep with hstep | hstep
  · rw [step, hw] at hstep
    obtain rfl := Option.some.inj hstep
    exact onWorkerMsg_of_ne hname hname' hne s.tags w msg
  · rw [step, hw] at hstep
    obtain rfl := Option.some.inj hstep
    exact onWorkerEvent_of_ne hname hname' hne s.tags msg

end Runs

/-! ## Two workers -/

/-- Letters and digits of ASCII. -/
def asciiLetterOrNumber (c : UInt16) : Bool :=
  (48 ≤ c && c ≤ 57) || (65 ≤ c && c ≤ 90) || (97 ≤ c && c ≤ 122)

/-- A worker named by a script. -/
def named (name : String) : Action :=
  .construct ⟨some (literal name), false, none⟩ []

/-- An event or a message with one field. -/
def oneField (key : String) (value : Scalar) : QVariant := .map [(literal key, .leaf value)]

/-- The name of the first worker is the start of the name of the second. -/
def twoWorkers : List Action :=
  [named "plc", named "plc.2", .Advertise 0 [literal "k"], .event 0 (oneField "connected" (.int 1)),
    .message 0 (oneField "k" (.int 7)), .message 1 (oneField "k" (.int 8)),
    .event 1 (oneField "disconnected" (.int 1))]

/-- Two workers, the one name the start of the other: a tag hears its own worker alone. -/
theorem told_of_twoWorkers : ∃ s, run (step asciiLetterOrNumber) start twoWorkers = some s ∧
    Told (literal "plc") (literal "k") s ∧
    ∀ w wname' msg t, s.workers.lookup w = some wname' → wname' ≠ literal "plc" →
      step asciiLetterOrNumber s (.message w msg) = some t ∨
        step asciiLetterOrNumber s (.event w msg) = some t →
      t.tags (tagName (literal "plc") (literal "k")) =
        s.tags (tagName (literal "plc") (literal "k")) := by
  have hrun : ∃ s, run (step asciiLetterOrNumber) start twoWorkers = some s := ⟨_, rfl⟩
  obtain ⟨s, hs⟩ := hrun
  exact ⟨s, hs, told_of_run (by decide) hs (by decide) (literal "k")⟩

/-- An entry that a subscription makes does not learn that its worker has been connected for long:
over the whole history, the quality is not the one that was told last. -/
theorem not_last_of_subscribed : ¬ ∀ (actions : List Action) (s : State),
    run (step asciiLetterOrNumber) start actions = some s →
    ∀ wname field, separator ∉ wname → ∀ tag, s.tags (tagName wname field) = some tag →
    tag.quality = (History.last (qualityTold wname field) s.happened).getD .CommFail := by
  intro hlast
  have hquality := hlast [named "plc", .event 0 (oneField "connected" (.int 1)),
    .Subscribe (literal "plc:k")] _ rfl (literal "plc") (literal "k") (by decide) Tag.new rfl
  exact absurd hquality (by decide)

end Radapter.Tags
