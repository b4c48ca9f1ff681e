import Radapter.Flatten
import Radapter.Library.Assoc
import Radapter.Library.Runs
import Radapter.Tags.Names
import Mathlib.Logic.Function.Basic

/-!
# The tag registry

The registry holds one entry for each tag, under the name of a worker and a field. Workers advertise
their fields, their messages bring values, and their events say whether they are connected. All
entries lie in one map: which of them belong to a worker is decided by the first characters of their
keys. What listeners are told of a change is left out, and so is the time of it.
-/

namespace Radapter.Tags

open Library

/-! ## Entries -/

inductive Quality where
  | Good
  | CommFail
  deriving DecidableEq, Repr

/-- `TagRegistry::Tag`. Workers are numbered in the order of their construction; `source` is none
once the worker is gone. -/
structure Tag where
  value : QVariant
  quality : Quality
  source : Option ℕ
  field : QString
  deriving DecidableEq

/-- The entry that `_tags[...]` makes. -/
def Tag.new : Tag where
  value := .invalid
  quality := .CommFail
  source := none
  field := []

abbrev TagMap := QString → Option Tag

/-- `wname + ":" + field`. -/
def tagName (wname field : QString) : QString := wname ++ separator :: field

/-- `QString::startsWith`. -/
def startsWith (text start : QString) : Bool := start.isPrefixOf text

/-- A change of `_tags[key]`, which is made if it is not there. -/
def TagMap.modify (tags : TagMap) (key : QString) (f : Tag → Tag) : TagMap :=
  Function.update tags key (some (f ((tags key).getD Tag.new)))

/-- A loop over the entries whose keys start with the name of a worker and the separator. -/
def TagMap.forWorker (tags : TagMap) (wname : QString) (f : QString → Tag → Tag) : TagMap :=
  fun key => (tags key).map
    (fun tag => if startsWith key (wname ++ [separator]) then f key tag else tag)

/-- `if (!tag.source)`, for an entry with this key. -/
def Tag.claim (w : ℕ) (wname key : QString) (tag : Tag) : Tag :=
  match tag.source with
  | some _ => tag
  | none => { tag with source := some w, field := key.drop (wname.length + 1) }

/-- `source` is a `QPointer`. -/
def Tag.forget (w : ℕ) (tag : Tag) : Tag :=
  if tag.source = some w then { tag with source := none } else tag

/-! ## Operations of the registry -/

def onWorkerCreated (tags : TagMap) (w : ℕ) (wname : QString) : TagMap :=
  tags.forWorker wname (Tag.claim w wname)

/-- One round of the loop of `Advertise`. -/
def advertiseField (w : ℕ) (wname : QString) (tags : TagMap) (field : QString) : TagMap :=
  tags.modify (tagName wname field)
    (fun tag => { tag with source := some w, field := field, quality := .CommFail })

def Advertise (tags : TagMap) (w : ℕ) (wname : QString) (fields : List QString) : TagMap :=
  fields.foldl (advertiseField w wname) tags

def Subscribe (tags : TagMap) (key : QString) : TagMap := tags.modify key id

def updateTag (tags : TagMap) (key : QString) (value : QVariant) (w : ℕ) (wname : QString) :
    TagMap :=
  tags.modify key (fun tag => { tag.claim w wname key with value := value, quality := .Good })

/-- One round of the loop of `onWorkerMsg`. -/
def updateLeaf (w : ℕ) (wname : QString) (tags : TagMap) (entry : Bytes × QVariant) : TagMap :=
  if entry.2.isValid then updateTag tags (tagName wname (fromUtf8 entry.1)) entry.2 w wname
  else tags

def onWorkerMsg (tags : TagMap) (w : ℕ) (wname : QString) (msg : QVariant) : TagMap :=
  (Flatten msg).foldl (updateLeaf w wname) tags

/-- An entry that has the quality is skipped. -/
def setWorkerQuality (tags : TagMap) (wname : QString) (q : Quality) : TagMap :=
  tags.forWorker wname (fun _ tag => if tag.quality = q then tag else { tag with quality := q })

/-- `QVariant::toString` of the state of an event. The text of a number or of a truth value is none
of those it is compared with, and a list or a map has none. -/
def stateText : QVariant → QString
  | .leaf (.string s) => s
  | .leaf (.byteArray b) => fromUtf8 b
  | _ => []

/-- The quality that an event asks for, if any: what `onWorkerEvent` reads of it. -/
def eventQuality : QVariant → Option Quality
  | .map m =>
      let contains (key : String) := (m.lookup (literal key)).isSome
      let isState (name : String) :=
        ((m.lookup (literal "state")).map stateText) == some (literal name)
      if isState "UnconnectedState" || isState "disconnected" || contains "disconnected" then
        some .CommFail
      else if isState "ConnectedState" || isState "connected" || contains "connected" then
        some .Good
      else none
  | .leaf _ => none
  | .list _ => none

def onWorkerEvent (tags : TagMap) (wname : QString) (msg : QVariant) : TagMap :=
  match eventQuality msg with
  | some q => setWorkerQuality tags wname q
  | none => tags

/-! ## Runs -/

/-- What has happened that a tag may depend on. Workers stand by their names, and the key of a leaf
as it is read back from the path that `Flatten` made. -/
inductive Happened where
  | advertised (wname field : QString)
  | leaf (wname field : QString) (value : QVariant)
  | disconnected (wname : QString)
  | connected (wname : QString)
  | subscribed (key : QString)
  deriving DecidableEq

/-- The leaves of a message that are not null. -/
def leafEvents (wname : QString) (msg : QVariant) : List Happened :=
  ((Flatten msg).filter (fun entry => entry.2.isValid)).map
    (fun entry => .leaf wname (fromUtf8 entry.1) entry.2)

/-- What an event of a worker says about its connection. -/
def connectionEvents (wname : QString) (msg : QVariant) : List Happened :=
  match eventQuality msg with
  | some .CommFail => [.disconnected wname]
  | some .Good => [.connected wname]
  | none => []

/-- The registry, the workers that are alive, how many have been constructed, and what has happened
so far. -/
structure State where
  tags : TagMap
  workers : List (ℕ × QString)
  constructed : ℕ
  happened : List Happened

def start : State where
  tags := fun _ => none
  workers := []
  constructed := 0
  happened := []

inductive Action where
  /-- The constructor of `Worker`. -/
  | construct (conf : WorkerConfig) (category : Bytes)
  /-- The signal, sent when the worker has been pushed to the script. -/
  | WorkerCreated (w : ℕ)
  /-- The worker is deleted. -/
  | destroyed (w : ℕ)
  | Advertise (w : ℕ) (fields : List QString)
  /-- `worker_notify` with a message. -/
  | message (w : ℕ) (msg : QVariant)
  /-- `worker_notify` with an event. -/
  | event (w : ℕ) (msg : QVariant)
  | Subscribe (key : QString)

/-- One step. Only a worker that is alive acts; a constructor that raises leaves no worker. -/
def step (isLetterOrNumber : UInt16 → Bool) (s : State) : Action → Option State
  | .construct conf category =>
      match workerName isLetterOrNumber (s.workers.map Prod.snd) conf category with
      | .ok name => some { s with
          workers := s.workers ++ [(s.constructed, name)], constructed := s.constructed + 1 }
      | .error _ => some s
  | .WorkerCreated w => (s.workers.lookup w).map fun wname =>
      { s with tags := onWorkerCreated s.tags w wname }
  | .destroyed w => (s.workers.lookup w).map fun _ =>
      { s with
        workers := Assoc.erase w s.workers
        tags := fun key => (s.tags key).map (Tag.forget w) }
  | .Advertise w fields => (s.workers.lookup w).map fun wname =>
      { s with
        tags := Advertise s.tags w wname fields
        happened := s.happened ++ fields.map (Happened.advertised wname) }
  | .message w msg => (s.workers.lookup w).map fun wname =>
      { s with
        tags := onWorkerMsg s.tags w wname msg
        happened := s.happened ++ leafEvents wname msg }
  | .event w msg => (s.workers.lookup w).map fun wname =>
      { s with
        tags := onWorkerEvent s.tags wname msg
        happened := s.happened ++ connectionEvents wname msg }
  | .Subscribe key => some
      { s with
        tags := Subscribe s.tags key
        happened := s.happened ++ [.subscribed key] }

/-! ## Keys -/

/-- Names without the separator and fields are read off a key. -/
theorem tagName_inj {wname wname' field field' : QString} (h : separator ∉ wname)
    (h' : separator ∉ wname') :
    tagName wname field = tagName wname' field' ↔ wname = wname' ∧ field = field' := by
  constructor
  · intro heq
    induction wname generalizing wname' with
    | nil =>
      cases wname' with
      | nil => exact ⟨rfl, (List.cons.inj heq).2⟩
      | cons c rest => exact absurd (List.mem_cons.mpr (Or.inl (List.cons.inj heq).1)) h'
    | cons c rest ih =>
      cases wname' with
      | nil => exact absurd (List.mem_cons.mpr (Or.inl (List.cons.inj heq).1.symm)) h
      | cons c' rest' =>
        obtain ⟨rfl, hrest⟩ := List.cons.inj heq
        obtain ⟨rfl, rfl⟩ := ih (fun hmem => h (List.mem_cons_of_mem c hmem))
          (fun hmem => h' (List.mem_cons_of_mem c hmem)) hrest
        exact ⟨rfl, rfl⟩
  · rintro ⟨rfl, rfl⟩
    rfl

/-- Only a worker's own name and the separator are the start of its keys. -/
theorem startsWith_tagName {wname wname' : QString} (h : separator ∉ wname)
    (h' : separator ∉ wname') (field : QString) :
    startsWith (tagName wname field) (wname' ++ [separator]) = true ↔ wname' = wname := by
  rw [startsWith, List.isPrefixOf_iff_prefix]
  constructor
  · rintro ⟨field', hfield'⟩
    rw [List.append_assoc, List.singleton_append] at hfield'
    exact ((tagName_inj h' h).mp hfield').1
  · rintro rfl
    exact ⟨field, by rw [List.append_assoc, List.singleton_append, tagName]⟩

/-! ## One entry -/

/-- The changed entry is made if it was not there. -/
@[simp] theorem modify_self (tags : TagMap) (key : QString) (f : Tag → Tag) :
    tags.modify key f key = some (f ((tags key).getD Tag.new)) := by
  rw [TagMap.modify, Function.update_self]

/-- The other entries stay. -/
@[simp] theorem modify_of_ne (tags : TagMap) {key other : QString} (h : other ≠ key)
    (f : Tag → Tag) : tags.modify key f other = tags other := by
  rw [TagMap.modify, Function.update_of_ne h]

/-- To claim a tag keeps its value. -/
@[simp] theorem claim_value (w : ℕ) (wname key : QString) (tag : Tag) :
    (tag.claim w wname key).value = tag.value := by
  rw [Tag.claim]
  split <;> rfl

/-- It keeps its quality, too. -/
@[simp] theorem claim_quality (w : ℕ) (wname key : QString) (tag : Tag) :
    (tag.claim w wname key).quality = tag.quality := by
  rw [Tag.claim]
  split <;> rfl

/-- A worker that is gone leaves the value. -/
@[simp] theorem forget_value (w : ℕ) (tag : Tag) : (tag.forget w).value = tag.value := by
  rw [Tag.forget]
  split <;> rfl

/-- It leaves the quality, too. -/
@[simp] theorem forget_quality (w : ℕ) (tag : Tag) : (tag.forget w).quality = tag.quality := by
  rw [Tag.forget]
  split <;> rfl

end Radapter.Tags
