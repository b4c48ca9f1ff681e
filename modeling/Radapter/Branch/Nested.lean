import Radapter.Branch.Joined

/-!
# A branch of a branch

A branch at `b` of a branch at `a` behaves as one branch at the joined key. Downwards the outer
pair reads at `a` and the inner one at `b`; upwards the message is put under `b` and then under
`a`. The parent is called by the outer pair and sends nothing back, so a message that is sent into
a branch does not come out of it again.

The other workers may do what they like with a message, short of calling the branch or making its
parent emit: such a message is another one sent into the branch or emitted by the parent.
-/

namespace Radapter.Branch

open Library Lua Lazy

variable {fl : Floats} {methods : Methods} {s : Session} {sep a b : Bytes}
  {given : ℕ → Shown → Option ℕ → List Event}

/-! ## The workers of a branch -/

section Worlds

variable {w : World} {target ipipe : ℕ}

/-- `connect` makes no worker. -/
theorem length_connect : (connect w target ipipe).length = w.length := by
  rw [connect, List.length_modify]

/-- It does not change what a worker does. -/
theorem bodyOf_connect (id : ℕ) : bodyOf (connect w target ipipe) id = bodyOf w id := by
  rw [bodyOf, connect, List.getElem?_modify]
  by_cases h : target = id
  · subst h
    cases h : w[target]? <;> simp [bodyOf, h]
  · simp [bodyOf, h]

/-- The target has the new listener behind those that it had. -/
theorem listenersOf_connect_self (h : target < w.length) :
    listenersOf (connect w target ipipe) target = listenersOf w target ++ [ipipe] := by
  rw [listenersOf, connect, List.getElem?_modify]
  simp [listenersOf, List.getElem?_eq_getElem h]

/-- The other workers keep their listeners. -/
theorem listenersOf_connect_ne {id : ℕ} (h : id ≠ target) :
    listenersOf (connect w target ipipe) id = listenersOf w id := by
  rw [listenersOf, connect, List.getElem?_modify]
  simp [listenersOf, Ne.symm h]

/-- Several pipes out of one worker. -/
theorem connectAll_spec (ipipes : List ℕ) (h : target < w.length) :
    (∀ id, bodyOf (connectAll w target ipipes) id = bodyOf w id) ∧
      listenersOf (connectAll w target ipipes) target = listenersOf w target ++ ipipes ∧
      ∀ id ≠ target, listenersOf (connectAll w target ipipes) id = listenersOf w id := by
  induction ipipes generalizing w with
  | nil => exact ⟨fun id => rfl, (List.append_nil _).symm, fun id _ => rfl⟩
  | cons ipipe rest ih =>
    obtain ⟨hbody, hself, hne⟩ := ih (w := connect w target ipipe) (length_connect.symm ▸ h)
    refine ⟨fun id => (hbody id).trans (bodyOf_connect id), ?_, fun id hid => ?_⟩
    · exact hself.trans (by rw [listenersOf_connect_self h, List.append_assoc]; rfl)
    · exact (hne id hid).trans (listenersOf_connect_ne hid)

/-- The world after a branch of `parent` has been made of `w`. -/
structure Branched (w t : World) (parent : ℕ) (key sep : Bytes) : Prop where
  length : t.length = w.length + 2
  body : ∀ id < w.length, bodyOf t id = bodyOf w id
  up : bodyOf t w.length = some (.up (w.length + 1) key sep)
  down : bodyOf t (w.length + 1) = some (.down w.length key sep)
  parentListeners : listenersOf t parent = listenersOf w parent ++ [w.length]
  upListeners : listenersOf t w.length = [parent]
  downListeners : listenersOf t (w.length + 1) = []
  listeners : ∀ id < w.length, id ≠ parent → listenersOf t id = listenersOf w id

/-- What `branch` makes. -/
theorem branched {parent : ℕ} (h : parent < w.length) (key sep : Bytes) :
    (branch w parent key sep).1 = w.length + 1 ∧
      Branched w (branch w parent key sep).2 parent key sep := by
  set u := w ++ [⟨.up (w.length + 1) key sep, []⟩, ⟨.down w.length key sep, []⟩] with hu
  have hbranch : branch w parent key sep =
      (w.length + 1, connect (connect u parent w.length) w.length parent) := rfl
  have hlength : u.length = w.length + 2 := by simp [hu]
  have hold : ∀ id < w.length, u[id]? = w[id]? := by
    intro id hid
    rw [hu, List.getElem?_append_left hid]
  have hfirst : u[w.length]? = some ⟨.up (w.length + 1) key sep, []⟩ := by
    rw [hu, List.getElem?_append_right (Nat.le_refl _), Nat.sub_self]
    rfl
  have hsecond : u[w.length + 1]? = some ⟨.down w.length key sep, []⟩ := by
    rw [hu, List.getElem?_append_right (Nat.le_succ _), Nat.succ_sub (Nat.le_refl _), Nat.sub_self]
    rfl
  rw [hbranch]
  refine ⟨rfl, ⟨?_, ?_, ?_, ?_, ?_, ?_, ?_, ?_⟩⟩
  · rw [length_connect, length_connect, hlength]
  · intro id hid
    rw [bodyOf_connect, bodyOf_connect, bodyOf, hold id hid, bodyOf]
  · rw [bodyOf_connect, bodyOf_connect, bodyOf, hfirst]
    rfl
  · rw [bodyOf_connect, bodyOf_connect, bodyOf, hsecond]
    rfl
  · rw [listenersOf_connect_ne (Nat.ne_of_lt h), listenersOf_connect_self (by omega), listenersOf,
      hold parent h, listenersOf]
  · rw [listenersOf_connect_self (by rw [length_connect]; omega),
      listenersOf_connect_ne (Nat.ne_of_gt h), listenersOf, hfirst]
    rfl
  · rw [listenersOf_connect_ne (by omega), listenersOf_connect_ne (by omega), listenersOf, hsecond]
    rfl
  · intro id hid hne
    rw [listenersOf_connect_ne (Nat.ne_of_lt hid), listenersOf_connect_ne hne, listenersOf,
      hold id hid, listenersOf]

end Worlds

/-! ## Deliveries -/

/-- The workers that are there listen to each other only, and what happens while one of them runs
is about them: the parent emits nothing. The parent itself does nothing with what it receives. -/
structure Around (given : ℕ → Shown → Option ℕ → List Event) (w : World) (parent : ℕ) : Prop where
  body : ∀ x ∈ w, x.body = .given
  listeners : ∀ x ∈ w, ∀ listener ∈ x.listeners, listener < w.length
  apart : ∀ id msg sender, ∀ e ∈ given id msg sender, e.worker < w.length
  quiet : ∀ id msg sender, emittedBy parent (given id msg sender) = []
  parent : ∀ msg sender, given parent msg sender = []

/-- What happens when a message is delivered to workers of the scripts. -/
def deliveries (given : ℕ → Shown → Option ℕ → List Event) (listeners : List ℕ) (msg : Shown)
    (sender : ℕ) : List Event :=
  listeners.flatMap fun listener =>
    .received listener msg (some sender) :: given listener msg (some sender)

/-- Listeners are called one part after the other. -/
theorem call_all_append (call : ℕ → Option (List Event)) (front back : List ℕ) :
    call_all call (front ++ back) =
      (call_all call front).bind fun events =>
        (call_all call back).map fun more => events ++ more := by
  induction front with
  | nil => cases h : call_all call back <;> simp [call_all, h]
  | cons listener rest ih =>
    rw [List.cons_append, call_all, call_all, ih]
    cases call listener <;> cases call_all call rest <;> cases call_all call back <;> simp

/-- Delivering a message to workers of the scripts. -/
theorem call_all_given {t : World} {listeners : List ℕ}
    (h : ∀ listener ∈ listeners, bodyOf t listener = some .given) (n : ℕ) (msg : Shown)
    (sender : ℕ) :
    call_all (fun listener => call fl methods s given t (n + 1) listener msg (some sender))
      listeners = some (deliveries given listeners msg sender) := by
  induction listeners with
  | nil => rfl
  | cons listener rest ih =>
    have hfirst := h listener List.mem_cons_self
    rw [call_all, ih fun other hother => h other (List.mem_cons_of_mem _ hother)]
    simp [call, hfirst, deliveries]

/-- What a worker emits in one run after another. -/
@[simp] theorem emittedBy_append (id : ℕ) (events more : List Event) :
    emittedBy id (events ++ more) = emittedBy id events ++ emittedBy id more := by
  induction events with
  | nil => rfl
  | cons e events ih =>
    cases e with
    | emitted x msg sender =>
      rw [List.cons_append, emittedBy, emittedBy, ih]
      split <;> rfl
    | received x msg sender => exact ih
    | failed x o => exact ih

/-- What a worker receives in one run after another. -/
@[simp] theorem receivedBy_append (id : ℕ) (events more : List Event) :
    receivedBy id (events ++ more) = receivedBy id events ++ receivedBy id more := by
  induction events with
  | nil => rfl
  | cons e events ih =>
    cases e with
    | emitted x msg sender => exact ih
    | received x msg sender =>
      rw [List.cons_append, receivedBy, receivedBy, ih]
      split <;> rfl
    | failed x o => exact ih

/-- A worker that no event is about has emitted nothing. -/
theorem emittedBy_of_ne {id : ℕ} {events : List Event} (h : ∀ e ∈ events, e.worker ≠ id) :
    emittedBy id events = [] := by
  induction events with
  | nil => rfl
  | cons e events ih =>
    have hrest := ih fun e he => h e (List.mem_cons_of_mem _ he)
    cases e with
    | emitted x msg sender =>
      have hne : x ≠ id := h _ List.mem_cons_self
      rw [emittedBy, if_neg hne, hrest]
    | received x msg sender => exact hrest
    | failed x o => exact hrest

/-- The workers of a branch emit nothing while a message is delivered to others. -/
theorem emittedBy_deliveries {w : World} {parent : ℕ} (hw : Around given w parent)
    {listeners : List ℕ} (h : ∀ listener ∈ listeners, listener < w.length) {id : ℕ}
    (hid : w.length ≤ id) (msg : Shown) (sender : ℕ) :
    emittedBy id (deliveries given listeners msg sender) = [] := by
  apply emittedBy_of_ne
  intro e he
  obtain ⟨listener, hlistener, he⟩ := List.mem_flatMap.mp he
  rcases List.mem_cons.mp he with rfl | he
  · exact Nat.ne_of_lt (Nat.lt_of_lt_of_le (h listener hlistener) hid)
  · exact Nat.ne_of_lt (Nat.lt_of_lt_of_le (hw.apart _ _ _ e he) hid)

/-- What a worker emits after a reading: nothing when there is nothing to emit. -/
def emission : Outcome → Option Shown
  | .shown inner => if (stored inner).isNil then none else some inner
  | _ => none

/-- Reading a message at a joined key gives the emission of two branches. -/
theorem emission_join (hsep : OneCharacter sep) (ha : Key sep a) (hb : Key sep b) {msg : Shown}
    (hmsg : Unobstructed fl methods s (viewKeys sep a) msg) :
    emission (get fl methods s msg (a ++ (sep ++ b)) sep) =
      (emission (get fl methods s msg a sep)).bind fun inner =>
        emission (get fl methods s inner b sep) := by
  rcases get_join hsep ha hb hmsg with ⟨inner, hinner, hjoin⟩ | ⟨hraised, hjoin⟩
  · rw [hinner, hjoin, emission]
    by_cases hnil : (stored inner).isNil = true
    · rw [if_pos hnil, if_pos hnil]
      rfl
    · rw [if_neg hnil, if_neg hnil, Option.bind_some]
  · rw [hraised, hjoin]
    rfl

variable (fl methods s given) in
/-- Calling the first worker of a pair makes the second emit what is at the key. -/
theorem call_up {t : World} {up down : ℕ} {key : Bytes}
    (hbody : bodyOf t up = some (.up down key sep)) (msg : Shown) (sender : Option ℕ) :
    ∃ refused, (∀ id, emittedBy id refused = [] ∧ receivedBy id refused = []) ∧ ∀ n,
      call fl methods s given t (n + 1) up msg sender =
        (match emission (get fl methods s msg key sep) with
          | some inner => notify_all t (call fl methods s given t n) down inner sender
          | none => some refused).map fun events => .received up msg sender :: events := by
  cases hget : get fl methods s msg key sep with
  | shown inner =>
    refine ⟨[], fun id => ⟨rfl, rfl⟩, fun n => ?_⟩
    simp only [call, hbody, hget, emission]
    split <;> rfl
  | done =>
    exact ⟨[.failed up .done], fun id => ⟨rfl, rfl⟩, fun n => by simp [call, hbody, hget, emission]⟩
  | raised =>
    exact ⟨[.failed up .raised], fun id => ⟨rfl, rfl⟩,
      fun n => by simp [call, hbody, hget, emission]⟩
  | method =>
    exact ⟨[.failed up .method], fun id => ⟨rfl, rfl⟩,
      fun n => by simp [call, hbody, hget, emission]⟩
  | overrun =>
    exact ⟨[.failed up .overrun], fun id => ⟨rfl, rfl⟩,
      fun n => by simp [call, hbody, hget, emission]⟩
  | undefined =>
    exact ⟨[.failed up .undefined], fun id => ⟨rfl, rfl⟩,
      fun n => by simp [call, hbody, hget, emission]⟩

variable (fl methods s) in
/-- Calling the first worker of a pair whose second one has workers of the scripts for listeners. -/
theorem call_up_given {w t : World} {parent up down : ℕ} (hw : Around given w parent)
    {key : Bytes} {handlers : List ℕ}
    (hbody : bodyOf t up = some (.up down key sep)) (hlisteners : listenersOf t down = handlers)
    (hhandlers : ∀ handler ∈ handlers, handler < w.length)
    (hgiven : ∀ handler ∈ handlers, bodyOf t handler = some .given) (msg : Shown)
    (sender : ℕ) :
    ∃ events, (∀ n, call fl methods s given t (n + 2) up msg (some sender) =
        some (.received up msg (some sender) :: events)) ∧
      (∀ id, w.length ≤ id → emittedBy id events = if id = down then
        (emission (get fl methods s msg key sep)).toList.map fun inner => (inner, sender) else []) ∧
      ∀ id, receivedBy id events = (emission (get fl methods s msg key sep)).toList.flatMap
        fun inner => receivedBy id (deliveries given handlers inner sender) := by
  obtain ⟨refused, hrefused, hcall⟩ := call_up fl methods s given hbody msg (some sender)
  cases hemission : emission (get fl methods s msg key sep) with
  | none =>
    refine ⟨refused, fun n => ?_, fun id _ => ?_, fun id => ?_⟩
    · rw [hcall, hemission]
      rfl
    · rw [(hrefused id).1]
      split <;> rfl
    · exact (hrefused id).2
  | some inner =>
    refine ⟨.emitted down inner sender :: deliveries given handlers inner sender,
      fun n => ?_, fun id hid => ?_, fun id => ?_⟩
    · rw [hcall, hemission]
      simp only [notify_all, hlisteners, Option.getD_some]
      rw [call_all_given hgiven]
      rfl
    · rw [emittedBy, emittedBy_deliveries hw hhandlers hid]
      by_cases hid : id = down
      · rw [if_pos hid, if_pos hid.symm]
        rfl
      · rw [if_neg hid, if_neg (Ne.symm hid)]
    · simp [receivedBy]

/-! ## Two branches and one -/

/-- `branch(branch(parent, a, sep), b, sep)`. -/
def nested (w : World) (parent : ℕ) (a b sep : Bytes) : ℕ × World :=
  match branch w parent a sep with
  | (down, w) => branch w down b sep

/-- A branch with listeners piped to it. -/
def piped (handlers : List ℕ) (x : ℕ × World) : ℕ × World := (x.1, connectAll x.2 x.1 handlers)

/-- Two branches, each in the world that it was made in, are both a branch of the parent at `key`
with these handlers: the messages that the parent emits are read at the key, and what is there is
emitted and delivered to the handlers; a message that is sent in reaches the parent, and no other
worker, under the key and does not come out again. So neither the parent nor the workers that were
there before can tell the two apart. What the parent emits is to meet no scalar along `keys`. -/
structure Alike (fl : Floats) (methods : Methods) (s : Session)
    (given : ℕ → Shown → Option ℕ → List Event) (w : World) (parent : ℕ) (handlers : List ℕ)
    (keys : List LuaKey) (key sep : Bytes) (x y : ℕ × World) : Prop where
  downwards : ∀ msg sender, Unobstructed fl methods s keys msg → ∃ ex ey,
    (∀ n, notify_all x.2 (call fl methods s given x.2 (n + 3)) parent msg sender = some ex) ∧
    (∀ n, notify_all y.2 (call fl methods s given y.2 (n + 3)) parent msg sender = some ey) ∧
    (emittedBy x.1 ex = (emission (get fl methods s msg key sep)).toList.map
      fun inner => (inner, sender.getD parent)) ∧
    emittedBy y.1 ey = emittedBy x.1 ex ∧
    ∀ id < w.length,
      receivedBy id ex =
        receivedBy id (deliveries given (listenersOf w parent) msg (sender.getD parent)) ++
        (emission (get fl methods s msg key sep)).toList.flatMap
          (fun inner => receivedBy id (deliveries given handlers inner (sender.getD parent))) ∧
      receivedBy id ey = receivedBy id ex
  upwards : ∀ msg sender, ∃ ex ey,
    (∀ n, call fl methods s given x.2 (n + 3) x.1 msg sender = some ex) ∧
    (∀ n, call fl methods s given y.2 (n + 3) y.1 msg sender = some ey) ∧
    (∀ id < w.length, receivedBy id ex = (if id = parent then [setNew key msg sep] else []) ∧
      receivedBy id ey = receivedBy id ex) ∧
    emittedBy x.1 ex = [] ∧ emittedBy y.1 ey = []

section Alike

variable {w : World} {parent : ℕ} {handlers : List ℕ}

/-- The workers that were there before a branch do what is given. -/
theorem Around.bodyOf (hw : Around given w parent) {id : ℕ} (hid : id < w.length) :
    bodyOf w id = some .given := by
  rw [Branch.bodyOf, List.getElem?_eq_getElem hid, Option.map_some,
    hw.body _ (List.getElem_mem hid)]

/-- Their listeners are among them. -/
theorem Around.listener (hw : Around given w parent) {id listener : ℕ}
    (h : listener ∈ listenersOf w id) : listener < w.length := by
  rw [listenersOf] at h
  cases hid : w[id]? with
  | none => simp [hid] at h
  | some x =>
    rw [hid] at h
    exact hw.listeners x (List.mem_of_getElem? hid) listener h

variable (sep handlers) in
/-- The workers of a branch that has been given listeners. -/
theorem piped_branch (hw : Around given w parent) (hparent : parent < w.length) (key : Bytes) :
    ∃ t, piped handlers (branch w parent key sep) = (w.length + 1, t) ∧
      (∀ id < w.length, bodyOf t id = some .given) ∧
      bodyOf t w.length = some (.up (w.length + 1) key sep) ∧
      bodyOf t (w.length + 1) = some (.down w.length key sep) ∧
      listenersOf t parent = listenersOf w parent ++ [w.length] ∧
      listenersOf t w.length = [parent] ∧ listenersOf t (w.length + 1) = handlers := by
  obtain ⟨hdown, hmade⟩ := branched hparent key sep
  have htop : w.length + 1 < (branch w parent key sep).2.length := by
    rw [hmade.length]
    omega
  obtain ⟨hbody, hself, hothers⟩ := connectAll_spec handlers htop
  refine ⟨_, by rw [piped, hdown], fun id hid => ?_, ?_, ?_, ?_, ?_, ?_⟩
  · rw [hbody, hmade.body id hid, hw.bodyOf hid]
  · rw [hbody, hmade.up]
  · rw [hbody, hmade.down]
  · rw [hothers _ (by omega), hmade.parentListeners]
  · rw [hothers _ (by omega), hmade.upListeners]
  · rw [hself, hmade.downListeners, List.nil_append]

variable (sep handlers) in
/-- The workers of a branch of a branch that has been given listeners. -/
theorem piped_nested (hw : Around given w parent) (hparent : parent < w.length) (a b : Bytes) :
    ∃ t, piped handlers (nested w parent a b sep) = (w.length + 3, t) ∧
      (∀ id < w.length, bodyOf t id = some .given) ∧
      bodyOf t w.length = some (.up (w.length + 1) a sep) ∧
      bodyOf t (w.length + 1) = some (.down w.length a sep) ∧
      bodyOf t (w.length + 2) = some (.up (w.length + 3) b sep) ∧
      bodyOf t (w.length + 3) = some (.down (w.length + 2) b sep) ∧
      listenersOf t parent = listenersOf w parent ++ [w.length] ∧
      listenersOf t w.length = [parent] ∧ listenersOf t (w.length + 1) = [w.length + 2] ∧
      listenersOf t (w.length + 2) = [w.length + 1] ∧
      listenersOf t (w.length + 3) = handlers := by
  obtain ⟨hdown, hmade⟩ := branched hparent a sep
  have hlength := hmade.length
  have hlower : w.length + 1 < (branch w parent a sep).2.length := by omega
  obtain ⟨hdown', hmade'⟩ := branched hlower b sep
  have hnested : nested w parent a b sep =
      branch (branch w parent a sep).2 (w.length + 1) b sep := by
    rw [nested, ← hdown]
  rw [hlength] at hdown'
  have htop : w.length + 3 < (branch (branch w parent a sep).2 (w.length + 1) b sep).2.length := by
    rw [hmade'.length]
    omega
  obtain ⟨hbody, hself, hothers⟩ := connectAll_spec handlers htop
  have hup := hmade'.up
  have hdownbody := hmade'.down
  have hupl := hmade'.upListeners
  have hdownl := hmade'.downListeners
  have hparentl := hmade'.parentListeners
  rw [hlength] at hup hdownbody hupl hdownl hparentl
  refine ⟨_, by rw [piped, hnested, hdown'], fun id hid => ?_, ?_, ?_, ?_, ?_, ?_, ?_, ?_, ?_, ?_⟩
  · rw [hbody, hmade'.body id (by omega), hmade.body id hid, hw.bodyOf hid]
  · rw [hbody, hmade'.body _ (by omega), hmade.up]
  · rw [hbody, hmade'.body _ (by omega), hmade.down]
  · rw [hbody, hup]
  · rw [hbody, hdownbody]
  · rw [hothers _ (by omega), hmade'.listeners _ (by omega) (by omega), hmade.parentListeners]
  · rw [hothers _ (by omega), hmade'.listeners _ (by omega) (by omega), hmade.upListeners]
  · rw [hothers _ (by omega), hparentl, hmade.downListeners, List.nil_append]
  · rw [hothers _ (by omega), hupl]
  · rw [hself, hdownl, List.nil_append]

end Alike

/-- A parent that does nothing with what it receives is called last. -/
theorem call_parent {w t : World} {parent : ℕ} (hw : Around given w parent)
    (h : bodyOf t parent = some .given) (n : ℕ) (msg : Shown) (sender : Option ℕ) :
    call fl methods s given t (n + 1) parent msg sender =
      some [.received parent msg sender] := by
  simp only [call, h, hw.parent]

/-- Calling the second worker of a pair calls the listeners of the first. -/
theorem call_down {t : World} {up down : ℕ} {key : Bytes}
    (hbody : bodyOf t down = some (.down up key sep)) {listener : ℕ}
    (hlisteners : listenersOf t up = [listener]) {n : ℕ} {msg : Shown} {sender : Option ℕ}
    {events : List Event} (hcall : call fl methods s given t n listener (setNew key msg sep)
      (some (sender.getD up)) = some events) :
    call fl methods s given t (n + 1) down msg sender =
      some (.received down msg sender ::
        .emitted up (setNew key msg sep) (sender.getD up) :: events) := by
  simp [call, hbody, notify_all, hlisteners, call_all, hcall]

variable (fl methods s) in
/-- Calling the first worker of the outer of two pairs. -/
theorem call_up_nested {w t : World} {parent : ℕ} (hw : Around given w parent) {handlers : List ℕ}
    (hup : bodyOf t w.length = some (.up (w.length + 1) a sep))
    (hup' : bodyOf t (w.length + 2) = some (.up (w.length + 3) b sep))
    (hdown : listenersOf t (w.length + 1) = [w.length + 2])
    (hdown' : listenersOf t (w.length + 3) = handlers)
    (hhandlers : ∀ handler ∈ handlers, handler < w.length)
    (hgiven : ∀ handler ∈ handlers, bodyOf t handler = some .given) (msg : Shown)
    (sender : ℕ) :
    ∃ events, (∀ depth, call fl methods s given t (depth + 3) w.length msg (some sender) =
        some (.received w.length msg (some sender) :: events)) ∧
      emittedBy (w.length + 3) events =
        (((emission (get fl methods s msg a sep)).bind fun inner =>
          emission (get fl methods s inner b sep)).toList.map fun inner => (inner, sender)) ∧
      ∀ id < w.length, receivedBy id events =
        ((emission (get fl methods s msg a sep)).bind fun inner =>
          emission (get fl methods s inner b sep)).toList.flatMap
            fun inner => receivedBy id (deliveries given handlers inner sender) := by
  obtain ⟨refused, hrefused, hcall⟩ := call_up fl methods s given hup msg (some sender)
  cases hemission : emission (get fl methods s msg a sep) with
  | none =>
    refine ⟨refused, fun depth => ?_, (hrefused _).1, fun id _ => (hrefused id).2⟩
    rw [hcall, hemission]
    rfl
  | some inner =>
    obtain ⟨events, hinner, hemitted, hreceived⟩ :=
      call_up_given fl methods s hw hup' hdown' hhandlers hgiven inner sender
    refine ⟨.emitted (w.length + 1) inner sender ::
      .received (w.length + 2) inner (some sender) :: events,
      fun depth => ?_, ?_, fun id hid => ?_⟩
    · rw [hcall, hemission]
      simp only [notify_all, hdown, call_all, Option.getD_some, hinner]
      simp
    · rw [emittedBy, if_neg (by omega), emittedBy, hemitted _ (by omega), if_pos rfl,
        Option.bind_some]
    · rw [receivedBy, receivedBy, if_neg (by omega), hreceived, Option.bind_some]

/-- The parent emits to its other listeners and then to the branch. -/
theorem notify_parent {t : World} {parent up : ℕ} {listeners : List ℕ}
    (hlisteners : listenersOf t parent = listeners ++ [up])
    (hgiven : ∀ listener ∈ listeners, bodyOf t listener = some .given) {n : ℕ} {msg : Shown}
    {sender : Option ℕ} {events : List Event}
    (hcall : call fl methods s given t (n + 1) up msg (some (sender.getD parent)) =
      some events) :
    notify_all t (call fl methods s given t (n + 1)) parent msg sender =
      some (.emitted parent msg (sender.getD parent) ::
        (deliveries given listeners msg (sender.getD parent) ++ events)) := by
  rw [notify_all, hlisteners, call_all_append, call_all_given hgiven]
  simp [call_all, hcall]

/-- A branch of a branch is a branch at the joined key: for every separator of one character, all
keys that are not empty and do not start with it, and every parent that sends on nothing. -/
theorem branch_branch (hsep : OneCharacter sep) (ha : Key sep a) (hb : Key sep b) {w : World}
    {parent : ℕ} (hw : Around given w parent) (hparent : parent < w.length) {handlers : List ℕ}
    (hhandlers : ∀ handler ∈ handlers, handler < w.length) :
    Alike fl methods s given w parent handlers (tableKeys sep a) (a ++ (sep ++ b)) sep
      (piped handlers (nested w parent a b sep))
      (piped handlers (branch w parent (a ++ (sep ++ b)) sep)) := by
  obtain ⟨t, hx, hgiven, hup, hdown, hup', hdown', hlparent, hlup, hldown, hlup', hldown'⟩ :=
    piped_nested sep handlers hw hparent a b
  obtain ⟨u, hy, hugiven, huup, hudown, hulparent, hulup, huldown⟩ :=
    piped_branch sep handlers hw hparent (a ++ (sep ++ b))
  rw [hx, hy]
  refine ⟨fun msg sender hmsg => ?_, fun msg sender => ?_⟩
  · rw [ha.tableKeys_eq] at hmsg
    have hold : ∀ listener ∈ listenersOf w parent, listener < w.length := fun _ h => hw.listener h
    have hbranch : ∀ id events, w.length ≤ id →
        emittedBy id (.emitted parent msg (sender.getD parent) ::
          (deliveries given (listenersOf w parent) msg (sender.getD parent) ++
            .received w.length msg (some (sender.getD parent)) :: events)) =
          emittedBy id events := by
      intro id events hid
      rw [emittedBy, if_neg (by omega), emittedBy_append,
        emittedBy_deliveries hw hold hid msg _, emittedBy, List.nil_append]
    obtain ⟨ex, hcallx, hemittedx, hreceivedx⟩ := call_up_nested fl methods s hw hup hup' hldown
      hldown' hhandlers (fun h hh => hgiven h (hhandlers h hh)) msg (sender.getD parent)
    obtain ⟨ey, hcally, hemittedy, hreceivedy⟩ := call_up_given fl methods s hw huup huldown
      hhandlers (fun h hh => hugiven h (hhandlers h hh)) msg (sender.getD parent)
    rw [← emission_join hsep ha hb hmsg] at hemittedx hreceivedx
    refine ⟨_, _,
      fun n => notify_parent hlparent (fun l hl => hgiven l (hold l hl)) (hcallx n),
      fun n => notify_parent hulparent (fun l hl => hugiven l (hold l hl)) (hcally (n + 1)),
      ?_, ?_, fun id hid => ⟨?_, ?_⟩⟩
    · rw [hbranch _ _ (by omega), hemittedx]
    · rw [hbranch _ _ (by omega), hemittedy _ (by omega), if_pos rfl, hbranch _ _ (by omega),
        hemittedx]
    · rw [receivedBy, receivedBy_append, receivedBy, if_neg (by omega), hreceivedx id hid]
    · rw [receivedBy, receivedBy_append, receivedBy, if_neg (by omega), receivedBy,
        receivedBy_append, receivedBy, if_neg (by omega), hreceivedx id hid, hreceivedy]
  · have hnested : ∀ n, call fl methods s given t (n + 3) (w.length + 3) msg sender = _ := fun n =>
      call_down hdown' hlup' (call_down hdown hlup (call_parent hw (hgiven _ hparent) n _ _))
    have hdirect : ∀ n, call fl methods s given u (n + 3) (w.length + 1) msg sender = _ := fun n =>
      call_down hudown hulup (call_parent hw (hugiven _ hparent) (n + 1) _ _)
    refine ⟨_, _, hnested, hdirect, fun id hid => ⟨?_, ?_⟩, ?_, ?_⟩
    · rw [setNew_join hsep ha hb]
      simp only [receivedBy, if_neg (show w.length + 3 ≠ id by omega),
        if_neg (show w.length + 1 ≠ id by omega), eq_comm (a := parent)]
    · rw [setNew_join hsep ha hb]
      simp only [receivedBy, if_neg (show w.length + 3 ≠ id by omega),
        if_neg (show w.length + 1 ≠ id by omega)]
    · simp [emittedBy]
    · simp [emittedBy]

/-- A parent with one other worker, which listens to the branch. -/
def twoGiven : World := [⟨.given, []⟩, ⟨.given, []⟩]

/-- The branches at `a` and then `b`, and at `a:b`. -/
theorem branch_branch_two :
    Alike .unused .unused (PushRoot (.map [])) (fun _ _ _ => []) twoGiven 0 [1]
      (tableKeys [58] [97]) [97, 58, 98] [58]
      (piped [1] (nested twoGiven 0 [97] [98] [58]))
      (piped [1] (branch twoGiven 0 [97, 58, 98] [58])) :=
  branch_branch (.inl rfl) ⟨by decide, by decide⟩ ⟨by decide, by decide⟩
    ⟨by simp [twoGiven], by simp [twoGiven], by simp, fun _ _ _ => rfl, fun _ _ => rfl⟩
    (by decide) (by decide)

end Radapter.Branch
