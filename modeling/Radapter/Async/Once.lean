import Radapter.Async.Calls
import Mathlib.Data.List.Perm.Subperm

/-!
# Every subscriber is called once

The subscribers of a settled promise are called by the loop of `done`, which is not protected: an
error of one of them ends it. As long as no error leaves a loop that has subscribers left to call,
every subscriber is called exactly once with what the first `done` got.
-/

namespace Radapter.Async

open Library List

variable {α : Type*}

/-! ## The guarantee -/

/-- A loop of `done` of the promise is under way. -/
def State.Notifies (s : State α) (p : PromiseId) : Prop := ∃ t i, .loop p i ∈ s.fibers t

/-- Every subscriber of the promise is called at most once, with what the first `done` got, and
each of them has been called when the loop of `done` is over. -/
structure ExactlyOnce (s : State α) (p : PromiseId) : Prop where
  reply : ∀ c ∈ calls s.log p, firstDone s.log p = some c.2
  atMost : (calls s.log p).map Prod.fst <+~ subscribers s.log p
  all : (firstDone s.log p).isSome → ¬ s.Notifies p →
    (calls s.log p).map Prod.fst ~ subscribers s.log p

/-- The frames that an error of the code on top of the stack leaves. -/
def State.left (s : State α) (t : ℕ) : List Frame :=
  (s.fibers t).takeWhile (fun frame => !frame.catches)

/-- The frame is a loop of `done` that has subscribers left to call. -/
def State.Owes (s : State α) : Frame → Prop
  | .loop p i => i < (s.promises p).subs.length
  | _ => False

instance (s : State α) : (frame : Frame) → Decidable (s.Owes frame)
  | .loop _ _ => inferInstanceAs (Decidable (_ < _))
  | .script | .pcall | .executor _ => inferInstanceAs (Decidable False)

/-- The step is not an error that leaves a loop of `done` with subscribers left to call. -/
def Kept (s : State α) : ℕ × Op α → Prop
  | (t, .raise _) => ∀ frame ∈ s.left t, ¬ s.Owes frame
  | _ => True

instance (s : State α) : (a : ℕ × Op α) → Decidable (Kept s a)
  | (_, .raise _) => inferInstanceAs (Decidable (∀ _ ∈ _, ¬ _))
  | (_, .start) | (_, .promise) | (_, .subscribe _ _) | (_, .done _ _) | (_, .gather _)
  | (_, .pcall) | (_, .ret) | (_, .next) | (_, .fire _) | (_, .native) | (_, .settle _ _)
  | (_, .deliver _ _) => inferInstanceAs (Decidable True)

/-! ## The account of a promise -/

/-- The subscribers that are still to be called, where the loop of `done` is at the position. -/
def Promise.waiting (P : Promise α) (o : Option ℕ) : List Callback :=
  if P.native || P.settled.isNone then P.subs else o.elim [] P.subs.drop

/-- The subscribers of a promise are those called and those that wait. -/
structure Accounted (s : State α) (q : PromiseId) : Prop where
  first : (s.promises q).settled = firstDone s.log q
  reply : ∀ c ∈ calls s.log q, (s.promises q).settled = some c.2
  share : ∃ o, LoopAt s.fibers q o ∧
    (o.isSome → (s.promises q).native = false ∧ (s.promises q).settled.isSome) ∧
    (calls s.log q).map Prod.fst ++ (s.promises q).waiting o ~ subscribers s.log q

/-- The promises that the `gather` of the promise was called with. -/
def Promise.listed (P : Promise α) : Option (List PromiseId) := P.gathers.map Gather.promises

/-- What names a promise names one that has been made. -/
structure WellFormed (s : State α) : Prop where
  fresh : ∀ q, s.made ≤ q → s.promises q = {}
  executor : ∀ t p, .executor p ∈ s.fibers t →
    p < s.made ∧ (s.promises p).native = false ∧ (s.promises p).listed = none
  listed : ∀ g promises, (s.promises g).listed = some promises →
    (s.promises g).native = false ∧ ∀ p ∈ promises, p < s.made

/-- The invariant of the runs that keep all subscribers. -/
structure Sound (s : State α) : Prop extends WellFormed s where
  accounted : ∀ q, Accounted s q

/-- Before any script runs there is nothing to account for. -/
theorem init_sound : Sound (init : State α) where
  fresh _ _ := rfl
  executor _ _ h := by cases h
  listed _ _ h := by cases h
  accounted q :=
    { first := rfl
      reply := fun _ h => by cases h
      share := ⟨none, fun _ => rfl, (fun h => by cases h), Perm.refl _⟩ }

/-- Where no loop is under way, those that wait are those that the promise has not begun to call. -/
theorem Accounted.idle {s : State α} {p : PromiseId} (h : Accounted s p) (hidle : ¬ s.Notifies p) :
    (calls s.log p).map Prod.fst ++ (s.promises p).waiting none ~ subscribers s.log p := by
  obtain ⟨o, hloop, -, hperm⟩ := h.share
  cases o with
  | none => exact hperm
  | some i =>
    obtain ⟨t, ht, -⟩ := hloop
    exact absurd ⟨t, i, mem_loops.mp (by simp [ht])⟩ hidle

/-- A promise in good order calls its subscribers once. -/
theorem Accounted.exactlyOnce {s : State α} {p : PromiseId} (h : Accounted s p)
    (hnative : (s.promises p).native = false) : ExactlyOnce s p := by
  obtain ⟨o, -, -, hperm⟩ := h.share
  refine ⟨fun c hc => h.first ▸ h.reply c hc, ?_, ?_⟩
  · exact (List.sublist_append_left _ _).subperm.trans hperm.subperm
  · intro hsome hidle
    rw [← h.first] at hsome
    obtain ⟨r, hr⟩ := Option.isSome_iff_exists.mp hsome
    simpa [Promise.waiting, hnative, hr] using h.idle hidle

/-! ## What leaves an account alone -/

/-- The part of a promise that its account is about. -/
def Promise.core (P : Promise α) : Bool × List Callback × Option (Reply α) :=
  (P.native, P.subs, P.settled)

/-- Nothing that the account of the promise is about differs. -/
structure Apart (s s' : State α) (q : PromiseId) : Prop where
  core : (s'.promises q).core = (s.promises q).core
  first : firstDone s'.log q = firstDone s.log q
  calls : calls s'.log q = calls s.log q
  subscribers : subscribers s'.log q = subscribers s.log q
  loops : ∀ o, LoopAt s.fibers q o → LoopAt s'.fibers q o

section Apart

variable {s s' s'' : State α} {p q : PromiseId} {t : ℕ} {stack : List Frame} {e : Event α}

/-- A step that does nothing is apart. -/
theorem Apart.refl (s : State α) (q : PromiseId) : Apart s s q :=
  ⟨rfl, rfl, rfl, rfl, fun _ h => h⟩

/-- One step after another is apart if both are. -/
theorem Apart.trans (h : Apart s s' q) (h' : Apart s' s'' q) : Apart s s'' q :=
  ⟨h'.core.trans h.core, h'.first.trans h.first, h'.calls.trans h.calls,
    h'.subscribers.trans h.subscribers, fun o ho => h'.loops o (h.loops o ho)⟩

/-- The account of a promise is not touched by a step that is apart from it. -/
theorem Accounted.apart (h : Accounted s q) (ha : Apart s s' q) : Accounted s' q := by
  obtain ⟨hnative, hsubs, hsettled⟩ : (s'.promises q).native = (s.promises q).native ∧
      (s'.promises q).subs = (s.promises q).subs ∧
      (s'.promises q).settled = (s.promises q).settled := by
    simpa [Promise.core] using ha.core
  have hwaiting : ∀ o, (s'.promises q).waiting o = (s.promises q).waiting o := by
    intro o
    simp [Promise.waiting, hnative, hsubs, hsettled]
  obtain ⟨o, hloop, ho, hperm⟩ := h.share
  refine ⟨?_, ?_, o, ha.loops o hloop, ?_, ?_⟩
  · rw [hsettled, ha.first, h.first]
  · rw [hsettled, ha.calls]
    exact h.reply
  · rwa [hnative, hsettled]
  · rwa [hwaiting, ha.calls, ha.subscribers]

/-- A stack may change if its loops of the promise stay. -/
theorem Apart.setFiber (hstack : Async.loops q stack = Async.loops q (s.fibers t)) :
    Apart s (s.setFiber t stack) q :=
  ⟨rfl, rfl, rfl, rfl, fun _ h => h.update hstack⟩

/-- An event is apart that is no `subscribe`, `done` or call of the promise. -/
theorem Apart.note (hsub : e.subscriber? q = none) (hdone : e.done? q = none)
    (hcall : e.call? q = none) : Apart s (s.note e) q := by
  refine ⟨rfl, ?_, ?_, ?_, fun _ h => h⟩
  · simp [hdone]
  · simp [hcall]
  · simp [hsub]

/-- A promise may change in what its account is not about. -/
theorem Apart.setPromise {P : Promise α} (h : p = q → P.core = (s.promises q).core) :
    Apart s (s.setPromise p P) q := by
  refine ⟨?_, rfl, rfl, rfl, fun _ h => h⟩
  by_cases hp : p = q
  · subst hp
    simpa using h rfl
  · simp [setPromise_ne, Ne.symm hp]

/-- The loop of another promise starts. -/
theorem Apart.notify {r : Reply α} (hp : p ≠ q) : Apart s (s.notify t p r) q := by
  unfold State.notify
  split
  · exact .setFiber (by simp [hp])
  · split
    · exact ⟨rfl, rfl, rfl, rfl, fun _ h => h⟩
    · exact .refl s q

/-- So is `done` of another promise. -/
theorem Apart.done {r : Reply α} (hp : p ≠ q) : Apart s (s.done t p r) q := by
  unfold State.done
  have hnote : ∀ u : State α, Apart u (u.note (.done p r)) q := fun u =>
    .note rfl (by simp [Event.done?, hp]) rfl
  split
  · exact hnote s
  · exact ((Apart.setPromise (fun h => absurd h hp)).trans (hnote _)).trans (.notify hp)

end Apart

/-! ## What leaves the names alone -/

/-- No promise is made, and no name of a promise is new. -/
structure Tame (s s' : State α) : Prop where
  made : s'.made = s.made
  fresh : ∀ q, s.made ≤ q → s'.promises q = s.promises q
  native : ∀ q, (s'.promises q).native = (s.promises q).native
  listed : ∀ q, (s'.promises q).listed = (s.promises q).listed
  executor : ∀ t p, .executor p ∈ s'.fibers t → .executor p ∈ s.fibers t

section Tame

variable {s s' s'' : State α} {p : PromiseId} {t : ℕ} {stack : List Frame}

/-- A step that does nothing is tame. -/
theorem Tame.refl (s : State α) : Tame s s :=
  ⟨rfl, fun _ _ => rfl, fun _ => rfl, fun _ => rfl, fun _ _ h => h⟩

/-- One step after another is tame if both are. -/
theorem Tame.trans (h : Tame s s') (h' : Tame s' s'') : Tame s s'' where
  made := h'.made.trans h.made
  fresh q hq := (h'.fresh q (h.made ▸ hq)).trans (h.fresh q hq)
  native q := (h'.native q).trans (h.native q)
  listed q := (h'.listed q).trans (h.listed q)
  executor t p ht := h.executor t p (h'.executor t p ht)

/-- Names stay those of promises that have been made. -/
theorem WellFormed.tame (h : WellFormed s) (ht : Tame s s') : WellFormed s' where
  fresh q hq := by
    rw [ht.made] at hq
    exact (ht.fresh q hq).trans (h.fresh q hq)
  executor t p hp := by
    rw [ht.made, ht.native, ht.listed]
    exact h.executor t p (ht.executor t p hp)
  listed g promises hlisted := by
    rw [ht.listed] at hlisted
    rw [ht.made, ht.native]
    exact h.listed g promises hlisted

/-- A stack may change if no executor enters it. -/
theorem Tame.setFiber (h : ∀ p, .executor p ∈ stack → .executor p ∈ s.fibers t) :
    Tame s (s.setFiber t stack) := by
  refine ⟨rfl, fun _ _ => rfl, fun _ => rfl, fun _ => rfl, fun t' p hp => ?_⟩
  by_cases ht : t' = t
  · subst ht
    exact h p (by simpa using hp)
  · simpa [setFiber_ne, ht] using hp

/-- A frame that is no executor may be pushed. -/
theorem Tame.push {frame : Frame} (h : ∀ p, frame ≠ .executor p) : Tame s (s.push t frame) := by
  apply Tame.setFiber
  intro p hp
  rcases List.mem_cons.mp hp with hframe | hp
  · exact absurd hframe.symm (h p)
  · exact hp

/-- An event makes no promise. -/
theorem Tame.note (s : State α) (e : Event α) : Tame s (s.note e) :=
  ⟨rfl, fun _ _ => rfl, fun _ => rfl, fun _ => rfl, fun _ _ h => h⟩

/-- A promise that has been made may change, if it stays native or not and keeps its list. -/
theorem Tame.setPromise {P : Promise α} (hp : p < s.made)
    (hnative : P.native = (s.promises p).native)
    (hlisted : P.listed = (s.promises p).listed) : Tame s (s.setPromise p P) := by
  refine ⟨rfl, fun q hq => ?_, fun q => ?_, fun q => ?_, fun _ _ h => h⟩
  · have hne : q ≠ p := Nat.ne_of_gt (Nat.lt_of_lt_of_le hp hq)
    exact setPromise_ne s p P hne
  · by_cases hqp : q = p
    · subst hqp
      simpa using hnative
    · simp [setPromise_ne, hqp]
  · by_cases hqp : q = p
    · subst hqp
      simpa using hlisted
    · simp [setPromise_ne, hqp]

/-- The start of the loop of `done` makes no promise. -/
theorem Tame.notify {r : Reply α} : Tame s (s.notify t p r) := by
  unfold State.notify
  split
  · exact .push (by simp)
  · split
    · exact ⟨rfl, fun _ _ => rfl, fun _ => rfl, fun _ => rfl, fun _ _ h => h⟩
    · exact .refl s

/-- `done` makes no promise. -/
theorem Tame.done {r : Reply α} (hp : p < s.made) : Tame s (s.done t p r) := by
  unfold State.done
  split
  · exact .note s _
  · have hset := Tame.setPromise (s := s) (p := p)
      (P := { s.promises p with settled := some r }) hp rfl rfl
    exact (hset.trans (.note _ _)).trans .notify

end Tame

/-! ## Settling and calling -/

section Operations

variable {s s' : State α} {p q : PromiseId} {t : ℕ} {cb : Callback} {r : Reply α}

/-- What is apart from every account and leaves the names alone keeps the invariant. -/
theorem Sound.quiet (hs : Sound s) (ht : Tame s s') (ha : ∀ q, Apart s s' q) : Sound s' :=
  { hs.toWellFormed.tame ht with accounted := fun q => (hs.accounted q).apart (ha q) }

/-- A step that touches one promise only. -/
theorem Sound.touch (hs : Sound s) (ht : Tame s s') (ha : ∀ q, p ≠ q → Apart s s' q)
    (hp : Accounted s' p) : Sound s' where
  toWellFormed := hs.toWellFormed.tame ht
  accounted q := by
    by_cases h : p = q
    · exact h ▸ hp
    · exact (hs.accounted q).apart (ha q h)

/-- A promise that is not settled has no loop, and has called nobody. -/
theorem Accounted.unsettled (h : Accounted s p) (hsettled : (s.promises p).settled = none) :
    calls s.log p = [] ∧ LoopAt s.fibers p none ∧ (s.promises p).subs ~ subscribers s.log p := by
  have hcalls : calls s.log p = [] := by
    rw [List.eq_nil_iff_forall_not_mem]
    intro c hc
    have := h.reply c hc
    simp [hsettled] at this
  obtain ⟨o, hloop, ho, hperm⟩ := h.share
  have hnone : o = none := by
    cases o with
    | none => rfl
    | some i => simp [hsettled] at ho
  subst hnone
  exact ⟨hcalls, hloop, by simpa [hcalls, Promise.waiting, hsettled] using hperm⟩

/-- The first `done` starts the loop over all that have subscribed. -/
theorem Accounted.settle (h : Accounted s p) (hsettled : (s.promises p).settled = none)
    (hnative : (s.promises p).native = false) :
    Accounted (((s.setPromise p { s.promises p with settled := some r }).note
      (.done p r)).notify t p r) p := by
  obtain ⟨hcalls, hloop, hperm⟩ := h.unsettled hsettled
  have hfirst : firstDone s.log p = none := h.first ▸ hsettled
  unfold State.notify
  split
  · next hsubs =>
    have hstart : LoopAt (Function.update s.fibers t (.loop p 0 :: s.fibers t)) p (some 0) :=
      hloop.start (by simp [hloop t])
    refine ⟨?_, ?_, some 0, hstart, ?_, ?_⟩
    · simp [State.push, hfirst, Event.done?]
    · simp [State.push, hcalls, Event.call?]
    · simp [State.push, hnative]
    · simpa [State.push, hcalls, Event.call?,
        Event.subscriber?, Promise.waiting, hnative] using hperm
  · next hsubs =>
    have hempty : (s.promises p).subs = [] := by
      simpa using hsubs
    have hplain : Accounted ((s.setPromise p { s.promises p with settled := some r }).note
        (.done p r)) p := by
      refine ⟨?_, ?_, none, hloop, (fun h => by cases h), ?_⟩
      · simp [hfirst, Event.done?]
      · simp [hcalls, Event.call?]
      · simpa [hcalls, Event.call?, Event.subscriber?,
          Promise.waiting, hnative, hempty] using hperm
    split
    · exact hplain.apart ⟨rfl, rfl, rfl, rfl, fun _ h => h⟩
    · exact hplain

/-- A later `done` does nothing. -/
theorem Apart.again {r₀ : Reply α} (hsettled : (s.promises p).settled = some r₀)
    (hfirst : firstDone s.log p = some r₀) : Apart s (s.done t p r) p := by
  have hdone : s.done t p r = s.note (.done p r) := by simp [State.done, hsettled]
  rw [hdone]
  refine ⟨rfl, ?_, ?_, ?_, fun _ h => h⟩
  · simp [hfirst]
  · simp [Event.call?]
  · simp [Event.subscriber?]

/-- `done` of a promise of the script keeps the account: the first call of it moves every subscriber
from those that wait to those that the loop calls. -/
theorem Sound.done (hs : Sound s) (hp : p < s.made) (hnative : (s.promises p).native = false) :
    Sound (s.done t p r) := by
  refine hs.touch (.done hp) (fun q hq => .done hq) ?_
  cases hsettled : (s.promises p).settled with
  | some r₀ =>
    have hold := hs.accounted p
    exact hold.apart (.again hsettled (hold.first ▸ hsettled))
  | none =>
    simpa only [State.done, hsettled] using (hs.accounted p).settle hsettled hnative

/-- A promise with the locals of `gather` has been made. -/
theorem WellFormed.gathers_lt (h : WellFormed s) {g : PromiseId} {G : Gather α}
    (hG : (s.promises g).gathers = some G) : g < s.made := by
  by_contra hg
  rw [h.fresh g (Nat.not_lt.mp hg)] at hG
  cases hG

/-- `gather` notes a result. -/
theorem Tame.results {g : PromiseId} {G : Gather α} {i : ℕ} (hg : g < s.made)
    (hG : (s.promises g).gathers = some G) : Tame s (s.setPromise g
      { s.promises g with gathers := some (G.collect i r.res) }) := by
  refine .setPromise hg rfl ?_
  simp [Promise.listed, Gather.collect, hG]

/-- A function of `gather` changes the locals of its `gather` only, and may settle its promise. -/
theorem Tame.collect {g : PromiseId} {G : Gather α} {i : ℕ} (hg : g < s.made)
    (hG : (s.promises g).gathers = some G) : Tame s (s.collect t g G i r) := by
  unfold State.collect
  split
  · exact .done hg
  · dsimp only
    split
    · exact (Tame.results hg hG).trans (.done hg)
    · exact .results hg hG

/-- A subscriber that starts makes no promise. -/
theorem Tame.enter (h : WellFormed s) : Tame s (s.enter t r cb) := by
  cases cb with
  | script f => exact .push (by simp)
  | gather g i =>
    unfold State.enter
    dsimp only
    split
    · next G hG => exact .collect (h.gathers_lt hG) hG
    · exact .refl s

/-- A subscriber starts. -/
theorem Sound.enter (hs : Sound s) : Sound (s.enter t r cb) := by
  cases cb with
  | script f => exact hs.quiet (.push (by simp)) (fun q => .setFiber (by simp))
  | gather g i =>
    unfold State.enter
    dsimp only
    split
    · next G hG =>
      have hmade := hs.gathers_lt hG
      obtain ⟨hnative, -⟩ := hs.listed g G.promises (by simp [Promise.listed, hG])
      unfold State.collect
      split
      · exact hs.done hmade hnative
      · have hcollect : Sound (s.setPromise g
            { s.promises g with gathers := some (G.collect i r.res) }) := by
          refine hs.quiet (.results hmade hG) (fun q => .setPromise ?_)
          rintro rfl
          rfl
        dsimp only
        split
        · exact hcollect.done hmade (by simpa using hnative)
        · exact hcollect
    · exact hs

/-- That `promise` returns changes no account. -/
theorem Sound.return (hs : Sound s) (hp : p < s.made) : Sound (s.return p) := by
  refine hs.quiet (.setPromise hp rfl rfl) (fun q => .setPromise ?_)
  rintro rfl
  rfl

/-- A subscriber of a promise that is not settled, or native, waits. -/
theorem Accounted.wait (h : Accounted s p)
    (hwaits : (s.promises p).native || (s.promises p).settled.isNone) :
    Accounted ((s.note (.subscribed p cb)).wait p cb) p := by
  obtain ⟨o, hloop, ho, hperm⟩ := h.share
  refine ⟨?_, ?_, o, hloop, by simpa [State.wait] using ho, ?_⟩
  · simpa [State.wait, Event.done?] using h.first
  · simpa [State.wait, Event.call?] using h.reply
  · have := hperm.append_right [cb]
    simpa [State.wait, Event.call?, Event.subscriber?, Promise.waiting,
      hwaits] using this

/-- A subscriber of a settled promise is called at once. -/
theorem Accounted.late (h : Accounted s p) (hsettled : (s.promises p).settled = some r) :
    Accounted ((s.note (.subscribed p cb)).note (.called p cb r)) p := by
  obtain ⟨o, hloop, ho, hperm⟩ := h.share
  refine ⟨?_, ?_, o, hloop, ho, ?_⟩
  · simpa [Event.done?] using h.first
  · intro c hc
    rcases (by simpa [Event.call?] using hc : c ∈ calls s.log p ∨ c = (cb, r)) with hc | rfl
    · exact h.reply c hc
    · exact hsettled
  · have hmove : (calls s.log p).map Prod.fst ++ ([cb] ++ (s.promises p).waiting o) ~
        (calls s.log p).map Prod.fst ++ ((s.promises p).waiting o ++ [cb]) :=
      List.perm_append_comm.append_left _
    have := hmove.trans (by simpa using hperm.append_right [cb])
    simpa [Event.call?, Event.subscriber?] using this

/-- A new subscriber waits. -/
theorem Sound.wait (hs : Sound s) (hp : p < s.made)
    (hwaits : (s.promises p).native || (s.promises p).settled.isNone) :
    Sound ((s.note (.subscribed p cb)).wait p cb) := by
  have htame : Tame (s.note (.subscribed p cb)) ((s.note (.subscribed p cb)).wait p cb) :=
    .setPromise hp rfl rfl
  refine hs.touch (p := p) ((Tame.note s _).trans htame) (fun q hq => ?_)
    ((hs.accounted p).wait hwaits)
  exact (Apart.note (by simp [Event.subscriber?, hq]) rfl rfl).trans
    (.setPromise fun h => absurd h hq)

/-- A new subscriber is called. -/
theorem Sound.late (hs : Sound s) (hsettled : (s.promises p).settled = some r) :
    Sound ((s.note (.subscribed p cb)).call t p cb r) := by
  apply Sound.enter
  refine hs.touch (p := p) ((Tame.note s _).trans (.note _ _)) (fun q hq => ?_)
    ((hs.accounted p).late hsettled)
  exact (Apart.note (by simp [Event.subscriber?, hq]) rfl rfl).trans
    (.note rfl rfl (by simp [Event.call?, hq]))

/-- `had_sub = true`. -/
theorem Sound.had_sub (hs : Sound s) (hp : p < s.made) :
    Sound (s.setPromise p { s.promises p with had_sub := true }) := by
  refine hs.quiet (.setPromise hp rfl rfl) (fun q => .setPromise ?_)
  rintro rfl
  rfl

/-- A new subscriber waits, or is called where the promise is settled. -/
theorem Sound.subscribe (hs : Sound s) (hp : p < s.made) {now : Bool} :
    Sound (s.subscribe t p cb now) := by
  unfold State.subscribe
  dsimp only
  split
  · next hnative =>
    split
    · next hsettled => exact hs.late hsettled
    · exact hs.wait hp (by simp [hnative])
  · split
    · next hsettled => exact (hs.had_sub hp).late (by simpa using hsettled)
    · next hsettled => exact (hs.had_sub hp).wait hp (by simp [hsettled])

/-- The loop of `done` calls the next subscriber. -/
theorem Accounted.advance (h : Accounted s p) {i : ℕ} {rest : List Frame}
    (hstack : s.fibers t = .loop p i :: rest) (hcb : (s.promises p).subs[i]? = some cb)
    (hr : (s.promises p).settled = some r) :
    Accounted ((s.setFiber t (.loop p (i + 1) :: rest)).note (.called p cb r)) p := by
  obtain ⟨o, hloop, ho, hperm⟩ := h.share
  have hmem : i ∈ loops p (s.fibers t) := by simp [hstack]
  obtain ⟨rfl, hone, -⟩ := hloop.unique hmem
  have hrest : loops p rest = [] := by simpa [hstack] using hone
  obtain ⟨hnative, -⟩ := ho rfl
  refine ⟨?_, ?_, some (i + 1), hloop.move hmem (by simp [hrest]), by simpa using ho, ?_⟩
  · simpa [Event.done?] using h.first
  · intro c hc
    rcases (by simpa [Event.call?] using hc : c ∈ calls s.log p ∨ c = (cb, r)) with hc | rfl
    · simpa using h.reply c hc
    · simpa using hr
  · obtain ⟨hi, rfl⟩ := List.getElem?_eq_some_iff.mp hcb
    have hwaiting : (s.promises p).waiting (some i) =
        (s.promises p).subs[i] :: (s.promises p).waiting (some (i + 1)) := by
      simp [Promise.waiting, hnative, hr]
    rw [hwaiting] at hperm
    simpa [Event.call?, Event.subscriber?] using hperm

/-- The loop of `done` is over. -/
theorem Accounted.finish (h : Accounted s p) {i : ℕ} {rest : List Frame}
    (hstack : s.fibers t = .loop p i :: rest) (hover : (s.promises p).subs[i]? = none) :
    Accounted (s.setFiber t rest) p := by
  obtain ⟨o, hloop, ho, hperm⟩ := h.share
  have hmem : i ∈ loops p (s.fibers t) := by simp [hstack]
  obtain ⟨rfl, hone, -⟩ := hloop.unique hmem
  have hrest : loops p rest = [] := by simpa [hstack] using hone
  obtain ⟨hnative, hsettled⟩ := ho rfl
  refine ⟨h.first, h.reply, none, hloop.stop hmem hrest, (fun h => by cases h), ?_⟩
  have hdrop : (s.promises p).subs.drop i = [] :=
    List.drop_eq_nil_of_le (List.getElem?_eq_none_iff.mp hover)
  simpa [Promise.waiting, hnative, hsettled, hdrop] using hperm

/-- The next iteration calls the subscriber that the loop has come to; the end of a loop leaves
none. -/
theorem Sound.next (hs : Sound s) (hnext : s.next t = some s') : Sound s' := by
  unfold State.next at hnext
  split at hnext
  · next p i rest hstack =>
    have htame : ∀ stack, (∀ p, .executor p ∈ stack → .executor p ∈ rest) →
        Tame s (s.setFiber t stack) := fun stack h => .setFiber fun p hp => by
      simpa [hstack] using h p hp
    have haway : ∀ stack q, p ≠ q → loops q stack = loops q rest →
        Apart s (s.setFiber t stack) q := fun stack q hq h =>
      .setFiber (by simpa [hstack, hq] using h)
    split at hnext
    · next cb r hcb hr =>
      obtain rfl := Option.some.inj hnext
      apply Sound.enter
      refine hs.touch (p := p) ((htame _ (by simp)).trans (.note _ _)) (fun q hq => ?_) ?_
      · exact (haway _ q hq (by simp [hq])).trans (.note rfl rfl (by simp [Event.call?, hq]))
      · exact (hs.accounted p).advance hstack hcb hr
    · next hover =>
      obtain rfl := Option.some.inj hnext
      refine hs.touch (p := p) (htame _ fun _ h => h) (fun q hq => haway _ q hq rfl) ?_
      apply (hs.accounted p).finish hstack
      cases hcb : (s.promises p).subs[i]? with
      | none => rfl
      | some cb =>
        obtain ⟨o, hloop, ho, -⟩ := (hs.accounted p).share
        obtain ⟨rfl, -⟩ := hloop.unique (t := t) (i := i) (by simp [hstack])
        obtain ⟨r, hr⟩ := Option.isSome_iff_exists.mp (ho rfl).2
        exact absurd hr (hover cb r hcb)
  · next p rest hstack =>
    obtain rfl := Option.some.inj hnext
    obtain ⟨hp, -⟩ := hs.executor t p (by simp [hstack])
    have hpop : Sound (s.setFiber t rest) :=
      hs.quiet (.setFiber (by simp [hstack]; tauto)) fun q => .setFiber (by simp [hstack])
    exact hpop.return hp
  · next rest hstack =>
    obtain rfl := Option.some.inj hnext
    exact hs.quiet (.setFiber (by simp [hstack])) fun q => .setFiber (by simp [hstack])
  · cases hnext

/-- A timer's loop starts at the first of the subscribers that wait. -/
theorem Sound.fire (hs : Sound s) {k : ℕ} (hfire : s.fire k = some s') : Sound s' := by
  unfold State.fire at hfire
  split at hfire
  · next p e _ =>
    obtain rfl := Option.some.inj hfire
    have htimers : Sound { s with timers := s.timers.eraseIdx k } :=
      hs.quiet ⟨rfl, fun _ _ => rfl, fun _ => rfl, fun _ => rfl, fun _ _ h => h⟩
        (fun _ => ⟨rfl, rfl, rfl, rfl, fun _ h => h⟩)
    split
    · exact htimers
    · exact htimers.quiet (.note _ _) (fun _ => .note rfl rfl rfl)
  · cases hfire

/-- A native promise calls a subscriber that waits. -/
theorem Accounted.deliver (h : Accounted s p) {k : ℕ} (hnative : (s.promises p).native = true)
    (hcb : (s.promises p).subs[k]? = some cb) (hr : (s.promises p).settled = some r) :
    Accounted (((s.setPromise p
      { s.promises p with subs := (s.promises p).subs.eraseIdx k }).push t .pcall).note
      (.called p cb r)) p := by
  obtain ⟨o, hloop, ho, hperm⟩ := h.share
  refine ⟨?_, ?_, o, hloop.update (by simp), by simpa [State.push] using ho, ?_⟩
  · simpa [State.push, Event.done?] using h.first
  · intro c hc
    rcases (by simpa [State.push, Event.call?] using hc :
      c ∈ calls s.log p ∨ c = (cb, r)) with hc | rfl
    · simpa [State.push] using h.reply c hc
    · simpa [State.push] using hr
  · obtain ⟨hk, rfl⟩ := List.getElem?_eq_some_iff.mp hcb
    have hmove := (List.getElem_cons_eraseIdx_perm hk).append_left
      ((calls s.log p).map Prod.fst)
    have hsubs : (s.promises p).waiting o = (s.promises p).subs := by
      simp [Promise.waiting, hnative]
    rw [hsubs] at hperm
    simpa [State.push, Event.call?, Event.subscriber?, Promise.waiting, hnative] using
      hmove.trans hperm

/-- A native promise calls one that waits, and it waits no more. -/
theorem Sound.deliver (hs : Sound s) {k : ℕ} (hdeliver : s.deliver t p k = some s') :
    Sound s' := by
  unfold State.deliver at hdeliver
  dsimp only at hdeliver
  split at hdeliver
  · next cb r hnative hcb hr =>
    obtain rfl := Option.some.inj hdeliver
    have hp : p < s.made := by
      by_contra h
      rw [hs.fresh p (Nat.not_lt.mp h)] at hnative
      cases hnative
    have hset := Tame.setPromise (P := { s.promises p with
      subs := (s.promises p).subs.eraseIdx k }) hp rfl rfl
    apply Sound.enter
    refine hs.touch (p := p) ((hset.trans (.push (by simp))).trans (.note _ _))
      (fun q hq => ?_) ((hs.accounted p).deliver hnative hcb hr)
    have haway : Apart s (s.setPromise p
        { s.promises p with subs := (s.promises p).subs.eraseIdx k }) q :=
      .setPromise fun h => absurd h hq
    exact (haway.trans (.setFiber (by simp))).trans (.note rfl rfl (by simp [Event.call?, hq]))
  · cases hdeliver

/-- A promise is made. -/
theorem Sound.make (hs : Sound s) {P : Promise α} (hsubs : P.subs = []) (hnew : P.settled = none)
    (hlisted : ∀ promises, P.listed = some promises →
      P.native = false ∧ ∀ p ∈ promises, p < s.made) :
    Sound (s.make P) := by
  have hmade : s.promises s.made = {} := hs.fresh s.made (Nat.le_refl _)
  refine { fresh := fun q hq => ?_, executor := fun t p hp => ?_,
           listed := fun g promises h => ?_, accounted := fun q => ?_ }
  · have hq : s.made < q := hq
    exact (make_ne s P (Nat.ne_of_gt hq)).trans (hs.fresh q (Nat.le_of_lt hq))
  · obtain ⟨hlt, hnative, hnone⟩ := hs.executor t p hp
    rw [make_ne s P (Nat.ne_of_lt hlt)]
    exact ⟨Nat.lt_succ_of_lt hlt, hnative, hnone⟩
  · have hold : ((s.make P).promises g).native = false ∧ ∀ p ∈ promises, p < s.made := by
      by_cases hg : g = s.made
      · subst hg
        rw [make_self] at h ⊢
        exact hlisted promises h
      · rw [make_ne s P hg] at h ⊢
        exact hs.listed g promises h
    exact ⟨hold.1, fun p hp => Nat.lt_succ_of_lt (hold.2 p hp)⟩
  · by_cases hq : q = s.made
    · subst hq
      have hold := hs.accounted s.made
      obtain ⟨hcalls, hloop, hperm⟩ := hold.unsettled (by rw [hmade])
      have hfirst : firstDone s.log s.made = none := by rw [← hold.first, hmade]
      rw [hmade] at hperm
      refine ⟨by simp [hnew, hfirst], by simp [hcalls], none, hloop, (fun h => by cases h), ?_⟩
      simpa [hcalls, Promise.waiting, hsubs, hnew] using hperm
    · exact (hs.accounted q).apart
        ⟨by rw [make_ne s P hq], rfl, rfl, rfl, fun _ h => h⟩

/-- An executor starts. -/
theorem Sound.execute (hs : Sound s) (hp : p < s.made) (hnative : (s.promises p).native = false)
    (hlisted : (s.promises p).listed = none) : Sound (s.push t (.executor p)) where
  fresh := hs.fresh
  listed := hs.listed
  executor t' q hq := by
    by_cases ht : t' = t
    · subst ht
      have hq : q = p ∨ .executor q ∈ s.fibers t' := by simpa [State.push] using hq
      rcases hq with rfl | hq
      · exact ⟨hp, hnative, hlisted⟩
      · exact hs.executor t' q hq
    · exact hs.executor t' q (by simpa [State.push, setFiber_ne, ht] using hq)
  accounted q := (hs.accounted q).apart (.setFiber (by simp))

/-- A subscription names a promise that has been made. -/
theorem Tame.subscribe (h : WellFormed s) (hp : p < s.made) {now : Bool} :
    Tame s (s.subscribe t p cb now) := by
  have hsub : Tame s (s.setPromise p { s.promises p with had_sub := true }) :=
    .setPromise hp rfl rfl
  have hwait : ∀ u, Tame s u → Tame s ((u.note (.subscribed p cb)).wait p cb) := fun u hu => by
    have hset : Tame (u.note (.subscribed p cb)) ((u.note (.subscribed p cb)).wait p cb) :=
      .setPromise (hu.made ▸ hp) rfl rfl
    exact (hu.trans (.note u _)).trans hset
  have hcall : ∀ u r, Tame s u → Tame s ((u.note (.subscribed p cb)).call t p cb r) := by
    intro u r hu
    have hnotes := (hu.trans (.note u (.subscribed p cb))).trans (.note _ (.called p cb r))
    exact hnotes.trans (.enter (h.tame hnotes))
  unfold State.subscribe
  dsimp only
  split
  · split
    · exact hcall s _ (.refl s)
    · exact hwait s (.refl s)
  · split
    · exact hcall _ _ hsub
    · exact hwait _ hsub

/-- The loop of `gather` subscribes to each promise of its list; induction on the list. -/
theorem Sound.subscribeAll {g : PromiseId} {promises : List (PromiseId × Bool)} (hs : Sound s)
    (hpromises : ∀ p ∈ promises, p.1 < s.made) (i : ℕ) :
    Sound (s.subscribeAll t g i promises) := by
  induction promises generalizing s i with
  | nil => exact hs
  | cons head rest ih =>
    have hhead : head.1 < s.made := hpromises head List.mem_cons_self
    apply ih (hs.subscribe hhead)
    intro p hp
    rw [(Tame.subscribe hs.toWellFormed hhead).made]
    exact hpromises p (List.mem_cons_of_mem _ hp)

/-- `gather` makes its promise. -/
theorem Sound.make_gather (hs : Sound s) {promises : List (PromiseId × Bool)}
    (hpromises : ∀ p ∈ promises, p.1 < s.made) :
    Sound (s.make { gathers := some ⟨promises.map Prod.fst, List.replicate promises.length none,
                      promises.length⟩, returned := true }) := by
  apply hs.make rfl rfl
  intro listed hlisted
  obtain rfl := Option.some.inj hlisted
  refine ⟨rfl, fun p hp => ?_⟩
  obtain ⟨entry, hentry, rfl⟩ := List.mem_map.mp hp
  exact hpromises entry hentry

/-- `gather` makes its promise and then subscribes to those of the list. -/
theorem Sound.gather (hs : Sound s) {promises : List (PromiseId × Bool)}
    (hpromises : ∀ p ∈ promises, p.1 < s.made) : Sound (s.gather t promises) := by
  have hmake := hs.make_gather hpromises
  unfold State.gather
  dsimp only
  split
  · exact hmake.done (Nat.lt_succ_self _) (by simp)
  · exact hmake.subscribeAll (fun p hp => Nat.lt_succ_of_lt (hpromises p hp)) 0

/-- Native code settles a native promise, whose subscribers wait until they are called. -/
theorem Sound.settle (hs : Sound s) (hsettle : s.settle p r = some s') : Sound s' := by
  obtain ⟨⟨hp, hnative, hnone⟩, rfl⟩ := of_guarded hsettle
  have hset := Tame.setPromise (P := { s.promises p with settled := some r }) hp rfl rfl
  refine hs.touch (p := p) (hset.trans (.note _ _)) (fun q hq => ?_) ?_
  · have haway : Apart s (s.setPromise p { s.promises p with settled := some r }) q :=
      .setPromise fun h => absurd h hq
    exact haway.trans (.note rfl (by simp [Event.done?, hq]) rfl)
  · have hold := hs.accounted p
    have hnone : (s.promises p).settled = none := Option.isNone_iff_eq_none.mp hnone
    obtain ⟨hcalls, hloop, hperm⟩ := hold.unsettled hnone
    have hfirst : firstDone s.log p = none := hold.first ▸ hnone
    refine ⟨?_, ?_, none, hloop, (fun h => by cases h), ?_⟩
    · simp [hfirst, Event.done?]
    · simp [hcalls, Event.call?]
    · simpa [hcalls, Event.call?, Event.subscriber?, Promise.waiting, hnative] using hperm

/-! ## Errors -/

/-- A stack of which only frames without subscribers left to call are dropped. -/
theorem Accounted.drop (h : Accounted s q) {front back rest : List Frame}
    (hstack : front ++ back = s.fibers t) (hkept : ∀ frame ∈ front, ¬ s.Owes frame)
    (hrest : loops q rest = loops q back) : Accounted (s.setFiber t rest) q := by
  have hloops : loops q (s.fibers t) = loops q front ++ loops q rest := by
    rw [← hstack, loops_append, hrest]
  cases hfront : loops q front with
  | nil => exact h.apart (.setFiber (by simp [hloops, hfront]))
  | cons i more =>
    obtain ⟨o, hloop, ho, hperm⟩ := h.share
    have hmem : i ∈ loops q (s.fibers t) := by simp [hloops, hfront]
    obtain ⟨rfl, hone, -⟩ := hloop.unique hmem
    obtain ⟨hnative, hsettled⟩ := ho rfl
    have hempty : loops q rest = [] := by
      rw [hloops, hfront] at hone
      simp_all
    have howes := hkept _ (mem_loops.mp (by simp [hfront] : i ∈ loops q front))
    have hdrop : (s.promises q).subs.drop i = [] :=
      List.drop_eq_nil_of_le (Nat.not_lt.mp howes)
    refine ⟨h.first, h.reply, none, hloop.stop hmem hempty, (fun h => by cases h), ?_⟩
    simpa [Promise.waiting, hnative, hsettled, hdrop] using hperm

/-- An error keeps the account as long as it leaves no loop with subscribers to call. -/
theorem Sound.unwind (hs : Sound s) {rerr : Value α}
    (hkept : ∀ frame ∈ s.left t, ¬ s.Owes frame) : Sound (s.unwind t rerr) := by
  have hsplit : s.left t ++ (s.fibers t).dropWhile (fun frame => !frame.catches) = s.fibers t :=
    List.takeWhile_append_dropWhile
  have hdrop : ∀ rest, (∀ q, loops q rest = loops q
      ((s.fibers t).dropWhile (fun frame => !frame.catches))) →
      (∀ p, .executor p ∈ rest → .executor p ∈ s.fibers t) → Sound (s.setFiber t rest) :=
    fun rest hloops hexecutors =>
      { hs.toWellFormed.tame (.setFiber hexecutors) with
        accounted := fun q => (hs.accounted q).drop hsplit hkept (hloops q) }
  unfold State.unwind
  split
  · next p rest hback =>
    rw [hback] at hdrop hsplit
    have hmem : Frame.executor p ∈ s.fibers t := by simp [← hsplit]
    obtain ⟨hp, hnative, -⟩ := hs.executor t p hmem
    have hrest := hdrop rest (by simp) (by simp [← hsplit]; tauto)
    have hdone := Tame.done (s := s.setFiber t rest) (t := t) (r := ⟨none, some rerr⟩) hp
    exact (hrest.done hp hnative).return (hdone.made ▸ hp)
  · next frame rest _ hback =>
    have hcatches : frame.catches = true := by
      have hne : (s.fibers t).dropWhile (fun frame => !frame.catches) ≠ [] := by simp [hback]
      simpa [hback] using List.head_dropWhile_not _ hne
    rw [hback] at hdrop hsplit
    apply hdrop rest
    · intro q
      cases frame with
      | loop => cases hcatches
      | script | pcall | executor => rfl
    · intro p hp
      simp [← hsplit, hp]
  · next hback =>
    rw [hback] at hdrop
    exact hdrop [] (fun _ => rfl) (by simp)

/-! ## Runs -/

/-- Every operation of script code keeps the invariant, errors under that condition. -/
theorem Sound.script (hs : Sound s) {rest : List Frame} (hstack : s.fibers t = .script :: rest)
    {op : Op α} (hkept : Kept s (t, op)) (hscript : s.script t rest op = some s') : Sound s' := by
  cases op with
  | promise =>
    obtain rfl := Option.some.inj hscript
    have hmake : Sound (s.make {}) := hs.make rfl rfl (fun G hG => by cases hG)
    have hmade : s.made < s.made + 1 := Nat.lt_succ_self _
    have hexecute := hmake.execute (t := t) (p := s.made) hmade (by simp) (by simp [Promise.listed])
    exact hexecute.quiet (.push (by simp)) fun q => .setFiber (by simp)
  | subscribe p f =>
    obtain ⟨⟨hp, -⟩, rfl⟩ := of_guarded hscript
    exact hs.subscribe hp
  | done p r =>
    obtain ⟨⟨hp, -, hnative⟩, rfl⟩ := of_guarded hscript
    exact hs.done hp hnative
  | gather promises =>
    obtain ⟨hpromises, rfl⟩ := of_guarded hscript
    exact hs.gather fun p hp => (hpromises p hp).1
  | pcall =>
    obtain rfl := Option.some.inj hscript
    have hpcall : Sound (s.push t .pcall) := hs.quiet (.push (by simp)) fun q => .setFiber (by simp)
    exact hpcall.quiet (.push (by simp)) fun q => .setFiber (by simp)
  | ret =>
    obtain rfl := Option.some.inj hscript
    exact hs.quiet (.setFiber (by simp [hstack])) fun q => .setFiber (by simp [hstack])
  | raise rerr =>
    obtain rfl := Option.some.inj hscript
    exact hs.unwind hkept
  | start | next | fire | native | settle | deliver => cases hscript

/-- A step that keeps the subscribers keeps the invariant. -/
theorem Sound.step (hs : Sound s) {a : ℕ × Op α} (hkept : Kept s a)
    (hstep : step s a = some s') : Sound s' := by
  obtain ⟨t, op⟩ := a
  cases op with
  | start =>
    obtain ⟨hidle, rfl⟩ := of_guarded hstep
    exact hs.quiet (.setFiber (by simp)) fun q => .setFiber (by simp [hidle])
  | next => exact hs.next hstep
  | fire k => exact hs.fire hstep
  | native =>
    obtain rfl := Option.some.inj hstep
    exact hs.make rfl rfl (fun G hG => by cases hG)
  | settle p r => exact hs.settle hstep
  | deliver p k => exact hs.deliver hstep
  | promise | subscribe | done | gather | pcall | ret | raise =>
    simp only [Async.step] at hstep
    split at hstep
    · next rest hstack => exact hs.script hstack hkept hstep
    · cases hstep

/-- An error that leaves the loop of a promise ends it, and touches nothing else of its account. -/
theorem Sound.unwind_loop (hs : Sound s) (rerr : Value α) {i : ℕ}
    (hleft : .loop p i ∈ s.left t) :
    ∃ u, u.promises = s.promises ∧ u.log = s.log ∧ LoopAt u.fibers p none ∧
      Apart u (s.unwind t rerr) p := by
  have hsplit : s.left t ++ (s.fibers t).dropWhile (fun frame => !frame.catches) = s.fibers t :=
    List.takeWhile_append_dropWhile
  obtain ⟨o, hloop, ho, -⟩ := (hs.accounted p).share
  have hfront : i ∈ loops p (s.left t) := mem_loops.mpr hleft
  have hmem : i ∈ loops p (s.fibers t) := by
    rw [← hsplit, loops_append]
    exact List.mem_append_left _ hfront
  obtain ⟨rfl, hone, -⟩ := hloop.unique hmem
  obtain ⟨r₀, hsettled⟩ := Option.isSome_iff_exists.mp (ho rfl).2
  have hback : loops p ((s.fibers t).dropWhile (fun frame => !frame.catches)) = [] := by
    obtain ⟨more, rest, hmore⟩ := List.append_of_mem hfront
    rw [← hsplit, loops_append, hmore] at hone
    cases more <;> simp_all
  have hdrop : ∀ rest, loops p rest = [] → LoopAt (s.setFiber t rest).fibers p none :=
    fun rest hrest => hloop.stop hmem hrest
  unfold State.unwind
  split
  · next q rest hstack =>
    refine ⟨s.setFiber t rest, rfl, rfl, hdrop rest (by simpa [hstack] using hback), ?_⟩
    have hdone : Apart (s.setFiber t rest) ((s.setFiber t rest).done t q ⟨none, some rerr⟩) p := by
      by_cases hq : q = p
      · subst hq
        exact .again hsettled ((hs.accounted q).first ▸ hsettled)
      · exact .done hq
    refine hdone.trans (.setPromise ?_)
    rintro rfl
    rfl
  · next frame rest _ hstack =>
    refine ⟨s.setFiber t rest, rfl, rfl, hdrop rest ?_, .refl _ p⟩
    rw [hstack] at hback
    cases frame with
    | loop q j =>
      rw [loops_loop] at hback
      split at hback
      · cases hback
      · exact hback
    | script | pcall | executor => exact hback
  · exact ⟨s.setFiber t [], rfl, rfl, hdrop [] rfl, .refl _ p⟩

/-- An error that leaves a loop with subscribers left to call loses them. -/
theorem Sound.break (hs : Sound s) {a : ℕ × Op α} (hlost : ¬ Kept s a)
    (hstep : Async.step s a = some s') :
    ∃ p, (s'.promises p).native = false ∧ ¬ ExactlyOnce s' p := by
  obtain ⟨t, op⟩ := a
  cases op with
  | raise rerr =>
    obtain ⟨frame, hframe, howes⟩ : ∃ frame ∈ s.left t, s.Owes frame := by
      simpa [Kept] using hlost
    cases frame with
    | loop p i =>
      obtain ⟨u, hpromises, hlog, hloop, hapart⟩ := hs.unwind_loop rerr hframe
      obtain rfl : s.unwind t rerr = s' := by
        simp only [Async.step] at hstep
        split at hstep
        · exact Option.some.inj hstep
        · cases hstep
      have hold := hs.accounted p
      obtain ⟨o, hloop₀, ho, hperm⟩ := hold.share
      have hmem : .loop p i ∈ s.fibers t := (List.takeWhile_sublist _).mem hframe
      obtain ⟨rfl, -⟩ := hloop₀.unique (mem_loops.mpr hmem)
      obtain ⟨hnative, hsettled⟩ := ho rfl
      have hcore := hapart.core
      rw [hpromises] at hcore
      refine ⟨p, (Prod.ext_iff.mp hcore).1.trans hnative, fun honce => ?_⟩
      have hidle : ¬ (s.unwind t rerr).Notifies p := by
        rintro ⟨t', j, hj⟩
        have := hapart.loops none hloop t'
        rw [← mem_loops, this] at hj
        cases hj
      have hfirst : (firstDone (s.unwind t rerr).log p).isSome := by
        rwa [hapart.first, hlog, ← hold.first]
      have hall := honce.all hfirst hidle
      rw [hapart.calls, hapart.subscribers, hlog] at hall
      have hlength := (hperm.trans hall.symm).length_eq
      have howes : i < (s.promises p).subs.length := howes
      obtain ⟨r₀, hr₀⟩ := Option.isSome_iff_exists.mp hsettled
      have hover : (s.promises p).subs.length - i = 0 := by
        simpa [Promise.waiting, hnative, hr₀] using hlength
      omega
    | script | pcall | executor => exact absurd howes (fun h => h)
  | start | promise | subscribe | done | gather | pcall | ret | next | fire | native | settle
  | deliver => exact absurd trivial hlost

end Operations

/-- Along a run from the start, the subscribers of every promise that `promise` made are called
exactly once, with what the first `done` got, if and only if no error leaves a loop of `done` that
has subscribers left to call. -/
theorem exactlyOnce_iff_along {actions : List (ℕ × Op α)} {s : State α}
    (hrun : run step init actions = some s) :
    (∀ done u, done <+: actions → run step init done = some u →
        ∀ p, (u.promises p).native = false → ExactlyOnce u p) ↔
      Along step Kept init actions := by
  apply forall_run_iff_along (fun hs hkept hstep => Sound.step hs hkept hstep)
    (fun hs p hnative => (hs.accounted p).exactlyOnce hnative) ?_ init_sound hrun
  intro s a t hs hlost hstep hall
  obtain ⟨p, hnative, hbroken⟩ := hs.break hlost hstep
  exact hbroken (hall p hnative)

/-- A promise with two subscribers is settled, and calls the first. -/
def firstOfTwo : List (ℕ × Op ℕ) :=
  [(0, .start), (0, .promise), (0, .ret), (0, .next), (0, .subscribe 0 1), (0, .subscribe 0 2),
    (0, .done 0 ⟨some (.data 7), none⟩), (0, .next)]

/-- The first subscriber returns, and the second one raises. -/
theorem exactlyOnce_raiseInSecond :
    (∃ t : State ℕ, run step init
      (firstOfTwo ++ [(0, .ret), (0, .next), (0, .raise (.data 9))]) = some t) ∧
    ∀ done (u : State ℕ), done <+: firstOfTwo ++ [(0, .ret), (0, .next), (0, .raise (.data 9))] →
      run step init done = some u → ∀ p, (u.promises p).native = false → ExactlyOnce u p :=
  ⟨⟨_, rfl⟩, (exactlyOnce_iff_along rfl).mpr (by decide)⟩

/-- The first subscriber raises: the second one is never called. -/
theorem not_exactlyOnce_raiseInFirst : ¬ ∀ s : State ℕ,
    run step init (firstOfTwo ++ [(0, .raise (.data 9))]) = some s →
      ∀ p, (s.promises p).native = false → ExactlyOnce s p := by
  intro h
  have hperm := (h _ rfl 0 rfl).all (by decide) (by
    rintro ⟨t, i, hmem⟩
    cases t with
    | zero => exact List.not_mem_nil hmem
    | succ t => exact List.not_mem_nil hmem)
  exact absurd hperm.length_eq (by decide)

end Radapter.Async
