import Radapter.Modbus.MasterSteps

/-!
# Messages to a master, with their validators

`OnMsg` goes through the flattened message entry by entry. If the entry's register has a validator,
it is called on the fiber that `OnMsg` runs on, and the fiber is suspended until the answer is
there. Meanwhile other messages to the same master are handled on other fibers, requests are sent
and answered, and the other masters of the device go on. A call that fails counts as a refusal.

The validator is called without arguments, so its answer cannot depend on the value of the entry.
-/

namespace Radapter

/-- The entries of a flattened message. -/
def flatEntries (msg : QVariant) : List (Bytes × Scalar) :=
  (Flatten msg).filterMap fun e =>
    match e.2 with
    | .leaf v => some (e.1, v)
    | _ => none

mutual

/-- What `flatten` writes are leaves. -/
theorem leaf_of_mem_flatten (path : Bytes) {v : QVariant} {e : Bytes × QVariant}
    (he : e ∈ (flatten path v).1) : ∃ s, e.2 = .leaf s := by
  cases v with
  | leaf s =>
    rw [flatten, List.mem_singleton] at he
    exact ⟨s, by rw [he]⟩
  | map entries => exact leaf_of_mem_flattenMap path entries he
  | list items => exact leaf_of_mem_flattenList path 0 items he

/-- What a map is flattened to are leaves; induction on the map. -/
theorem leaf_of_mem_flattenMap (path : Bytes) (entries : List (QString × QVariant))
    {e : Bytes × QVariant} (he : e ∈ (flattenMap path entries).1) : ∃ s, e.2 = .leaf s := by
  cases entries with
  | nil => cases he
  | cons entry rest =>
    obtain ⟨key, v⟩ := entry
    rw [flattenMap] at he
    rcases List.mem_append.mp he with he | he
    · exact leaf_of_mem_flatten _ he
    · exact leaf_of_mem_flattenMap _ rest he

/-- So is what a list is flattened to. -/
theorem leaf_of_mem_flattenList (path : Bytes) (idx : ℕ) (items : List QVariant)
    {e : Bytes × QVariant} (he : e ∈ (flattenList path idx items).1) : ∃ s, e.2 = .leaf s := by
  cases items with
  | nil => cases he
  | cons v rest =>
    rw [flattenList] at he
    rcases List.mem_append.mp he with he | he
    · exact leaf_of_mem_flatten _ he
    · exact leaf_of_mem_flattenList _ _ rest he

end

/-- `flatEntries` leaves nothing of the flattened message out. -/
theorem Flatten_eq_flatEntries (msg : QVariant) :
    Flatten msg = (flatEntries msg).map (fun e => (e.1, .leaf e.2)) := by
  have hleaves : ∀ e ∈ Flatten msg, ∃ s, e.2 = .leaf s := fun e he => leaf_of_mem_flatten [] he
  unfold flatEntries
  generalize Flatten msg = flat at hleaves
  induction flat with
  | nil => rfl
  | cons e rest ih =>
    obtain ⟨k, v⟩ := e
    obtain ⟨s, hs⟩ := hleaves (k, v) List.mem_cons_self
    obtain rfl : v = .leaf s := hs
    have hrest := ih fun e he => hleaves e (List.mem_cons_of_mem _ he)
    simp only [List.filterMap_cons, List.map_cons]
    rw [← hrest]

end Radapter

namespace Radapter.Modbus

open Library

/-- What the Lua functions do: their results, or nothing if they raise an error. -/
abbrev Script := LuaFunction → List QVariant → Option QVariant

/-- `res.value<bool>()`. -/
def valueBool (qt : Conversions) : QVariant → Bool
  | .leaf v => v.toBool qt
  | _ => false

/-- A call of a validator that neither fails nor refuses. -/
def Script.accepts (call : Script) (qt : Conversions) (f : LuaFunction)
    (args : List QVariant) : Bool :=
  match call f args with
  | none => false
  | some res => valueBool qt res

variable (p : Plant) (call : Script) (m : ℕ)

/-- The validator that `OnMsg` calls for an entry. -/
def Plant.validatorOf (k : Bytes) (v : Scalar) : Option LuaFunction :=
  if v = .invalid then none else ((p.masters m).writable k).bind fun reg => reg.validator

/-- The answer for an entry; without a validator it does not matter. -/
def Plant.answer (k : Bytes) (v : Scalar) (args : List QVariant) : Bool :=
  match p.validatorOf m k v with
  | none => true
  | some f => call.accepts p.qt f args

/-- A write that was enqueued for an entry. -/
structure Enqueued where
  key : Bytes
  value : Scalar
  request : Issued Callback

/-- The entry of a write. -/
def Enqueued.entry (w : Enqueued) : Bytes × Scalar := (w.key, w.value)

/-- A call of `OnMsg`: its message, the entries that are left, whether it waits for the validator of
the first of them, and the writes that it has enqueued. -/
structure Handler where
  msg : QVariant
  rest : List (Bytes × Scalar)
  awaiting : Bool := false
  written : List Enqueued := []

/-- The masters, and the calls of `OnMsg` of one of them. -/
structure Handling where
  masters : Masters := {}
  handlers : List Handler := []

/-- What happens: a message, a call of `OnMsg` that goes on, and all else. -/
inductive Event where
  | OnMsg (msg : QVariant)
  | next (i : ℕ)
  | other (a : Masters.Action)

/-- The step is not for an entry of a message to the master. -/
def Masters.Action.IsOther (m : ℕ) : Masters.Action → Prop
  | .entry n _ _ _ => n ≠ m
  | _ => True

instance (a : Masters.Action) : Decidable (a.IsOther m) := by
  cases a <;> unfold Masters.Action.IsOther <;> infer_instance

namespace Handling

variable {p m}

/-- The writes that a step has enqueued. -/
def enqueued (s t : Masters) (k : Bytes) (v : Scalar) : List Enqueued :=
  (t.device.issued.drop s.device.issued.length).map fun request => { key := k, value := v, request }

/-- One step. A call of `OnMsg` goes on until it calls a validator or is done with an entry. -/
def step (p : Plant) (call : Script) (m : ℕ) (s : Handling) : Event → Option Handling
  | .OnMsg msg =>
      some { s with handlers := s.handlers ++ [{ msg := msg, rest := flatEntries msg }] }
  | .next i => do
      let h ← s.handlers[i]?
      match h.rest with
      | [] => none
      | (k, v) :: rest =>
          if (p.validatorOf m k v).isSome ∧ h.awaiting = false then
            return { s with handlers := s.handlers.set i { h with awaiting := true } }
          else
            let t ← s.masters.step p (.entry m k v (p.answer call m k v []))
            return { masters := t
                     handlers := s.handlers.set i
                       { h with rest := rest, awaiting := false
                                written := h.written ++ enqueued s.masters t k v } }
  | .other a =>
      if a.IsOther m then do
        let t ← s.masters.step p a
        return { s with masters := t }
      else none

end Handling

/-! ## The requests of one entry -/

/-- The entry has a value that can be written to a writable register, and the register has no
validator or one that accepts these arguments. -/
def Plant.Passes (args : List QVariant) (e : Bytes × Scalar) : Prop :=
  e.2 ≠ .invalid ∧ ∃ reg, (p.masters m).writable e.1 = some reg ∧
    (∀ f, reg.validator = some f → call.accepts p.qt f args = true) ∧
      ∃ words, encodeRegister p.qt reg.toPreparedRegister e.2 = .ok words

/-- An entry passes exactly if `OnMsg` enqueues a write for it. -/
theorem Plant.passes_iff_accept (args : List QVariant) (e : Bytes × Scalar) :
    p.Passes call m args e ↔ (p.accept m e.1 e.2 (p.answer call m e.1 e.2 args)).isSome := by
  obtain ⟨k, v⟩ := e
  unfold Plant.Passes Plant.accept Plant.answer Plant.validatorOf
  by_cases hv : v = .invalid
  · simp [hv]
  cases (p.masters m).writable k with
  | none => simp [hv]
  | some reg =>
    cases hvalidator : reg.validator with
    | none =>
      cases hwords : encodeRegister p.qt reg.toPreparedRegister v <;>
        simp [hv, hvalidator, hwords]
    | some f =>
      cases hwords : encodeRegister p.qt reg.toPreparedRegister v <;>
        cases haccepts : call.accepts p.qt f args <;> simp [hv, hvalidator, hwords, haccepts]

instance (args : List QVariant) (e : Bytes × Scalar) : Decidable (p.Passes call m args e) :=
  decidable_of_iff _ (p.passes_iff_accept call m args e).symm

/-- The write carries the value of its entry to the entry's register. -/
structure Enqueued.Carries (w : Enqueued) : Prop where
  op : w.request.op = .op_write
  master : w.request.req.ctx = m
  register : ∃ reg, (p.masters m).writable w.key = some reg ∧
    w.request.req.unit.registerType = reg.mbType ∧ w.request.req.unit.startAddress = reg.index ∧
    encodeRegister p.qt reg.toPreparedRegister w.value = .ok w.request.req.unit.values

namespace Handling

variable {p call m}

/-- A request that is issued after its record is the only one of its step. -/
theorem enqueued_record_issue (s : Masters) (reg : PreparedWriteRegister) (unit : QModbusDataUnit)
    (op : Op) (req : Request Callback) (k : Bytes) (v : Scalar) :
    enqueued s ((s.record p m reg unit).issue p op req) k v =
      [{ key := k, value := v, request := s.device.nextIssued op req }] := by
  have hissued : ((s.record p m reg unit).issue p op req).device.issued =
      s.device.issued ++ [s.device.nextIssued op req] := Masters.issued_issue ..
  rw [enqueued, hissued, List.drop_left, List.map_singleton]

/-- What one entry enqueues: one write if it passes, and nothing otherwise. -/
theorem enqueued_of_entry {s t : Masters} {k : Bytes} {v : Scalar} {args : List QVariant}
    (h : s.step p (.entry m k v (p.answer call m k v args)) = some t) :
    (enqueued s t k v).map Enqueued.entry = [(k, v)].filter (p.Passes call m args ·) ∧
      ∀ w ∈ enqueued s t k v, w.request ∈ t.device.issued ∧ w.Carries p m := by
  have hpasses := p.passes_iff_accept call m args (k, v)
  cases Masters.effect_of_step h with
  | refuse _ haccept =>
    have hnot : ¬ p.Passes call m args (k, v) := by
      rw [hpasses, haccept]
      exact Bool.false_ne_true
    have hnone : enqueued s s k v = [] := by
      rw [enqueued, List.drop_length, List.map_nil]
    rw [hnone, List.filter_cons_of_neg (by simpa using hnot)]
    exact ⟨rfl, fun w hw => absurd hw List.not_mem_nil⟩
  | @accept _ _ _ _ reg unit _ _ haccept =>
    have hpass : p.Passes call m args (k, v) := by
      rw [hpasses, haccept]
      rfl
    obtain ⟨hkey, hreg, hwords⟩ := Masters.accept_eq_some haccept
    obtain ⟨htype, hstart⟩ := Masters.unit_of_accept haccept
    rw [enqueued_record_issue, Masters.issued_issue, List.filter_cons_of_pos (by simpa using hpass)]
    refine ⟨rfl, fun w hw => ?_⟩
    rw [List.mem_singleton.mp hw]
    rw [hkey] at hreg
    exact ⟨List.mem_append_right _ (List.mem_singleton.mpr rfl), rfl, rfl, reg, hreg, htype,
      hstart, hwords⟩

/-! ## Runs -/

variable {s t : Handling}

/-- A call of `OnMsg` that goes on calls the validator of its next entry, or is done with it. -/
theorem step_next {i : ℕ} (hstep : s.step p call m (.next i) = some t) :
    ∃ h k v rest, s.handlers[i]? = some h ∧ h.rest = (k, v) :: rest ∧
      (t = { s with handlers := s.handlers.set i { h with awaiting := true } } ∨
        ∃ u, s.masters.step p (.entry m k v (p.answer call m k v [])) = some u ∧
          t = { masters := u
                handlers := s.handlers.set i
                  { h with rest := rest, awaiting := false
                           written := h.written ++ enqueued s.masters u k v } }) := by
  obtain ⟨h, hget, hstep⟩ := Option.bind_eq_some_iff.mp hstep
  cases hrest : h.rest with
  | nil =>
    rw [hrest] at hstep
    cases hstep
  | cons e rest =>
    obtain ⟨k, v⟩ := e
    rw [hrest] at hstep
    dsimp only at hstep
    refine ⟨h, k, v, rest, hget, hrest, ?_⟩
    split at hstep
    · cases hstep
      exact Or.inl (by rw [hrest])
    · obtain ⟨u, hu, hstep⟩ := Option.bind_eq_some_iff.mp hstep
      cases hstep
      exact Or.inr ⟨u, hu, rfl⟩

end Handling

/-- What holds of a call of `OnMsg` at any time: the entries behind it have been decided each by its
own value, and its writes carry the values of their entries. -/
structure Handler.Sound (s : Masters) (h : Handler) : Prop where
  decided : ∃ done, flatEntries h.msg = done ++ h.rest ∧
    h.written.map Enqueued.entry = done.filter (p.Passes call m [] ·)
  carried : ∀ w ∈ h.written, w.request ∈ s.device.issued ∧ w.Carries p m

variable {p call m}

/-- What was enqueued stays enqueued. -/
theorem Handler.Sound.mono {s t : Masters} {h : Handler} (hs : h.Sound p call m s)
    (hissued : s.device.issued <+: t.device.issued) : h.Sound p call m t :=
  ⟨hs.decided, fun w hw => ⟨hissued.subset (hs.carried w hw).1, (hs.carried w hw).2⟩⟩

/-- Being done with an entry. -/
theorem Handler.Sound.entry {s t : Masters} {h : Handler} (hs : h.Sound p call m s) {k : Bytes}
    {v : Scalar} {rest : List (Bytes × Scalar)} (hrest : h.rest = (k, v) :: rest)
    (hstep : s.step p (.entry m k v (p.answer call m k v [])) = some t) :
    Handler.Sound p call m t
      { h with rest := rest, awaiting := false
               written := h.written ++ Handling.enqueued s t k v } := by
  obtain ⟨done, hsplit, hwritten⟩ := hs.decided
  obtain ⟨hnew, hcarried⟩ := Handling.enqueued_of_entry hstep
  constructor
  · refine ⟨done ++ [(k, v)], ?_, ?_⟩
    · rw [List.append_assoc, List.singleton_append, ← hrest]
      exact hsplit
    · rw [List.map_append, List.filter_append, hwritten, hnew]
  · intro w hw
    rcases List.mem_append.mp hw with hw | hw
    · exact (hs.mono (Masters.issued_prefix_of_step hstep)).carried w hw
    · exact hcarried w hw

namespace Handling

variable {s t : Handling}

/-- Every step keeps all calls of `OnMsg` sound. -/
theorem sound_step (hs : ∀ h ∈ s.handlers, h.Sound p call m s.masters) {e : Event}
    (hstep : s.step p call m e = some t) : ∀ h ∈ t.handlers, h.Sound p call m t.masters := by
  cases e with
  | OnMsg msg =>
    cases hstep
    intro h hh
    rcases List.mem_append.mp hh with hh | hh
    · exact hs h hh
    · rw [List.mem_singleton.mp hh]
      exact ⟨⟨[], rfl, rfl⟩, fun w hw => absurd hw List.not_mem_nil⟩
  | next i =>
    obtain ⟨h, k, v, rest, hget, hrest, rfl | ⟨u, hu, rfl⟩⟩ := step_next hstep
    · have hsound := hs h (List.mem_of_getElem? hget)
      intro h' hh'
      rcases List.mem_or_eq_of_mem_set hh' with hh' | rfl
      · exact hs h' hh'
      · exact ⟨hsound.decided, hsound.carried⟩
    · have hsound := hs h (List.mem_of_getElem? hget)
      intro h' hh'
      rcases List.mem_or_eq_of_mem_set hh' with hh' | rfl
      · exact (hs h' hh').mono (Masters.issued_prefix_of_step hu)
      · exact hsound.entry hrest hu
  | other a =>
    unfold step at hstep
    dsimp only at hstep
    split at hstep
    · obtain ⟨u, hu, hstep⟩ := Option.bind_eq_some_iff.mp hstep
      cases hstep
      exact fun h hh => (hs h hh).mono (Masters.issued_prefix_of_step hu)
    · cases hstep

/-- In every run all calls of `OnMsg` are sound. -/
theorem sound_run {events : List Event} (hrun : run (step p call m) {} events = some s) :
    ∀ h ∈ s.handlers, h.Sound p call m s.masters := by
  have hinit : ∀ h ∈ ({} : Handling).handlers, h.Sound p call m ({} : Handling).masters :=
    fun h hh => absurd hh List.not_mem_nil
  exact run_invariant_of_step
    (fun hs ht => sound_step hs ht) hinit hrun

end Handling

/-! ## What is written -/

/-- Two conditions keep the same part of a list if and only if they agree on its items. -/
theorem filter_eq_filter_iff {α : Type*} {P Q : α → Prop} [DecidablePred P] [DecidablePred Q]
    {l : List α} : l.filter (P ·) = l.filter (Q ·) ↔ ∀ x ∈ l, (P x ↔ Q x) := by
  constructor
  · intro heq x hx
    have hmem : x ∈ l.filter (P ·) ↔ x ∈ l.filter (Q ·) := by rw [heq]
    simpa [hx] using hmem
  · intro hiff
    refine List.filter_congr fun x hx => ?_
    simp [hiff x hx]

variable (p call m)

/-- The entries that are to be written: their registers' validators accept their values. -/
def Plant.Wanted (e : Bytes × Scalar) : Prop := p.Passes call m [.leaf e.2] e

instance (e : Bytes × Scalar) : Decidable (p.Wanted call m e) :=
  inferInstanceAs (Decidable (p.Passes call m [.leaf e.2] e))

/-- If the entry gets as far as its validator and its value can be written, then the validator
answers the same without arguments as for the value. -/
def Plant.AnswersAlike (e : Bytes × Scalar) : Prop :=
  ∀ reg f words, e.2 ≠ .invalid → (p.masters m).writable e.1 = some reg → reg.validator = some f →
    encodeRegister p.qt reg.toPreparedRegister e.2 = .ok words →
      (call.accepts p.qt f [] = true ↔ call.accepts p.qt f [.leaf e.2] = true)

variable {p call m}

/-- The validator answers alike exactly if the entries that pass are those that are wanted. -/
theorem answersAlike_iff {e : Bytes × Scalar} :
    p.AnswersAlike call m e ↔ (p.Passes call m [] e ↔ p.Wanted call m e) := by
  constructor
  · intro halike
    refine and_congr_right fun hvalid => exists_congr fun reg => and_congr_right fun hreg => ?_
    refine and_congr_left fun ⟨words, hwords⟩ => forall_congr' fun f => ?_
    exact imp_congr_right fun hf => halike reg f words hvalid hreg hf hwords
  · intro hiff reg f words hvalid hreg hf hwords
    have hpasses : ∀ args, p.Passes call m args e ↔ call.accepts p.qt f args = true := by
      intro args
      constructor
      · rintro ⟨-, reg', hreg', haccepts, -⟩
        obtain rfl : reg = reg' := Option.some.inj (hreg.symm.trans hreg')
        exact haccepts f hf
      · intro haccepts
        refine ⟨hvalid, reg, hreg, fun f' hf' => ?_, words, hwords⟩
        obtain rfl : f = f' := Option.some.inj (hf.symm.trans hf')
        exact haccepts
    rw [← hpasses, ← hpasses]
    exact hiff

/-- In every run and for every call of `OnMsg`: of the entries it is done with exactly those that
are to be written have been enqueued, in their order, if and only if for each of them the validator
answers the same without arguments. If it has returned, then these are all entries of the flattened
message. Each write carries the value of its entry to the register of its key. -/
theorem enqueued_iff (p : Plant) (call : Script) (m : ℕ) {events : List Event} {s : Handling}
    (hrun : run (Handling.step p call m) {} events = some s) {h : Handler} (hh : h ∈ s.handlers) :
    Flatten h.msg = (flatEntries h.msg).map (fun e => (e.1, .leaf e.2)) ∧
      (∀ w ∈ h.written, w.request ∈ s.masters.device.issued ∧ w.Carries p m) ∧
      (∃ done, flatEntries h.msg = done ++ h.rest ∧
        (h.written.map Enqueued.entry = done.filter (p.Wanted call m ·) ↔
          ∀ e ∈ done, p.AnswersAlike call m e)) ∧
      (h.rest = [] →
        (h.written.map Enqueued.entry = (flatEntries h.msg).filter (p.Wanted call m ·) ↔
          ∀ e ∈ flatEntries h.msg, p.AnswersAlike call m e)) := by
  have hsound := Handling.sound_run hrun h hh
  obtain ⟨done, hsplit, hwritten⟩ := hsound.decided
  have hdone : h.written.map Enqueued.entry = done.filter (p.Wanted call m ·) ↔
      ∀ e ∈ done, p.AnswersAlike call m e := by
    rw [hwritten, filter_eq_filter_iff]
    exact forall₂_congr fun e _ => answersAlike_iff.symm
  refine ⟨Flatten_eq_flatEntries h.msg, hsound.carried, ⟨done, hsplit, hdone⟩, fun hrest => ?_⟩
  rw [hrest, List.append_nil] at hsplit
  rw [hsplit]
  exact hdone

/-- The sample register, with a validator. -/
def validatedRegister : PreparedWriteRegister := { sampleRegister with validator := some ⟨0⟩ }

/-- A device with masters that have that register. -/
def validatedPlant : Plant where
  masters := fun _ =>
    { writable := fun k => if k = [107] then some validatedRegister else none
      keyed := by
        intro k reg h
        split at h
        · next hk =>
          cases h
          exact hk.symm
        · cases h }
  qt := integersOnly

/-- A message with the value 5 for that register. -/
def fiveMessage : QVariant := .map [([107], .leaf (.longlong 5))]

/-- A validator that refuses nothing. -/
def acceptAll : Script := fun _ _ => some (.leaf (.bool true))

/-- A validator that accepts the value 5 only. -/
def acceptFive : Script := fun _ args =>
  match args with
  | [.leaf (.longlong n)] => some (.leaf (.bool (n == 5)))
  | _ => some (.leaf (.bool false))

/-- The calls of `OnMsg` after the message has been handled: what is left, and what was written. -/
def outcome (call : Script) :
    Option (List (QVariant × List (Bytes × Scalar) × List (Bytes × Scalar))) :=
  (run (Handling.step validatedPlant call 0) {} [.OnMsg fiveMessage, .next 0, .next 0]).map
    fun s => s.handlers.map fun h => (h.msg, h.rest, h.written.map Enqueued.entry)

/-- The outcome of the message tells how the call of `OnMsg` ends. -/
theorem exists_outcome (call : Script) (written : List (Bytes × Scalar))
    (houtcome : outcome call = some [(fiveMessage, [], written)]) :
    ∃ s h, run (Handling.step validatedPlant call 0) {} [.OnMsg fiveMessage, .next 0, .next 0] =
      some s ∧ h ∈ s.handlers ∧ h.msg = fiveMessage ∧ h.rest = [] ∧
        h.written.map Enqueued.entry = written := by
  obtain ⟨s, hrun, hhandlers⟩ := Option.map_eq_some_iff.mp houtcome
  obtain ⟨h, hh, heq⟩ : ∃ h ∈ s.handlers, (h.msg, h.rest, h.written.map Enqueued.entry) =
      (fiveMessage, [], written) := by
    apply List.mem_map.mp
    rw [hhandlers]
    exact List.mem_singleton.mpr rfl
  simp only [Prod.mk.injEq] at heq
  exact ⟨s, h, hrun, hh, heq⟩

/-- A validator that accepts everything lets the value through. -/
theorem enqueued_five :
    ∃ s h, run (Handling.step validatedPlant acceptAll 0) {}
        [.OnMsg fiveMessage, .next 0, .next 0] = some s ∧ h ∈ s.handlers ∧ h.msg = fiveMessage ∧
      h.rest = [] ∧ h.written.map Enqueued.entry =
        (flatEntries h.msg).filter (validatedPlant.Wanted acceptAll 0 ·) := by
  obtain ⟨s, h, hrun, hh, hmsg, hrest, -⟩ :=
    exists_outcome acceptAll [([107], .longlong 5)] rfl
  refine ⟨s, h, hrun, hh, hmsg, hrest, ?_⟩
  refine ((enqueued_iff validatedPlant acceptAll 0 hrun hh).2.2.2 hrest).mpr ?_
  exact fun e _ reg f words _ _ _ _ => Iff.rfl

/-- A validator that accepts the value 5 does not see it, and the value is not written. -/
theorem five_refused :
    acceptFive.accepts validatedPlant.qt ⟨0⟩ [.leaf (.longlong 5)] = true ∧
    ∃ s h, run (Handling.step validatedPlant acceptFive 0) {}
        [.OnMsg fiveMessage, .next 0, .next 0] = some s ∧ h ∈ s.handlers ∧ h.msg = fiveMessage ∧
      h.rest = [] ∧ h.written.map Enqueued.entry = [] ∧
        (flatEntries h.msg).filter (validatedPlant.Wanted acceptFive 0 ·) =
          [([107], .longlong 5)] := by
  obtain ⟨s, h, hrun, hh, hmsg, hrest, hwritten⟩ :=
    exists_outcome acceptFive [] rfl
  refine ⟨rfl, s, h, hrun, hh, hmsg, hrest, hwritten, ?_⟩
  rw [hmsg]
  rfl

end Radapter.Modbus
