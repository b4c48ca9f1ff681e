import Radapter.Tags.Told

/-!
# Names of the live workers

A name that a script chose is checked; one that is made is sanitized, and numbered if it is taken. A
number is tried from two on, whatever names it may make: a worker may have been given the name
`test.2` by a script. So that a new name is new depends on all names in use, and not on how many
workers were named by number before.
-/

namespace Radapter.Tags

open Library

variable {isLetterOrNumber : UInt16 → Bool}

/-! ## The search for a number -/

/-- The search stops at the first candidate that is not taken, unless its rounds are used up. -/
private theorem freeFrom_first (taken : List QString) (name : QString) (fuel n : ℕ) :
    ∃ k ≤ fuel, freeFrom taken name fuel n = candidate name (n + k) ∧
      ∀ j < k, candidate name (n + j) ∈ taken := by
  induction fuel generalizing n with
  | zero => exact ⟨0, le_rfl, rfl, fun j hj => absurd hj (Nat.not_lt_zero j)⟩
  | succ fuel ih =>
    rw [freeFrom]
    split_ifs with htaken
    · obtain ⟨k, hk, hfree, hbefore⟩ := ih (n + 1)
      refine ⟨k + 1, by omega, ?_, ?_⟩
      · rw [hfree, show n + 1 + k = n + (k + 1) by omega]
      · intro j hj
        cases j with
        | zero => exact htaken
        | succ j =>
          rw [show n + (j + 1) = n + 1 + j by omega]
          exact hbefore j (by omega)
    · exact ⟨0, Nat.zero_le _, rfl, fun j hj => absurd hj (Nat.not_lt_zero j)⟩

/-- The search ends after as many rounds as names are taken, at the first candidate that is free. -/
theorem freeName_first (taken : List QString) (name : QString) :
    ∃ k ≤ taken.length, freeName taken name = candidate name (2 + k) ∧
      candidate name (2 + k) ∉ taken ∧ ∀ j < k, candidate name (2 + j) ∈ taken := by
  obtain ⟨k, hk, hfree, hbefore⟩ := freeFrom_first taken name taken.length 2
  have hfree : freeName taken name = candidate name (2 + k) := hfree
  exact ⟨k, hk, hfree, hfree ▸ freeName_notMem taken name, hbefore⟩

/-! ## Valid names -/

/-- A name is valid if it has characters, all of them allowed. -/
theorem isValidWorkerName_iff {name : QString} :
    isValidWorkerName isLetterOrNumber name = true ↔
      name ≠ [] ∧ ∀ c ∈ name, isNameUnit isLetterOrNumber c = true := by
  rw [isValidWorkerName, Bool.and_eq_true, Bool.not_eq_true', List.all_eq_true,
    List.isEmpty_eq_false_iff]

/-- The dot is allowed. -/
theorem isNameUnit_dot : isNameUnit isLetterOrNumber dot = true := by
  rw [isNameUnit, Bool.or_eq_true]
  exact Or.inr (by decide)

/-- So is the underscore. -/
theorem isNameUnit_underscore : isNameUnit isLetterOrNumber underscore = true := by
  rw [isNameUnit, Bool.or_eq_true, Bool.or_eq_true]
  exact Or.inl (Or.inr (by decide))

/-- The digits of a number are digits of ASCII. -/
theorem asciiLetterOrNumber_of_mem_number {n : ℕ} {c : UInt16} (hc : c ∈ number n) :
    asciiLetterOrNumber c = true := by
  obtain ⟨b, hb, rfl⟩ := List.mem_map.mp hc
  obtain ⟨hlow, hhigh⟩ := decimal_digit hb
  have hnat : (UInt16.ofNat b.toNat).toNat = b.toNat := by
    rw [UInt16.toNat_ofNat', Nat.mod_eq_of_lt (by omega)]
  have h48 : (48 : UInt16).toNat = 48 := rfl
  have h57 : (57 : UInt16).toNat = 57 := rfl
  rw [asciiLetterOrNumber, Bool.or_eq_true, Bool.or_eq_true, Bool.and_eq_true, decide_eq_true_eq,
    decide_eq_true_eq, UInt16.le_iff_toNat_le, UInt16.le_iff_toNat_le]
  exact Or.inl (Or.inl (by omega))

/-- A loop over units keeps out of the name what no name contains. -/
private theorem isNameUnit_of_mem_sanitizeUnit {out : QString} {c : UInt16}
    (hout : ∀ d ∈ out, isNameUnit isLetterOrNumber d = true) :
    ∀ d ∈ sanitizeUnit isLetterOrNumber out c, isNameUnit isLetterOrNumber d = true := by
  intro d hd
  rw [sanitizeUnit] at hd
  split_ifs at hd with hunit hlast
  · rcases List.mem_append.mp hd with hd | hd
    · exact hout d hd
    · rw [List.mem_singleton.mp hd]
      exact hunit
  · rcases List.mem_append.mp hd with hd | hd
    · exact hout d hd
    · rw [List.mem_singleton.mp hd]
      exact isNameUnit_underscore
  · exact hout d hd

section Ascii

-- what Qt documents of `QChar::isLetterOrNumber` on ASCII
variable (hascii : ∀ c, asciiLetterOrNumber c = true → isLetterOrNumber c = true)

include hascii

/-- So are letters and digits of ASCII. -/
theorem isNameUnit_of_ascii {c : UInt16} (hc : asciiLetterOrNumber c = true) :
    isNameUnit isLetterOrNumber c = true := by
  rw [isNameUnit, hascii c hc]
  rfl

/-- A name that was sanitized is valid. -/
theorem isValidWorkerName_sanitizeName (s : QString) :
    isValidWorkerName isLetterOrNumber (sanitizeName isLetterOrNumber s) = true := by
  have hloop : ∀ d ∈ s.foldl (sanitizeUnit isLetterOrNumber) [],
      isNameUnit isLetterOrNumber d = true := by
    induction s using List.reverseRecOn with
    | nil => exact fun d hd => absurd hd List.not_mem_nil
    | append_singleton s c ih =>
      rw [List.foldl_concat]
      exact isNameUnit_of_mem_sanitizeUnit ih
  rw [isValidWorkerName_iff, sanitizeName]
  split_ifs with hempty
  · refine ⟨by decide, fun c hc => isNameUnit_of_ascii hascii ?_⟩
    have hall : (literal "worker").all asciiLetterOrNumber = true := by decide
    exact List.all_eq_true.mp hall c hc
  · refine ⟨fun h => hempty (List.isEmpty_iff.mpr h), fun c hc => ?_⟩
    exact hloop c ((List.rdropWhile_prefix _ _).subset hc)

/-- A valid name with a number is valid. -/
theorem isValidWorkerName_candidate {name : QString}
    (hname : isValidWorkerName isLetterOrNumber name = true) (n : ℕ) :
    isValidWorkerName isLetterOrNumber (candidate name n) = true := by
  rw [isValidWorkerName_iff] at hname ⊢
  refine ⟨by simp [candidate], fun c hc => ?_⟩
  rw [candidate, List.append_assoc, List.mem_append] at hc
  rcases hc with hc | hc
  · exact hname.2 c hc
  rcases List.mem_append.mp hc with hc | hc
  · rw [List.mem_singleton.mp hc]
    exact isNameUnit_dot
  · exact isNameUnit_of_ascii hascii (asciiLetterOrNumber_of_mem_number hc)

/-- The name of a new worker is valid. -/
theorem isValidWorkerName_workerName {taken : List QString} {conf : WorkerConfig}
    {category : Bytes} {name : QString}
    (h : workerName isLetterOrNumber taken conf category = .ok name) :
    isValidWorkerName isLetterOrNumber name = true := by
  obtain ⟨base, hbase, hname⟩ := workerName_cases h
  have hvalid : isValidWorkerName isLetterOrNumber base = true := by
    rcases hbase with hvalid | ⟨s, rfl⟩
    · exact hvalid
    · exact isValidWorkerName_sanitizeName hascii s
  rcases hname with ⟨rfl, -⟩ | rfl
  · exact hvalid
  · obtain ⟨k, -, hfree, -⟩ := freeName_first taken base
    rw [hfree]
    exact isValidWorkerName_candidate hascii hvalid (2 + k)

end Ascii

/-! ## Names that a script chose -/

/-- A name that a script chose is refused if it is not valid or not free. -/
theorem workerName_of_given {taken : List QString} {name : QString} {category : Option QString}
    {own : Bytes} (hname : name ≠ []) :
    (∃ e, workerName isLetterOrNumber taken ⟨some name, false, category⟩ own = .error e) ↔
      isValidWorkerName isLetterOrNumber name = false ∨ name ∈ taken := by
  have hempty : name.isEmpty = false := List.isEmpty_eq_false_iff.mpr hname
  simp only [workerName, Option.getD_some, hempty, Bool.or_false, Bool.false_eq_true, if_false,
    Bool.not_false, Bool.true_and, Bool.not_eq_true']
  cases hvalid : isValidWorkerName isLetterOrNumber name with
  | false => simp
  | true =>
    by_cases htaken : name ∈ taken
    · simp [htaken]
    · simp [htaken]

/-! ## Runs -/

/-- The names in use. -/
def State.names (s : State) : List QString := s.workers.map Prod.snd

/-- The names in use are valid, and no two workers have the same. -/
structure LiveNames (isLetterOrNumber : UInt16 → Bool) (s : State) : Prop where
  distinct : s.names.Nodup
  valid : ∀ name ∈ s.names, isValidWorkerName isLetterOrNumber name = true

/-- What a step does to the names in use. -/
theorem names_of_step {s t : State} {a : Action}
    (hstep : step isLetterOrNumber s a = some t) :
    (∃ conf category name, workerName isLetterOrNumber s.names conf category = .ok name ∧
      t.names = s.names ++ [name]) ∨ t.names.Sublist s.names := by
  cases a with
  | construct conf category =>
    simp only [step] at hstep
    cases hname : workerName isLetterOrNumber (s.workers.map Prod.snd) conf category with
    | ok name =>
      rw [hname] at hstep
      obtain rfl := Option.some.inj hstep
      refine Or.inl ⟨conf, category, name, hname, ?_⟩
      simp [State.names]
    | error e =>
      rw [hname] at hstep
      obtain rfl := Option.some.inj hstep
      exact Or.inr (List.Sublist.refl _)
  | destroyed w =>
    obtain ⟨wname, -, rfl⟩ := Option.map_eq_some_iff.mp hstep
    exact Or.inr (List.filter_sublist.map Prod.snd)
  | WorkerCreated w =>
    obtain ⟨wname, -, rfl⟩ := Option.map_eq_some_iff.mp hstep
    exact Or.inr (List.Sublist.refl _)
  | Advertise w fields =>
    obtain ⟨wname, -, rfl⟩ := Option.map_eq_some_iff.mp hstep
    exact Or.inr (List.Sublist.refl _)
  | message w msg =>
    obtain ⟨wname, -, rfl⟩ := Option.map_eq_some_iff.mp hstep
    exact Or.inr (List.Sublist.refl _)
  | event w msg =>
    obtain ⟨wname, -, rfl⟩ := Option.map_eq_some_iff.mp hstep
    exact Or.inr (List.Sublist.refl _)
  | Subscribe key =>
    obtain rfl := Option.some.inj hstep
    exact Or.inr (List.Sublist.refl _)

/-- A new name is valid and is not in use; the others stay or go. -/
theorem LiveNames.step
    (hascii : ∀ c, asciiLetterOrNumber c = true → isLetterOrNumber c = true) {s t : State}
    {a : Action} (h : LiveNames isLetterOrNumber s)
    (hstep : Tags.step isLetterOrNumber s a = some t) : LiveNames isLetterOrNumber t := by
  rcases names_of_step hstep with ⟨conf, category, name, hname, hnames⟩ | hsub
  · have hfresh : name ∉ s.names := workerName_notMem hname
    constructor
    · rw [hnames]
      refine List.nodup_append.mpr ⟨h.distinct, List.nodup_singleton name, ?_⟩
      intro other hother new hnew heq
      rw [List.mem_singleton.mp hnew] at heq
      exact hfresh (heq ▸ hother)
    · intro other hother
      rw [hnames, List.mem_append, List.mem_singleton] at hother
      rcases hother with hother | rfl
      · exact h.valid other hother
      · exact isValidWorkerName_workerName hascii hname
  · exact ⟨h.distinct.sublist hsub, fun name hname => h.valid name (hsub.subset hname)⟩

/-- Whatever workers are created and destroyed, the names in use are valid and distinct; a name that
a script chose is refused exactly if it is not valid or in use, and then nothing is added; and the
search for a number ends. -/
theorem liveNames_of_run
    (hascii : ∀ c, asciiLetterOrNumber c = true → isLetterOrNumber c = true)
    {actions : List Action} {s : State}
    (hrun : run (step isLetterOrNumber) start actions = some s) :
    LiveNames isLetterOrNumber s ∧
    (∀ (name : QString) (category : Option QString) (own : Bytes), name ≠ [] →
      ((∃ e, workerName isLetterOrNumber s.names ⟨some name, false, category⟩ own = .error e) ↔
        isValidWorkerName isLetterOrNumber name = false ∨ name ∈ s.names)) ∧
    (∀ conf category e, workerName isLetterOrNumber s.names conf category = .error e →
      step isLetterOrNumber s (.construct conf category) = some s) ∧
    ∀ name, ∃ k ≤ s.names.length, freeName s.names name = candidate name (2 + k) ∧
      candidate name (2 + k) ∉ s.names ∧ ∀ j < k, candidate name (2 + j) ∈ s.names := by
  refine ⟨?_, fun name category own hname => workerName_of_given hname, ?_,
    fun name => freeName_first s.names name⟩
  · refine run_invariant_of_step (LiveNames.step hascii) ?_ hrun
    exact ⟨List.nodup_nil, fun name hname => absurd hname List.not_mem_nil⟩
  · intro conf category e he
    have he : workerName isLetterOrNumber (s.workers.map Prod.snd) conf category = .error e := he
    simp only [step, he]

/-- Three workers of one category, where a script has given the name of the second by number. -/
def sameCategory : List Action :=
  [named "test.2", .construct ⟨none, false, none⟩ (toStdString (literal "test")),
    .construct ⟨none, false, none⟩ (toStdString (literal "test")), named "test.2", .destroyed 1]

/-- One worker of three is gone: the others have the names that they were given. -/
theorem liveNames_of_sameCategory :
    ∃ s, run (step asciiLetterOrNumber) start sameCategory = some s ∧
      s.names = [literal "test.2", literal "test.3"] ∧ LiveNames asciiLetterOrNumber s := by
  have hrun : ∃ s, run (step asciiLetterOrNumber) start sameCategory = some s ∧
      s.names = [literal "test.2", literal "test.3"] := ⟨_, rfl, by decide⟩
  obtain ⟨s, hs, hnames⟩ := hrun
  exact ⟨s, hs, hnames, (liveNames_of_run (fun _ h => h) hs).1⟩

/-- The empty name is not valid, but a worker that is given it is named after its category. -/
theorem empty_not_refused : ¬ ∀ (actions : List Action) (s : State),
    run (step asciiLetterOrNumber) start actions = some s →
    ∀ (name : QString) (category : Option QString) (own : Bytes),
      (∃ e, workerName asciiLetterOrNumber s.names ⟨some name, false, category⟩ own = .error e) ↔
        isValidWorkerName asciiLetterOrNumber name = false ∨ name ∈ s.names := by
  intro hall
  obtain ⟨e, he⟩ := (hall [] start rfl [] none (toStdString (literal "test"))).mpr
    (Or.inl (by decide))
  have hok : workerName asciiLetterOrNumber start.names ⟨some [], false, none⟩
      (toStdString (literal "test")) = .ok (literal "test") := by decide
  rw [hok] at he
  cases he

end Radapter.Tags
