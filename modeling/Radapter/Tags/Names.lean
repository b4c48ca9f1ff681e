import Radapter.Text
import Mathlib.Data.List.Perm.Subperm
import Mathlib.Data.List.DropRight
import Mathlib.Data.List.Nodup

/-!
# Names of workers

A worker is given its name when it is constructed. A name that a script chose is taken as it is or
refused; any other is made of the category, or of a file name, by replacing what no name may
contain, and by a number if the name is taken. No name contains the separator of tag names.
-/

namespace Radapter.Tags

/-- `QStringLiteral` of an ASCII text. -/
def literal (text : String) : QString := text.toList.map (fun c => UInt16.ofNat c.toNat)

def underscore : UInt16 := 95

def dot : UInt16 := 46

/-- The separator `':'` of tag names. -/
def separator : UInt16 := 58

/-- `WorkerConfig`. -/
structure WorkerConfig where
  name : Option QString
  generated_name : Bool
  category : Option QString

/-- `_Category`: the one of the configuration, if there is any, else the one of the class. -/
def WorkerConfig.categoryOf (conf : WorkerConfig) (category : Bytes) : Bytes :=
  match conf.category with
  | some c => if c.isEmpty then category else toStdString c
  | none => category

/-- `QString::number`. -/
def number (n : ℕ) : QString := (decimal n).map (fun b => UInt16.ofNat b.toNat)

/-- A name with a number. -/
def candidate (name : QString) (n : ℕ) : QString := name ++ [dot] ++ number n

/-- The loop over the candidates from a number on. -/
def freeFrom (taken : List QString) (name : QString) : ℕ → ℕ → QString
  | 0, n => candidate name n
  | fuel + 1, n =>
      if candidate name n ∈ taken then freeFrom taken name fuel (n + 1) else candidate name n

/-- The first candidate that is not taken. There are as many rounds as names are taken. -/
def freeName (taken : List QString) (name : QString) : QString :=
  freeFrom taken name taken.length 2

section Characters

-- `QChar::isLetterOrNumber`, from the tables of Qt
variable (isLetterOrNumber : UInt16 → Bool)

/-- What a name may contain. -/
def isNameUnit (c : UInt16) : Bool := isLetterOrNumber c || c == underscore || c == dot

/-- One round of the loop of `sanitizeName`. -/
def sanitizeUnit (out : QString) (c : UInt16) : QString :=
  if isNameUnit isLetterOrNumber c then out ++ [c]
  else if !out.isEmpty && out.getLast? != some underscore then out ++ [underscore]
  else out

def sanitizeName (s : QString) : QString :=
  let out := (s.foldl (sanitizeUnit isLetterOrNumber) []).rdropWhile (· == underscore)
  if out.isEmpty then literal "worker" else out

def isValidWorkerName (name : QString) : Bool :=
  !name.isEmpty && name.all (isNameUnit isLetterOrNumber)

/-- The constructor up to `setObjectName`: the name of the worker, or the error it raises and what
the error is formatted with. -/
def workerName (taken : List QString) (conf : WorkerConfig) (category : Bytes) :
    Except (String × QString) QString :=
  let given := conf.name.getD []
  let autoNamed := conf.generated_name || given.isEmpty
  let base := if given.isEmpty then fromUtf8 (conf.categoryOf category) else given
  let name := if autoNamed then sanitizeName isLetterOrNumber base else base
  if !autoNamed && !isValidWorkerName isLetterOrNumber name then
    .error ("Worker name '{}' must be alphanumeric, dots, or underscores only", name)
  else if name ∈ taken then
    if autoNamed then .ok (freeName taken name)
    else .error ("Worker name '{}' is already taken", name)
  else .ok name

end Characters

/-! ## The search ends -/

/-- Different numbers are written differently. -/
theorem number_injective : Function.Injective number := by
  intro m n h
  apply decimal_injective
  refine List.map_injective_iff.mpr ?_ h
  intro a b hab
  have hnat := congrArg UInt16.toNat hab
  rw [UInt16.toNat_ofNat', UInt16.toNat_ofNat'] at hnat
  have ha := a.toNat_lt
  have hb := b.toNat_lt
  apply UInt8.toNat_inj.mp
  omega

/-- So are the candidates for a name. -/
theorem candidate_injective (name : QString) : Function.Injective (candidate name) := by
  intro m n h
  exact number_injective (List.append_cancel_left h)

/-- The loop gives a name that is taken only when all candidates are. -/
private theorem taken_of_freeFrom {taken : List QString} {name : QString} {fuel n : ℕ}
    (h : freeFrom taken name fuel n ∈ taken) : ∀ i ≤ fuel, candidate name (n + i) ∈ taken := by
  induction fuel generalizing n with
  | zero =>
    intro i hi
    obtain rfl : i = 0 := by omega
    exact h
  | succ fuel ih =>
    by_cases hfirst : candidate name n ∈ taken
    · rw [freeFrom, if_pos hfirst] at h
      intro i hi
      cases i with
      | zero => exact hfirst
      | succ i =>
        rw [show n + (i + 1) = n + 1 + i by omega]
        exact ih h i (by omega)
    · rw [freeFrom, if_neg hfirst] at h
      exact absurd h hfirst

/-- There are more candidates than names that are taken. -/
theorem freeName_notMem (taken : List QString) (name : QString) :
    freeName taken name ∉ taken := by
  intro h
  have hall := taken_of_freeFrom h
  have hdistinct : ((List.range (taken.length + 1)).map
      (fun i => candidate name (2 + i))).Nodup := by
    apply List.Nodup.map _ List.nodup_range
    intro i j hij
    have hnumbers := candidate_injective name hij
    omega
  have hsub : (List.range (taken.length + 1)).map (fun i => candidate name (2 + i)) ⊆ taken := by
    intro c hc
    obtain ⟨i, hi, rfl⟩ := List.mem_map.mp hc
    rw [List.mem_range] at hi
    exact hall i (by omega)
  have hlength := (List.subperm_of_subset hdistinct hsub).length_le
  rw [List.length_map, List.length_range] at hlength
  omega

/-! ## What the constructor decides -/

/-- A name that the constructor gives is a valid one or a sanitized one, with a number if that is
taken. -/
theorem workerName_cases {isLetterOrNumber : UInt16 → Bool} {taken : List QString}
    {conf : WorkerConfig} {category : Bytes} {name : QString}
    (h : workerName isLetterOrNumber taken conf category = .ok name) :
    ∃ base, (isValidWorkerName isLetterOrNumber base = true ∨
        ∃ s, base = sanitizeName isLetterOrNumber s) ∧
      (name = base ∧ base ∉ taken ∨ name = freeName taken base) := by
  simp only [workerName] at h
  generalize (if (conf.name.getD []).isEmpty then fromUtf8 (conf.categoryOf category)
    else conf.name.getD []) = base at h
  cases hauto : conf.generated_name || (conf.name.getD []).isEmpty with
  | true =>
    simp only [hauto, if_true, Bool.not_true, Bool.false_and, Bool.false_eq_true, if_false] at h
    refine ⟨sanitizeName isLetterOrNumber base, Or.inr ⟨base, rfl⟩, ?_⟩
    split_ifs at h with htaken
    · exact Or.inr (Except.ok.inj h).symm
    · exact Or.inl ⟨(Except.ok.inj h).symm, htaken⟩
  | false =>
    simp only [hauto, Bool.false_eq_true, if_false, Bool.not_false, Bool.true_and] at h
    split_ifs at h with hinvalid htaken
    refine ⟨base, Or.inl ?_, Or.inl ⟨(Except.ok.inj h).symm, htaken⟩⟩
    simpa using hinvalid

/-- The name of a new worker is not taken. -/
theorem workerName_notMem {isLetterOrNumber : UInt16 → Bool} {taken : List QString}
    {conf : WorkerConfig} {category : Bytes} {name : QString}
    (h : workerName isLetterOrNumber taken conf category = .ok name) : name ∉ taken := by
  obtain ⟨base, -, ⟨rfl, hfree⟩ | rfl⟩ := workerName_cases h
  · exact hfree
  · exact freeName_notMem taken base

/-! ## The separator -/

/-- A number brings no separator. -/
theorem separator_notMem_candidate {name : QString} (h : separator ∉ name) (n : ℕ) :
    separator ∉ candidate name n := by
  intro hmem
  rw [candidate, List.append_assoc, List.mem_append] at hmem
  rcases hmem with hmem | hmem
  · exact h hmem
  rcases List.mem_append.mp hmem with hmem | hmem
  · exact absurd (List.mem_singleton.mp hmem) (by decide)
  · obtain ⟨b, hb, hsep⟩ := List.mem_map.mp hmem
    have hdigit := decimal_digit hb
    have hnat := congrArg UInt16.toNat hsep
    rw [UInt16.toNat_ofNat', Nat.mod_eq_of_lt (by omega)] at hnat
    have hsep58 : separator.toNat = 58 := rfl
    omega

/-- Nor does the first name that is free. -/
theorem separator_notMem_freeName {name : QString} (h : separator ∉ name) (taken : List QString) :
    separator ∉ freeName taken name := by
  have hall : ∀ fuel n, separator ∉ freeFrom taken name fuel n := by
    intro fuel
    induction fuel with
    | zero => exact separator_notMem_candidate h
    | succ fuel ih =>
      intro n
      rw [freeFrom]
      split_ifs with htaken
      · exact ih (n + 1)
      · exact separator_notMem_candidate h n
  exact hall taken.length 2

variable {isLetterOrNumber : UInt16 → Bool}

/-- The separator is not allowed in a name. -/
theorem isNameUnit_separator (h : isLetterOrNumber separator = false) :
    isNameUnit isLetterOrNumber separator = false := by
  rw [isNameUnit, h]
  decide

/-- Sanitizing replaces it. -/
private theorem separator_notMem_sanitizeUnit (h : isLetterOrNumber separator = false)
    {out : QString} (hout : separator ∉ out) (c : UInt16) :
    separator ∉ sanitizeUnit isLetterOrNumber out c := by
  rw [sanitizeUnit]
  split_ifs with hunit hlast
  · intro hmem
    rcases List.mem_append.mp hmem with hmem | hmem
    · exact hout hmem
    · rw [← List.mem_singleton.mp hmem, isNameUnit_separator h] at hunit
      cases hunit
  · intro hmem
    rcases List.mem_append.mp hmem with hmem | hmem
    · exact hout hmem
    · exact absurd (List.mem_singleton.mp hmem) (by decide)
  · exact hout

/-- A sanitized name is without it. -/
theorem separator_notMem_sanitizeName (h : isLetterOrNumber separator = false) (s : QString) :
    separator ∉ sanitizeName isLetterOrNumber s := by
  have hloop : separator ∉ s.foldl (sanitizeUnit isLetterOrNumber) [] := by
    induction s using List.reverseRecOn with
    | nil => exact List.not_mem_nil
    | append_singleton s c ih =>
      rw [List.foldl_concat]
      exact separator_notMem_sanitizeUnit h ih c
  rw [sanitizeName]
  split_ifs
  · decide
  · intro hmem
    exact hloop ((List.rdropWhile_prefix _ _).subset hmem)

/-- So is a valid one. -/
theorem separator_notMem_of_isValid (h : isLetterOrNumber separator = false) {name : QString}
    (hvalid : isValidWorkerName isLetterOrNumber name = true) : separator ∉ name := by
  intro hmem
  rw [isValidWorkerName, Bool.and_eq_true, List.all_eq_true] at hvalid
  have hunit := hvalid.2 separator hmem
  rw [isNameUnit_separator h] at hunit
  cases hunit

/-- No worker has a name with the separator in it. -/
theorem separator_notMem_workerName (h : isLetterOrNumber separator = false)
    {taken : List QString} {conf : WorkerConfig} {category : Bytes} {name : QString}
    (hname : workerName isLetterOrNumber taken conf category = .ok name) : separator ∉ name := by
  obtain ⟨base, hbase, hfrom⟩ := workerName_cases hname
  have hclear : separator ∉ base := by
    rcases hbase with hvalid | ⟨s, rfl⟩
    · exact separator_notMem_of_isValid h hvalid
    · exact separator_notMem_sanitizeName h s
  rcases hfrom with ⟨rfl, -⟩ | rfl
  · exact hclear
  · exact separator_notMem_freeName hclear taken

end Radapter.Tags
