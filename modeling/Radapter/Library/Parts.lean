import Radapter.Library.Results

/-!
# Records as families of parts

A part of a record is read and written on its own. A family of parts that stand apart is updated
part after part: every update sees the part as it was, and the record that comes out has the new
value of each.
-/

namespace Library

universe u

/-- Reading and writing one part of a record. -/
structure Access (S T : Type u) where
  get : S → T
  set : T → S → S
  get_set : ∀ t s, get (set t s) = t
  set_get : ∀ s, set (get s) s = s

attribute [simp] Access.get_set Access.set_get

/-- The whole record as a part of itself. -/
def Access.whole (S : Type u) : Access S S where
  get s := s
  set t _ := t
  get_set _ _ := rfl
  set_get _ := rfl

/-- A part of a part. -/
def Access.comp {S T U : Type u} (outer : Access S T) (inner : Access T U) : Access S U where
  get s := inner.get (outer.get s)
  set u s := outer.set (inner.set u (outer.get s)) s
  get_set u s := by rw [outer.get_set, inner.get_set]
  set_get s := by rw [inner.set_get, outer.set_get]

/-- Writing one part leaves the other as it was. -/
def Access.Apart {S T U : Type u} (a : Access S T) (b : Access S U) : Prop :=
  (∀ t s, b.get (a.set t s) = b.get s) ∧ ∀ u s, a.get (b.set u s) = a.get s

/-- To be apart is mutual. -/
theorem Access.Apart.symm {S T U : Type u} {a : Access S T} {b : Access S U} (h : a.Apart b) :
    b.Apart a :=
  ⟨h.2, h.1⟩

/-- A part of a record together with what is known about its type. -/
structure Part (F : Type u → Type u) (S : Type u) where
  Carrier : Type u
  access : Access S Carrier
  info : F Carrier

namespace Part

variable {F : Type u → Type u} {S : Type u} {ε : Type u}

/-- Two parts that stand apart. -/
def Apart (p q : Part F S) : Prop := p.access.Apart q.access

/-- A part that stands apart from all of a family. -/
def ApartFrom (p : Part F S) : List (Part F S) → Prop
  | [] => True
  | q :: rest => p.Apart q ∧ p.ApartFrom rest

/-- A family of parts that stand apart, one by one. -/
def AllApart : List (Part F S) → Prop
  | [] => True
  | p :: rest => p.ApartFrom rest ∧ AllApart rest

/-- A part apart from a family is apart from each of it. -/
theorem ApartFrom.forall {p : Part F S} {parts : List (Part F S)} (h : p.ApartFrom parts) :
    ∀ q ∈ parts, p.Apart q := by
  induction parts with
  | nil => exact fun q hq => absurd hq List.not_mem_nil
  | cons first rest ih => exact List.forall_mem_cons.mpr ⟨h.1, ih h.2⟩

/-- The parts of a family that stands apart are so in pairs. -/
theorem AllApart.pairwise {parts : List (Part F S)} (h : AllApart parts) :
    parts.Pairwise Apart := by
  induction parts with
  | nil => exact List.Pairwise.nil
  | cons first rest ih => exact List.pairwise_cons.mpr ⟨h.1.forall, ih h.2⟩

/-- Update the parts in order. -/
def visit (f : (p : Part F S) → p.Carrier → Except ε p.Carrier) : List (Part F S) → S → Except ε S
  | [], s => .ok s
  | p :: rest, s => do
      let value ← f p (p.access.get s)
      visit f rest (p.access.set value s)

variable {f : (p : Part F S) → p.Carrier → Except ε p.Carrier} {parts : List (Part F S)} {s s' : S}

/-- A part that stands apart from all that are updated stays. -/
theorem get_visit_of_apart {q : Part F S} (hq : ∀ p ∈ parts, p.Apart q)
    (hok : visit f parts s = .ok s') : q.access.get s' = q.access.get s := by
  induction parts generalizing s with
  | nil =>
    cases hok
    rfl
  | cons p rest ih =>
    obtain ⟨hp, hrest⟩ := List.forall_mem_cons.mp hq
    obtain ⟨value, -, hok⟩ := bind_eq_ok.mp hok
    rw [ih hrest hok, hp.1]

/-- Every part of the result is the update of the part as it was. -/
theorem visit_get (hparts : parts.Pairwise Apart) (hok : visit f parts s = .ok s')
    {p : Part F S} (hp : p ∈ parts) : f p (p.access.get s) = .ok (p.access.get s') := by
  induction parts generalizing s with
  | nil => cases hp
  | cons q rest ih =>
    obtain ⟨hfirst, hrest⟩ := List.pairwise_cons.mp hparts
    obtain ⟨value, hvalue, hok⟩ := bind_eq_ok.mp hok
    rcases List.mem_cons.mp hp with rfl | hmem
    · have hkept := get_visit_of_apart (q := p) (fun r hr => (hfirst r hr).symm) hok
      rw [hvalue, hkept, p.access.get_set]
    · rw [← ih hrest hok hmem, (hfirst p hmem).1]

/-- The parts are updated if the update of each goes through. -/
theorem exists_visit (hparts : parts.Pairwise Apart)
    (hall : ∀ p ∈ parts, ∃ value, f p (p.access.get s) = .ok value) :
    ∃ s', visit f parts s = .ok s' := by
  induction parts generalizing s with
  | nil => exact ⟨s, rfl⟩
  | cons q rest ih =>
    obtain ⟨hfirst, hrest⟩ := List.pairwise_cons.mp hparts
    obtain ⟨⟨value, hvalue⟩, htail⟩ := List.forall_mem_cons.mp hall
    have hlater : ∀ p ∈ rest, ∃ v, f p (p.access.get (q.access.set value s)) = .ok v := by
      intro p hp
      rw [(hfirst p hp).1]
      exact htail p hp
    obtain ⟨s', hs'⟩ := ih hrest hlater
    exact ⟨s', bind_eq_ok.mpr ⟨value, hvalue, hs'⟩⟩

/-- Updates that agree on every part as it was agree. -/
theorem visit_congr {g : (p : Part F S) → p.Carrier → Except ε p.Carrier}
    (hparts : parts.Pairwise Apart)
    (hall : ∀ p ∈ parts, f p (p.access.get s) = g p (p.access.get s)) :
    visit f parts s = visit g parts s := by
  induction parts generalizing s with
  | nil => rfl
  | cons q rest ih =>
    obtain ⟨hfirst, hrest⟩ := List.pairwise_cons.mp hparts
    obtain ⟨hq, htail⟩ := List.forall_mem_cons.mp hall
    rw [visit, visit, hq]
    refine congrArg _ (funext fun value => ih hrest fun p hp => ?_)
    rw [(hfirst p hp).1]
    exact htail p hp

/-- Updates that change no part change nothing. -/
theorem visit_of_fixed (hall : ∀ p ∈ parts, f p (p.access.get s) = .ok (p.access.get s)) :
    visit f parts s = .ok s := by
  induction parts with
  | nil => rfl
  | cons q rest ih =>
    obtain ⟨hfirst, htail⟩ := List.forall_mem_cons.mp hall
    refine bind_eq_ok.mpr ⟨_, hfirst, ?_⟩
    rw [q.access.set_get]
    exact ih htail

/-- What stops the updates is the update of one part as it was, and the parts before it go
through. -/
theorem of_visit_error (hparts : parts.Pairwise Apart) {e : ε} (herr : visit f parts s = .error e) :
    ∃ front p back, parts = front ++ p :: back ∧ f p (p.access.get s) = .error e ∧
      ∀ q ∈ front, ∃ value, f q (q.access.get s) = .ok value := by
  induction parts generalizing s with
  | nil => cases herr
  | cons q rest ih =>
    obtain ⟨hfirst, hrest⟩ := List.pairwise_cons.mp hparts
    cases hvalue : f q (q.access.get s) with
    | error e' =>
      refine ⟨[], q, rest, rfl, ?_, fun r hr => absurd hr List.not_mem_nil⟩
      rw [visit, hvalue] at herr
      rw [hvalue, show e' = e from Except.error.inj herr]
    | ok value =>
      rw [visit, hvalue] at herr
      obtain ⟨front, p, back, rfl, hp, hfront⟩ := ih hrest herr
      rw [(hfirst p (by simp)).1] at hp
      refine ⟨q :: front, p, back, rfl, hp, List.forall_mem_cons.mpr ⟨⟨value, hvalue⟩, ?_⟩⟩
      intro r hr
      obtain ⟨v, hv⟩ := hfront r hr
      rw [(hfirst r (by simp [hr])).1] at hv
      exact ⟨v, hv⟩

end Part

end Library
