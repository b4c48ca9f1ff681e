import Radapter.Library.Slots
import Radapter.Registry.Handles

/-!
# Who owns a reference

Every place that keeps a reference is an owner, and what it holds is a Lua value or nothing. The
operations on references keep the owners apart: each has the effect on what the owners hold that it
would have if they were plain variables.
-/

namespace Radapter.Registry

open Library

/-- The places that keep a reference. -/
inductive Owner where
  | value (i : ℕ)
  | timer (t : ℕ)
  | callback (t : ℕ)
  | worker (w : ℕ)
  | logHandler
  deriving DecidableEq

/-- The key of a reference, if it is not one of nobody's. -/
def slotOf : ℤ → Option ℕ
  | .ofNat key => some key
  | .negSucc _ => none

/-- The key that a `LuaValue` owns. -/
def LuaValue.slot (v : LuaValue) : Option ℕ := if v.L then slotOf v.ref else none

/-- The keys of the owners. -/
def State.slot (s : State) : Owner → Option ℕ
  | .value i => (s.values i).slot
  | .timer t => (s.timers t).bind fun timer => slotOf timer.objectName
  | .callback t => (s.timers t).bind fun timer => timer.f.slot
  | .worker w => (s.workers w).bind slotOf
  | .logHandler => slotOf s.luaLogHandler

/-- A value that is not valid owns nothing. -/
theorem LuaValue.slot_of_not_isValid {v : LuaValue} (hv : v.isValid = false) : v.slot = none := by
  rw [LuaValue.slot]
  split_ifs with hL
  · rw [LuaValue.isValid, hL, Bool.true_and, decide_eq_false_iff_not, not_not] at hv
    rw [hv]
    rfl
  · rfl

/-- A value that is valid owns the key of its reference. -/
theorem LuaValue.slot_of_isValid {v : LuaValue} (hv : v.isValid = true) :
    v.slot = slotOf v.ref := by
  rw [LuaValue.isValid, Bool.and_eq_true] at hv
  rw [LuaValue.slot, if_pos hv.1]

/-- What is found under a key. -/
def Table.find (t : Table) (key : ℕ) : Option Obj := t.cells.lookup key

/-- The registry serves its owners, who hold what is given: nothing has been misused. -/
structure Serves (t : Table) (slot : Owner → Option ℕ) (held : Owner → Option Obj) : Prop where
  safe : t.misused = false
  owned : Owned t.find slot
  found_eq : found t.find slot = held

namespace Serves

variable {t t' : Table} {slot : Owner → Option ℕ} {held : Owner → Option Obj} {i j : Owner}
  {ref : ℤ} {x : Option Obj} {key : ℕ}

/-- An owner without a key holds nothing. -/
theorem held_of_none (h : Serves t slot held) (hi : slot i = none) : held i = none := by
  rw [← h.found_eq, found_of_none hi]

/-- An owner without a key holds nothing, and is left so. -/
theorem idle (h : Serves t slot held) (hi : slot i = none) :
    Serves t (Function.update slot i none) (Function.update held i none) := by
  have hslot : Function.update slot i none = slot := by
    rw [← hi, Function.update_eq_self]
  have hheld : Function.update held i none = held := by
    rw [← h.held_of_none hi, Function.update_eq_self]
  rwa [hslot, hheld]

/-- A reference is made for an owner that has none. -/
theorem luaL_ref (h : Serves t slot held) (hi : slot i = none)
    (href : t.luaL_ref x key = some (t', ref)) :
    Serves t' (Function.update slot i (slotOf ref)) (Function.update held i x) := by
  cases x with
  | none =>
    obtain ⟨rfl, rfl⟩ := Prod.mk.inj (Option.some.inj href)
    exact h.idle hi
  | some x =>
    obtain ⟨hfree, hnew⟩ := of_guarded href
    obtain ⟨rfl, rfl⟩ := Prod.mk.inj hnew
    have hfind : ({ t with cells := Assoc.put key x t.cells } : Table).find =
        Function.update t.find key (some x) := by
      funext k
      by_cases hk : k = key
      · rw [hk, Function.update_self]
        exact Assoc.lookup_put_self key x t.cells
      · rw [Function.update_of_ne hk]
        exact Assoc.lookup_put_ne hk x t.cells
    refine ⟨h.safe, ?_, ?_⟩
    · rw [hfind]
      exact h.owned.acquire hi hfree x
    · rw [hfind, ← h.found_eq]
      exact h.owned.found_acquire hfree x

/-- An owner gives up its reference. -/
theorem luaL_unref (h : Serves t slot held) (hi : slot i = slotOf ref) :
    Serves (t.luaL_unref ref) (Function.update slot i none) (Function.update held i none) := by
  cases ref with
  | negSucc n => exact h.idle hi
  | ofNat key =>
    have hused : t.cells.lookup key ≠ none := by
      intro hnone
      have htaken := h.owned.taken hi
      rw [Table.find, hnone] at htaken
      cases htaken
    have hfind : ({ t with cells := Assoc.erase key t.cells } : Table).find =
        Function.update t.find key none := by
      funext k
      by_cases hk : k = key
      · rw [hk, Function.update_self]
        exact Assoc.lookup_erase_self key t.cells
      · rw [Function.update_of_ne hk]
        exact Assoc.lookup_erase_ne hk t.cells
    rw [Table.luaL_unref, if_neg hused]
    refine ⟨h.safe, ?_, ?_⟩
    · rw [hfind]
      exact h.owned.release hi
    · rw [hfind, ← h.found_eq]
      exact h.owned.found_release hi

/-- What an owner's reference stands for. -/
theorem lua_rawgeti (h : Serves t slot held) (hi : slot i = slotOf ref) :
    t.lua_rawgeti ref = held i := by
  rw [← h.found_eq, found, hi]
  cases ref with
  | negSucc n => rfl
  | ofNat key => rfl

/-- An owner passes on its reference. -/
theorem pass (h : Serves t slot held) (hij : i ≠ j) (hj : slot j = none) :
    Serves t (Function.update (Function.update slot i none) j (slot i))
      (Function.update (Function.update held i none) j (held i)) := by
  refine ⟨h.safe, h.owned.pass hij hj, ?_⟩
  rw [found_pass, h.found_eq]

/-! ## The operations of a value -/

/-- What a value stands for. -/
theorem lua_rawgeti_value {s : State} (h : Serves t s.slot held) {i : ℕ} {x : Obj}
    (hx : held (.value i) = some x) : t.lua_rawgeti (s.values i).ref = some x := by
  have hslot : s.slot (.value i) = slotOf (s.values i).ref := by
    rw [State.slot, LuaValue.slot]
    split_ifs with hL
    · rfl
    · have hnone : s.slot (.value i) = none := if_neg hL
      rw [h.held_of_none hnone] at hx
      cases hx
  rw [h.lua_rawgeti hslot, hx]

/-- The constructors from the stack. -/
theorem ofStack (h : Serves t slot held) (hi : slot i = none) {v : LuaValue}
    (hv : LuaValue.ofStack t x key = some (t', v)) :
    Serves t' (Function.update slot i v.slot) (Function.update held i x) := by
  obtain ⟨⟨u, ref⟩, href, hpair⟩ := Option.bind_eq_some_iff.mp hv
  obtain ⟨rfl, rfl⟩ := Prod.mk.inj (Option.some.inj hpair)
  exact h.luaL_ref hi href

/-- The copy constructor. -/
theorem copy (h : Serves t slot held) (hi : slot i = none) {o v : LuaValue} (hj : slot j = o.slot)
    (hv : LuaValue.copy t o key = some (t', v)) :
    Serves t' (Function.update slot i v.slot) (Function.update held i (held j)) := by
  rw [LuaValue.copy] at hv
  split_ifs at hv with hvalid
  · rw [h.lua_rawgeti (hj.trans (LuaValue.slot_of_isValid hvalid))] at hv
    exact h.ofStack hi hv
  · obtain ⟨rfl, rfl⟩ := Prod.mk.inj (Option.some.inj hv)
    rw [LuaValue.slot_of_not_isValid (Bool.eq_false_iff.mpr hvalid)] at hj
    have hnone : ({ L := o.L, ref := LUA_NOREF } : LuaValue).slot = none :=
      LuaValue.slot_of_not_isValid (by simp [LuaValue.isValid])
    rw [hnone, h.held_of_none hj]
    exact h.idle hi

/-- The destructor. -/
theorem destroy (h : Serves t slot held) {v : LuaValue} (hi : slot i = v.slot) :
    Serves (v.destroy t) (Function.update slot i none) (Function.update held i none) := by
  rw [LuaValue.destroy]
  rw [LuaValue.slot] at hi
  split_ifs at hi ⊢ with hL
  · exact h.luaL_unref hi
  · exact h.idle hi

/-- The copy assignment, which gives up the old reference first. -/
theorem assign (h : Serves t slot held) {v o w : LuaValue} (hij : i ≠ j) (hi : slot i = v.slot)
    (hj : slot j = o.slot) (hw : LuaValue.assign t v o key = some (t', w)) :
    Serves t' (Function.update slot i w.slot) (Function.update held i (held j)) := by
  have hgone := h.destroy hi
  have hother : Function.update slot i none j = o.slot := by
    rw [Function.update_of_ne hij.symm, hj]
  have hsame : held j = Function.update held i none j := by rw [Function.update_of_ne hij.symm]
  rw [LuaValue.assign] at hw
  split_ifs at hw with hvalid
  · rw [hgone.lua_rawgeti (hother.trans (LuaValue.slot_of_isValid hvalid)), ← hsame] at hw
    have hnew := hgone.ofStack (Function.update_self ..) hw
    rwa [Function.update_idem, Function.update_idem] at hnew
  · obtain ⟨rfl, rfl⟩ := Prod.mk.inj (Option.some.inj hw)
    rw [LuaValue.slot_of_not_isValid (Bool.eq_false_iff.mpr hvalid)] at hj
    rw [h.held_of_none hj]
    exact hgone

end Serves

/-! ## The owners after an update -/

section Updates

variable (s : State)

/-- A value that is replaced has the key of the new one. -/
@[simp]
theorem slot_setValue (i : ℕ) (v : LuaValue) :
    (s.setValue i v).slot = Function.update s.slot (.value i) v.slot := by
  funext o
  cases o with
  | value j =>
    by_cases hj : j = i
    · rw [hj, Function.update_self]
      simp [State.slot, State.setValue]
    · have hne : Owner.value j ≠ .value i := fun h => hj (Owner.value.inj h)
      rw [Function.update_of_ne hne]
      simp [State.slot, State.setValue, hj]
  | timer t => rfl
  | callback t => rfl
  | worker w => rfl
  | logHandler => rfl

/-- A timer owns two keys, that of its object and that of its function. -/
@[simp]
theorem slot_setTimer (t : ℕ) (timer : Option Timer) :
    (s.setTimer t timer).slot = Function.update (Function.update s.slot (.timer t)
      (timer.bind fun timer => slotOf timer.objectName)) (.callback t)
      (timer.bind fun timer => timer.f.slot) := by
  funext o
  cases o with
  | value i => rfl
  | timer t' =>
    by_cases ht : t' = t
    · rw [ht, Function.update_of_ne (by simp), Function.update_self]
      simp [State.slot, State.setTimer]
    · have hne : Owner.timer t' ≠ .timer t := fun h => ht (Owner.timer.inj h)
      rw [Function.update_of_ne (by simp), Function.update_of_ne hne]
      simp [State.slot, State.setTimer, ht]
  | callback t' =>
    by_cases ht : t' = t
    · rw [ht, Function.update_self]
      simp [State.slot, State.setTimer]
    · have hne : Owner.callback t' ≠ .callback t := fun h => ht (Owner.callback.inj h)
      rw [Function.update_of_ne hne, Function.update_of_ne (by simp)]
      simp [State.slot, State.setTimer, ht]
  | worker w => rfl
  | logHandler => rfl

/-- A worker owns the key of its table. -/
theorem slot_setWorker (w : ℕ) (ref : Option ℤ) (table : Table) :
    ({ s with table, workers := Function.update s.workers w ref } : State).slot =
      Function.update s.slot (.worker w) (ref.bind slotOf) := by
  funext o
  cases o with
  | value i => rfl
  | timer t => rfl
  | callback t => rfl
  | worker w' =>
    by_cases hw : w' = w
    · rw [hw, Function.update_self]
      simp [State.slot]
    · have hne : Owner.worker w' ≠ .worker w := fun h => hw (Owner.worker.inj h)
      rw [Function.update_of_ne hne]
      simp [State.slot, hw]
  | logHandler => rfl

/-- The log handler is kept under one key. -/
theorem slot_setLogHandler (ref : ℤ) (table : Table) :
    ({ s with table, luaLogHandler := ref } : State).slot =
      Function.update s.slot .logHandler (slotOf ref) := by
  funext o
  cases o with
  | logHandler => rw [Function.update_self]; rfl
  | value i => rfl
  | timer t => rfl
  | callback t => rfl
  | worker w => rfl

end Updates

end Radapter.Registry
