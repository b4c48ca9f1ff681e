import Radapter.Graph.Convert

/-!
# The depth counter over many conversions

`convertDepth` is one counter for all conversions of the process. Between two conversions it should
be back where it was: then what happened to earlier messages does not matter to later ones. A Lua
error runs no destructor, so every view whose conversion it leaves stays counted.
-/

namespace Radapter.Graph

open Library Lua Lazy

/-- A conversion that a script asks for: the value, and the tables and messages at that time. -/
structure Call where
  heap : Heap
  calls : ℕ
  slots : Slots
  value : Value

/-- A conversion of any depth has room for its nested calls. -/
def Call.nested (c : Call) : ℕ := c.slots.room + MaxConvertDepth + 1

/-- How a conversion ends that starts with `convertDepth` at `depth`. -/
def Call.ended (rt : Runtime) (depth : ℕ) (c : Call) : Option (Ended QVariant) :=
  toQVar rt c.heap c.calls c.nested depth c.slots c.value

/-- The value of `convertDepth` after a conversion; none if the Lua stack was overrun. -/
def depthAfter (rt : Runtime) (depth : ℕ) (c : Call) : Option ℕ := (c.ended rt depth).map Prod.snd

/-- The conversion does not come to a view that no longer resolves. -/
def MeetsNoStale (rt : Runtime) (depth : ℕ) (c : Call) : Prop :=
  ¬ ComesTo rt c.heap c.calls .stale c.nested depth c.slots c.value

variable {rt : Runtime}

/-- A conversion that a script asks for ends as any nested one does. -/
theorem Call.endsAs (depth : ℕ) (c : Call) :
    EndsAs rt c.heap c.calls c.nested depth c.slots c.value (c.ended rt depth) :=
  toQVar_ends c.nested depth c.slots c.value

/-- A conversion that meets no stale view leaves the counter as it was. -/
theorem eq_of_depthAfter {depth after : ℕ} {c : Call} (hc : MeetsNoStale rt depth c)
    (hafter : depthAfter rt depth c = some after) : after = depth := by
  have hends := @Call.endsAs rt depth c
  rw [depthAfter] at hafter
  generalize c.ended rt depth = r at hends hafter
  cases hends with
  | converted x _ => exact (Option.some.inj hafter).symm
  | nestsTooDeeply _ => exact (Option.some.inj hafter).symm
  | stale _ _ hcomes => exact absurd hcomes hc
  | crashed _ _ _ => cases hafter

/-- One that meets a stale view leaves it higher. -/
theorem depthAfter_of_stale {depth : ℕ} {c : Call} (hc : ¬ MeetsNoStale rt depth c) :
    ∃ after, depth < after ∧ depthAfter rt depth c = some after := by
  have hcomes := not_not.mp hc
  have hends := @Call.endsAs rt depth c
  rw [depthAfter]
  generalize c.ended rt depth = r at hends
  cases hends with
  | converted x hconverts => exact absurd hcomes (hconverts.not_comesTo _)
  | nestsTooDeeply hdeep => cases hcomes.unique hdeep
  | stale after hafter _ => exact ⟨after, hafter, rfl⟩
  | crashed e hcrash hother =>
    obtain rfl := hcomes.unique hother
    rcases hcrash with hcrash | hcrash
    · cases hcrash
    · cases hcrash

/-- In every sequence of conversions, the counter is after each of them what it was at the start
exactly when none of them comes to a view that no longer resolves. -/
theorem depth_kept_iff (rt : Runtime) (depth : ℕ) (conversions : List Call) :
    (∀ done after, done <+: conversions → run (depthAfter rt) depth done = some after →
        after = depth) ↔
      Along (depthAfter rt) (MeetsNoStale rt) depth conversions := by
  refine @forall_run_iff_along_of_taken _ _ _ (· = depth) (· = depth) _ ?_ id ?_ _ rfl _
  · rintro s c t rfl hc ht
    exact eq_of_depthAfter hc ht
  · rintro s c rfl hc
    obtain ⟨after, hlt, hafter⟩ := depthAfter_of_stale hc
    exact ⟨after, hafter, Nat.ne_of_gt hlt⟩

/-- The conversion of a view of the field `b` of the field `a`, which the message has lost. -/
def lostField : Call :=
  ⟨⟨[[]], [some 0]⟩, 200, ⟨1000, 20⟩, .view 0 [.string [97], .string [98]] (.map [])⟩

/-- The conversion of a view of an untouched message. -/
def untouched : Call := ⟨⟨[], [none]⟩, 200, ⟨1000, 20⟩, .view 0 [] (.map [])⟩

/-- After 32 conversions of a view that lost its field, an untouched message nests too deeply. -/
theorem depth_not_kept :
    (¬ ∀ done after, done <+: List.replicate 32 lostField →
      run (depthAfter .unused) 0 done = some after → after = 0) ∧
    run (depthAfter .unused) 0 (List.replicate 32 lostField) = some 32 ∧
    untouched.ended .unused 0 = some (.ok (.map []), 0) ∧
    untouched.ended .unused 32 = some (.error .nestsTooDeeply, 32) := by
  have hrun : run (depthAfter .unused) 0 (List.replicate 32 lostField) = some 32 := by rfl
  refine ⟨fun hkept => ?_, hrun, rfl, rfl⟩
  exact absurd (hkept _ _ List.prefix_rfl hrun) (by decide)

end Radapter.Graph
