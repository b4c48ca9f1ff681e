import Radapter.Wire.Frame

/-!
# Termination of `DrainFrames`

The loop compares the buffer size with `4 + len` in 32-bit arithmetic and removes `int(4 + len)`
bytes. A header of `2 ^ 32 - 4` or more wraps the sum to a number below four, and a sum of
`2 ^ 31` or more turns negative as an `int`. In either case the round removes fewer than four
bytes, possibly none, and the loop need not end. For every other header a round removes exactly
the frame it has found.
-/

namespace Radapter.Wire

open Library

/-- A header announces less than `2 ^ 32` bytes. -/
theorem announced_lt (buf : Bytes) : announced buf < 2 ^ 32 := by
  match buf with
  | b0 :: b1 :: b2 :: b3 :: rest =>
    have h0 := b0.toNat_lt
    have h1 := b1.toNat_lt
    have h2 := b2.toNat_lt
    have h3 := b3.toNat_lt
    simp only [announced]
    omega
  | [] | [_] | [_, _] | [_, _, _] => simp [announced]

/-- A round on a frame of less than `2 ^ 31` bytes pops exactly that frame. -/
theorem drainStep_of_lt {buf : Bytes} (hpass : passesCheck buf = true)
    (hlt : 4 + announced buf < 2 ^ 31) :
    4 + announced buf ≤ buf.length ∧
      drainStep buf = some ((buf.drop 4).take (announced buf), buf.drop (4 + announced buf)) := by
  have hcheck : 4 ≤ buf.length ∧ (4 + announced buf) % 2 ^ 32 ≤ buf.length % 2 ^ 32 := by
    simpa [passesCheck] using hpass
  have hmod : (4 + announced buf) % 2 ^ 32 = 4 + announced buf := Nat.mod_eq_of_lt (by omega)
  have hsize : buf.length % 2 ^ 32 ≤ buf.length := Nat.mod_le _ _
  refine ⟨by omega, ?_⟩
  rw [drainStep, if_pos hpass, hmod]
  simp only [toInt, if_pos hlt, if_pos (show announced buf < 2 ^ 31 by omega), mid, remove]
  rw [if_neg (by omega), if_neg (by omega), Int.toNat_natCast, Int.toNat_natCast]

/-- A round on any other header removes fewer than four bytes. -/
theorem drainStep_of_le {buf : Bytes} (hpass : passesCheck buf = true)
    (hle : 2 ^ 31 ≤ 4 + announced buf) :
    ∃ payload rest, drainStep buf = some (payload, rest) ∧ buf.length < rest.length + 4 := by
  have hann := announced_lt buf
  have hcheck : 4 ≤ buf.length ∧ (4 + announced buf) % 2 ^ 32 ≤ buf.length % 2 ^ 32 := by
    simpa [passesCheck] using hpass
  refine ⟨_, _, by rw [drainStep, if_pos hpass], ?_⟩
  by_cases hwrap : 4 + announced buf < 2 ^ 32
  · have hneg : toInt ((4 + announced buf) % 2 ^ 32) ≤ 0 := by
      rw [Nat.mod_eq_of_lt hwrap, toInt, if_neg (by omega)]
      omega
    rw [remove, if_pos hneg]
    omega
  · have hsmall : toInt ((4 + announced buf) % 2 ^ 32) ≤ 3 := by
      rw [toInt, if_pos (by omega)]
      omega
    unfold remove
    split
    · omega
    · rw [List.length_drop]
      omega

/-- `DrainFrames` returns within one round per byte and one to stop, if it returns at all. -/
theorem Codec.drainFor_of_isSome (c : Codec) {fuel : ℕ} {buf : Bytes} {r : List Event × Bytes}
    (h : c.drainFor fuel buf = some r) : c.DrainFrames buf = some r := by
  obtain ⟨q, hq, rfl⟩ := Option.map_eq_some_iff.mp h
  have hshrinks : ∀ (s b t : Bytes), drainStep s = some (b, t) → t.length < s.length ∨ t = s := by
    intro s b t hs
    unfold drainStep at hs
    split at hs
    · next hpass =>
      obtain ⟨_, rfl⟩ := Prod.mk.inj (Option.some.inj hs)
      have hcheck : 4 ≤ s.length ∧ (4 + announced s) % 2 ^ 32 ≤ s.length % 2 ^ 32 := by
        simpa [passesCheck] using hpass
      unfold remove
      split
      · exact Or.inr rfl
      · left
        rw [List.length_drop]
        omega
    · cases hs
  rw [DrainFrames, drainFor, loop_eq_of_shrinks_or_stays List.length hshrinks hq]
  rfl

/-- The suffixes of a buffer that start where a frame ends: the buffer itself, and what follows
a frame of less than `2 ^ 31` bytes that passes the size check. -/
inductive Boundary (buf : Bytes) : Bytes → Prop
  | start : Boundary buf buf
  | next {b : Bytes} : Boundary buf b → passesCheck b = true → 4 + announced b < 2 ^ 31 →
      Boundary buf (b.drop (4 + announced b))

/-- Every round of the loop removes the header and the whole announced payload. -/
def PopsWholeFrames (buf : Bytes) : Prop :=
  ∀ b, Enters drainStep buf b → ∀ payload rest, drainStep b = some (payload, rest) →
    4 + announced b ≤ b.length ∧ rest = b.drop (4 + announced b)

/-- The loop gets to every frame boundary. -/
theorem Boundary.enters {buf b : Bytes} (h : Boundary buf b) : Enters drainStep buf b := by
  induction h with
  | start => exact .start
  | next _ hpass hlt ih => exact .next ih (drainStep_of_lt hpass hlt).2

/-- Without an oversized header the loop only ever stands at frame boundaries. -/
private theorem boundary_of_enters {buf b : Bytes}
    (hsafe : ∀ b, Boundary buf b → passesCheck b = true → 4 + announced b < 2 ^ 31)
    (h : Enters drainStep buf b) : Boundary buf b := by
  induction h with
  | start => exact .start
  | @next t u payload _ hstep ih =>
    have hpass : passesCheck t = true := by
      by_contra hno
      rw [drainStep, if_neg hno] at hstep
      cases hstep
    have hlt := hsafe t ih hpass
    rw [(drainStep_of_lt hpass hlt).2] at hstep
    obtain ⟨_, rfl⟩ := Prod.mk.inj (Option.some.inj hstep)
    exact .next ih hpass hlt

/-- **`DrainFrames` ends, with every round stopping or popping a whole frame, if and only if no
header at a frame boundary passes the size check with `2 ^ 31 - 4` bytes or more announced.** -/
theorem DrainFrames_ends_iff (buf : Bytes) :
    (Stops drainStep buf ∧ PopsWholeFrames buf) ↔
      ∀ b, Boundary buf b → passesCheck b = true → 4 + announced b < 2 ^ 31 := by
  constructor
  · rintro ⟨_, hpops⟩ b hb hpass
    by_contra hle
    obtain ⟨payload, rest, hstep, hshort⟩ := drainStep_of_le hpass (by omega)
    obtain ⟨hwhole, hrest⟩ := hpops b hb.enters payload rest hstep
    have hlen := congrArg List.length hrest
    rw [List.length_drop] at hlen
    omega
  · intro hsafe
    have hpops : PopsWholeFrames buf := by
      intro b hb payload rest hstep
      have hpass : passesCheck b = true := by
        by_contra hno
        rw [drainStep, if_neg hno] at hstep
        cases hstep
      obtain ⟨hwhole, heq⟩ :=
        drainStep_of_lt hpass (hsafe b (boundary_of_enters hsafe hb) hpass)
      rw [heq] at hstep
      exact ⟨hwhole, (Prod.mk.inj (Option.some.inj hstep)).2.symm⟩
    refine ⟨stops_of_shrinks List.length ?_, hpops⟩
    intro b hb payload rest hstep
    obtain ⟨hwhole, rfl⟩ := hpops b hb payload rest hstep
    rw [List.length_drop]
    omega

/-- The header `FF FF FF FC` wraps to zero: the round pops nothing and the loop never stops. -/
theorem DrainFrames_hangs :
    ¬ (Stops drainStep [0xFF, 0xFF, 0xFF, 0xFC] ∧ PopsWholeFrames [0xFF, 0xFF, 0xFF, 0xFC]) ∧
      ¬ Stops drainStep [0xFF, 0xFF, 0xFF, 0xFC] := by
  have hstep : drainStep [0xFF, 0xFF, 0xFF, 0xFC] = some ([], [0xFF, 0xFF, 0xFF, 0xFC]) := by decide
  have hforever : ¬ Stops drainStep [0xFF, 0xFF, 0xFF, 0xFC] := by
    rintro ⟨n, hn⟩
    have hnone (k : ℕ) : loop drainStep k [0xFF, 0xFF, 0xFF, 0xFC] = none := by
      induction k with
      | zero => rfl
      | succ k ih => rw [loop, hstep]; simp only [ih, Option.map_none]
    rw [hnone] at hn
    cases hn
  exact ⟨fun h => hforever h.1, hforever⟩

end Radapter.Wire
