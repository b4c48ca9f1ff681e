import Radapter.Wire.Slip

/-!
# Writing SLIP frames

`slipa::Write` hands the runs of ordinary bytes on as they are and replaces each ESC and each END
by a pair. The file shows that reading and writing are inverse to each other: what is written is
read back, and a segment without an END that can be read is what is written for the bytes read.
-/

namespace Radapter.Wire.Slip

/-- A part that `slipa::Write` hands to `out`: `part.data()` up to the end of the string that it
points into, and `part.size()`. -/
structure Part where
  data : Bytes
  size : ℕ
  deriving DecidableEq, Repr

/-- The bytes of a part. -/
def Part.bytes (part : Part) : Bytes := part.data.take part.size

/-- `commit` of `slipa::Write`: the run collected so far, with the `rest` of the message behind
it. -/
def commit (collected rest : Bytes) : List Part :=
  if collected = [] then [] else [⟨collected ++ rest, collected.length⟩]

/-- The loop of `slipa::Write`. -/
def writeLoop (collected : Bytes) : Bytes → List Part
  | [] => commit collected []
  | ch :: msg =>
      if ch = ESC then commit collected (ch :: msg) ++ ⟨[ESC, ESC_ESC], 2⟩ :: writeLoop [] msg
      else if ch = END then
        commit collected (ch :: msg) ++ ⟨[ESC, ESC_END], 2⟩ :: writeLoop [] msg
      else writeLoop (collected ++ [ch]) msg

/-- `slipa::Write`: the parts handed to `out`. -/
def Write (msg : Bytes) : List Part := writeLoop [] msg

/-- What stands for a byte on the wire. -/
def escape (b : UInt8) : Bytes :=
  if b = ESC then [ESC, ESC_ESC] else if b = END then [ESC, ESC_END] else [b]

/-- What stands for a message on the wire. -/
def escaped (msg : Bytes) : Bytes := msg.flatMap escape

/-- Nothing is escaped as nothing. -/
@[simp] theorem escaped_nil : escaped [] = [] := by simp [escaped]

/-- A message is escaped byte by byte. -/
@[simp] theorem escaped_cons (b : UInt8) (msg : Bytes) :
    escaped (b :: msg) = escape b ++ escaped msg := by simp [escaped]

/-- A byte that is not escaped stands for itself. -/
theorem escape_of_ne {b : UInt8} (hesc : b ≠ ESC) (hend : b ≠ END) : escape b = [b] := by
  rw [escape, if_neg hesc, if_neg hend]

/-- The bytes of a committed run. -/
theorem flatMap_commit (collected rest : Bytes) :
    (commit collected rest).flatMap Part.bytes = collected := by
  unfold commit
  split
  · next h => simp [h]
  · simp [Part.bytes]

/-- The parts of a message are its bytes, escaped one by one. -/
theorem flatMap_writeLoop (collected msg : Bytes) :
    (writeLoop collected msg).flatMap Part.bytes = collected ++ escaped msg := by
  induction msg generalizing collected with
  | nil => rw [writeLoop, flatMap_commit, escaped_nil, List.append_nil]
  | cons ch msg ih =>
    unfold writeLoop
    split_ifs with hesc hend
    · rw [List.flatMap_append, flatMap_commit, List.flatMap_cons, ih, escaped_cons, escape,
        if_pos hesc]
      simp [Part.bytes]
    · rw [List.flatMap_append, flatMap_commit, List.flatMap_cons, ih, escaped_cons, escape,
        if_neg hesc, if_pos hend]
      simp [Part.bytes]
    · rw [ih, escaped_cons, escape_of_ne hesc hend, List.append_assoc]

/-- The parts that `slipa::Write` hands on make up the escaped message. -/
theorem flatMap_Write (msg : Bytes) : (Write msg).flatMap Part.bytes = escaped msg := by
  rw [Write, flatMap_writeLoop, List.nil_append]

/-- No END is left in an escaped message. -/
theorem END_not_mem_escaped (msg : Bytes) : END ∉ escaped msg := by
  induction msg with
  | nil => simp
  | cons b msg ih =>
    rw [escaped_cons, List.mem_append, not_or]
    refine ⟨?_, ih⟩
    unfold escape
    split_ifs with hesc hend
    · decide
    · decide
    · simpa using fun h => hend h.symm

/-- Reading what stands for a byte, and going on. -/
theorem readLoop_escape (b : UInt8) (rest : Bytes) :
    readLoop (escape b ++ rest) = (readLoop rest).map (b :: ·) := by
  unfold escape
  split_ifs with hesc hend
  · subst hesc
    rw [List.cons_append, List.singleton_append, readLoop, if_pos rfl, if_neg (by decide),
      if_pos rfl]
  · subst hend
    rw [List.cons_append, List.singleton_append, readLoop, if_pos rfl, if_pos rfl]
  · exact readLoop_cons hesc rest

/-- What was written is read back. -/
theorem readLoop_escaped (msg : Bytes) : readLoop (escaped msg) = .ok msg := by
  induction msg with
  | nil => simp [readLoop]
  | cons b msg ih =>
    rw [escaped_cons, readLoop_escape, ih]
    rfl

/-- `slipa::Read` undoes `slipa::Write`. -/
theorem Read_escaped (msg : Bytes) : Read (escaped msg) = .ok msg := by
  rw [Read_of_not_mem (END_not_mem_escaped msg), readLoop_escaped]

/-- A result with a byte in front has a result behind it. -/
private theorem map_cons_eq_ok {r : Except ReadErrors Bytes} {b : UInt8} {msg : Bytes}
    (h : r.map (b :: ·) = .ok msg) : ∃ tail, r = .ok tail ∧ msg = b :: tail := by
  cases r with
  | error e => simp [Except.map] at h
  | ok tail => exact ⟨tail, rfl, by simpa [Except.map] using h.symm⟩

/-- A segment without an END that can be read is what is written for the bytes read. -/
theorem eq_escaped_of_readLoop {src msg : Bytes} (hend : END ∉ src) (h : readLoop src = .ok msg) :
    src = escaped msg := by
  induction src using readLoop.induct generalizing msg with
  | case1 =>
    cases h
    rw [escaped_nil]
  | case2 => simp [readLoop] at h
  | case3 b hb =>
    have hmsg : [b] = msg := by simpa [readLoop, hb] using h
    rw [← hmsg, escaped_cons, escape_of_ne hb (fun hb => hend (by simp [hb])), escaped_nil,
      List.append_nil]
  | case4 rest ih =>
    simp only [readLoop, if_pos] at h
    obtain ⟨tail, hrest, rfl⟩ := map_cons_eq_ok h
    simp only [List.mem_cons, not_or] at hend
    rw [escaped_cons, ← ih hend.2.2 hrest]
    rfl
  | case5 rest hesc ih =>
    simp only [readLoop, if_pos, if_neg hesc] at h
    obtain ⟨tail, hrest, rfl⟩ := map_cons_eq_ok h
    simp only [List.mem_cons, not_or] at hend
    rw [escaped_cons, ← ih hend.2.2 hrest]
    rfl
  | case6 escaped rest hne hesc => simp [readLoop, hne, hesc] at h
  | case7 b c rest hb ih =>
    rw [readLoop_cons hb] at h
    obtain ⟨tail, hrest, rfl⟩ := map_cons_eq_ok h
    have hbEnd : b ≠ END := fun hb => hend (by simp [hb])
    rw [escaped_cons, escape_of_ne hb hbEnd, ← ih (fun hmem => hend (by simp [hmem])) hrest,
      List.singleton_append]

/-- The same for `slipa::Read`. -/
theorem eq_escaped_of_Read {src msg : Bytes} (hend : END ∉ src) (h : Read src = .ok msg) :
    src = escaped msg := by
  rw [Read_of_not_mem hend] at h
  exact eq_escaped_of_readLoop hend h

end Radapter.Wire.Slip
