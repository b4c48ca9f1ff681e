import Radapter.Wire.SlipWrite

/-!
# The loops of the SLIP codec

`slipa::Write` moves a pointer behind the bytes it has handed on and counts the run that it
collects. `slipa::Read` jumps from one ESC to the next and hands on what stands between them, with
a return at every escape it cannot read. The file follows both loops over the string they work on
and shows that they make up the codec of the other files: the writer hands on the same parts, and
the reader hands on the bytes read or returns the same error.
-/

namespace Radapter.Wire.Slip

/-! ## The writer -/

/-- The variables of `slipa::Write` with the parts handed to `out`. -/
structure Writer where
  /-- How far `in` has moved from `msg.data()`. -/
  moved : ℕ
  collected : ℕ
  parts : List Part
  deriving DecidableEq, Repr

/-- `commit` of `slipa::Write`. -/
def Writer.commit (msg : Bytes) (w : Writer) : Writer :=
  { moved := w.moved + w.collected
    collected := 0
    parts := if w.collected ≠ 0 then w.parts ++ [⟨msg.drop w.moved, w.collected⟩] else w.parts }

/-- `commit()`, `in++` and the pair handed to `out`. -/
def Writer.putPair (msg : Bytes) (w : Writer) (pair : Bytes) : Writer :=
  let w := w.commit msg
  { w with moved := w.moved + 1, parts := w.parts ++ [⟨pair, 2⟩] }

/-- One round of the loop of `slipa::Write`. -/
def Writer.put (msg : Bytes) (w : Writer) (ch : UInt8) : Writer :=
  if ch = ESC then w.putPair msg [ESC, ESC_ESC]
  else if ch = END then w.putPair msg [ESC, ESC_END]
  else { w with collected := w.collected + 1 }

/-- `slipa::Write` as it runs: the parts handed to `out`. -/
def writeRuns (msg : Bytes) : List Part :=
  ((msg.foldl (Writer.put msg) ⟨0, 0, []⟩).commit msg).parts

/-- The bytes that `out` has been given, as `wrapSlip` appends them to its buffer. -/
def wire (msg : Bytes) : Bytes := (writeRuns msg).flatMap Part.bytes

/-- Where the writer stands once `collected` is the run behind `in` and `rest` is still to come. -/
structure Writer.At (msg collected rest : Bytes) (w : Writer) : Prop where
  run : msg.drop w.moved = collected ++ rest
  count : w.collected = collected.length

/-- What `commit` hands on is the run collected. -/
theorem Writer.commit_parts {msg collected rest : Bytes} {w : Writer}
    (h : w.At msg collected rest) :
    (w.commit msg).parts = w.parts ++ Slip.commit collected rest := by
  unfold Writer.commit Slip.commit
  rw [h.run, h.count]
  cases collected <;> simp

/-- Behind a pair the writer stands at the next byte, with nothing collected. -/
theorem Writer.putPair_at {msg collected rest : Bytes} {ch : UInt8} {w : Writer} (pair : Bytes)
    (h : w.At msg collected (ch :: rest)) : (w.putPair msg pair).At msg [] rest := by
  refine ⟨?_, rfl⟩
  show msg.drop (w.moved + w.collected + 1) = [] ++ rest
  rw [Nat.add_assoc, ← List.drop_drop, h.run, h.count, ← List.drop_drop, List.drop_left]
  rfl

/-- A pair is handed on behind the run collected. -/
theorem Writer.putPair_parts {msg collected rest : Bytes} {w : Writer} (pair : Bytes)
    (h : w.At msg collected rest) :
    (w.putPair msg pair).parts = w.parts ++ Slip.commit collected rest ++ [⟨pair, 2⟩] := by
  rw [← Writer.commit_parts h]
  rfl

/-- The loop goes on as the one over the run collected and the bytes to come. -/
theorem Writer.foldl_put {msg collected rest : Bytes} {w : Writer} (h : w.At msg collected rest) :
    ((rest.foldl (Writer.put msg) w).commit msg).parts = w.parts ++ writeLoop collected rest := by
  induction rest generalizing w collected with
  | nil => rw [List.foldl_nil, Writer.commit_parts h, writeLoop]
  | cons ch rest ih =>
    rw [List.foldl_cons, Writer.put, writeLoop]
    split_ifs with hesc hend
    · rw [ih (Writer.putPair_at _ h), Writer.putPair_parts _ h]
      simp
    · rw [ih (Writer.putPair_at _ h), Writer.putPair_parts _ h]
      simp
    · have hnext : ({ w with collected := w.collected + 1 } : Writer).At msg (collected ++ [ch])
          rest := ⟨by simpa using h.run, by simp [h.count]⟩
      rw [ih hnext]

/-- The loop of `slipa::Write` hands on the parts of `Write`. -/
theorem writeRuns_eq_Write (msg : Bytes) : writeRuns msg = Write msg := by
  have hstart : (⟨0, 0, []⟩ : Writer).At msg [] msg := ⟨rfl, rfl⟩
  rw [writeRuns, Writer.foldl_put hstart, List.nil_append, Write]

/-- The bytes on the wire are the message with every ESC and END escaped. -/
theorem wire_eq_escaped (msg : Bytes) : wire msg = escaped msg := by
  rw [wire, writeRuns_eq_Write, flatMap_Write]

/-! ## The reader -/

/-- `find_first_of`: the first position from `pos` on at which the byte stands. -/
def find_first_of (msg : Bytes) (b : UInt8) (pos : ℕ) : Option ℕ :=
  ((msg.drop pos).idxOf? b).map (pos + ·)

/-- What `slipa::Read` returns, `none` for `NoError`, and the parts handed to `out` before. -/
abbrev ReadResult := Option ReadErrors × List Bytes

/-- A call of `out` before the rest of the loop. -/
def ReadResult.out (part : Bytes) (r : ReadResult) : ReadResult := (r.1, part :: r.2)

/-- The run from `pos` to `next` is handed on before the rest of the loop unless it is empty. -/
def ReadResult.outRun (msg : Bytes) (pos next : ℕ) (r : ReadResult) : ReadResult :=
  if pos ≠ next then r.out ((msg.drop pos).take (next - pos)) else r

/-- A position found is in the string, and not before `pos`. -/
theorem lt_of_find_first_of {msg : Bytes} {b : UInt8} {pos next : ℕ}
    (h : find_first_of msg b pos = some next) : pos ≤ next ∧ next < msg.length := by
  obtain ⟨i, hi, rfl⟩ := Option.map_eq_some_iff.mp h
  obtain ⟨hlt, -⟩ := List.idxOf?_eq_some_iff.mp hi
  rw [List.length_drop] at hlt
  omega

/-- The loop of `slipa::Read` from `pos` on. -/
def readRunsFrom (msg : Bytes) (pos : ℕ) : ReadResult :=
  if pos < msg.length then
    match _hnext : find_first_of msg ESC pos with
    | none => (none, [msg.drop pos])
    | some next =>
      if next = msg.length - 1 then (some .UnterminatedEscape, [])
      else
        -- The byte is there: `next` is not the last position.
        let escaped := msg.getD (next + 1) 0
        ReadResult.outRun msg pos next
          (if escaped = ESC_END then (readRunsFrom msg (next + 2)).out [END]
          else if escaped = ESC_ESC then (readRunsFrom msg (next + 2)).out [ESC]
          else (some .InvalidEscape, []))
  else (none, [])
termination_by msg.length - pos
decreasing_by all_goals have := lt_of_find_first_of _hnext; omega

/-- `slipa::Read` as it runs. One trailing END is ignored. -/
def readRuns (msg : Bytes) : ReadResult :=
  readRunsFrom (if msg.getLast? = some END then msg.dropLast else msg) 0

/-- A return of `slipa::Read` with the parts put together. -/
def ReadResult.outcome (r : ReadResult) : Except ReadErrors Bytes :=
  match r.1 with
  | none => .ok r.2.flatten
  | some e => .error e

/-- A run that is passed on stands in front of what follows. -/
@[simp] theorem outcome_out (part : Bytes) (r : ReadResult) :
    (r.out part).outcome = r.outcome.map (part ++ ·) := by
  obtain ⟨_ | e, parts⟩ := r <;> rfl

/-- A run without ESC is passed on. -/
theorem readLoop_run {run : Bytes} (h : ESC ∉ run) (rest : Bytes) :
    readLoop (run ++ rest) = (readLoop rest).map (run ++ ·) := by
  have hrun : readLoop run = .ok run := by
    induction run with
    | nil => rfl
    | cons b run ih =>
      simp only [List.mem_cons, not_or] at h
      rw [readLoop_cons (Ne.symm h.1), ih h.2]
      rfl
  exact readLoop_append hrun rest

/-- What `find_first_of` says about the bytes from `pos` on. -/
theorem find_first_of_eq_none {msg : Bytes} {b : UInt8} {pos : ℕ} :
    find_first_of msg b pos = none ↔ b ∉ msg.drop pos := by
  rw [find_first_of, Option.map_eq_none_iff, List.idxOf?_eq_none_iff]

/-- The bytes from `pos` on are split at the position found. -/
theorem drop_of_find_first_of {msg : Bytes} {b : UInt8} {pos next : ℕ}
    (h : find_first_of msg b pos = some next) :
    b ∉ (msg.drop pos).take (next - pos) ∧
      msg.drop pos = (msg.drop pos).take (next - pos) ++ b :: msg.drop (next + 1) := by
  obtain ⟨i, hi, rfl⟩ := Option.map_eq_some_iff.mp h
  obtain ⟨hlt, hat, hbefore⟩ := List.idxOf?_eq_some_iff.mp hi
  have hdrop : b :: msg.drop (pos + i + 1) = (msg.drop pos).drop i := by
    rw [List.drop_eq_getElem_cons hlt, hat, List.drop_drop, ← Nat.add_assoc]
  rw [Nat.add_sub_cancel_left]
  refine ⟨?_, by rw [hdrop, List.take_append_drop]⟩
  intro hmem
  obtain ⟨j, hj, hjb⟩ := List.mem_iff_getElem.mp hmem
  rw [List.length_take] at hj
  exact hbefore j (by omega) (by rw [← hjb, List.getElem_take])

/-- Behind a run the reader does what it does from the ESC found on. -/
theorem readLoop_drop_of_find {msg : Bytes} {pos next : ℕ}
    (h : find_first_of msg ESC pos = some next) :
    readLoop (msg.drop pos) =
      (readLoop (ESC :: msg.drop (next + 1))).map ((msg.drop pos).take (next - pos) ++ ·) := by
  obtain ⟨hrun, hsplit⟩ := drop_of_find_first_of h
  rw [hsplit, readLoop_run hrun, ← hsplit]

/-- The byte behind an ESC that is not the last byte, and the bytes behind that. -/
theorem drop_behind_ESC {msg : Bytes} {pos next : ℕ}
    (h : find_first_of msg ESC pos = some next) (hlast : next ≠ msg.length - 1) :
    msg.drop (next + 1) = msg.getD (next + 1) 0 :: msg.drop (next + 2) := by
  obtain ⟨-, hlt⟩ := lt_of_find_first_of h
  have hthere : next + 1 < msg.length := by omega
  rw [List.drop_eq_getElem_cons hthere, List.getD_eq_getElem?_getD,
    List.getElem?_eq_getElem hthere]
  rfl

/-- An empty run is not handed on, and would add nothing. -/
theorem outcome_outRun (msg : Bytes) (pos next : ℕ) (r : ReadResult) :
    (r.outRun msg pos next).outcome =
      r.outcome.map ((msg.drop pos).take (next - pos) ++ ·) := by
  unfold ReadResult.outRun
  split_ifs with hne
  · rw [outcome_out]
  · obtain rfl : pos = next := not_not.mp hne
    cases h : r.outcome <;> simp [Except.map]

/-- The loop of `slipa::Read` from `pos` on reads the bytes from `pos` on. -/
theorem outcome_readRunsFrom (msg : Bytes) (pos : ℕ) :
    (readRunsFrom msg pos).outcome = readLoop (msg.drop pos) := by
  fun_induction readRunsFrom msg pos with
  | case1 pos hpos hnone =>
    have hrun := readLoop_run (find_first_of_eq_none.mp hnone) []
    rw [List.append_nil, readLoop] at hrun
    simp [ReadResult.outcome, hrun, Except.map]
  | case2 pos hpos hnext =>
    have hempty : msg.drop (msg.length - 1 + 1) = [] := List.drop_eq_nil_of_le (by omega)
    rw [readLoop_drop_of_find hnext, hempty, readLoop, if_pos rfl]
    rfl
  | case3 pos hpos next hnext hlast escaped ih =>
    rw [outcome_outRun, readLoop_drop_of_find hnext, drop_behind_ESC hnext hlast, readLoop,
      if_pos rfl, ← ih]
    split_ifs
    · rw [outcome_out]
      rfl
    · rw [outcome_out]
      rfl
    · rfl
  | case4 pos hpos =>
    rw [List.drop_eq_nil_of_le (by omega), readLoop]
    rfl

/-- The loop of `slipa::Read` hands on the bytes of `Read`, or returns its error. -/
theorem outcome_readRuns (msg : Bytes) : (readRuns msg).outcome = Read msg := by
  rw [readRuns, outcome_readRunsFrom, List.drop_zero, Read]

/-! ## Scanning for escapes -/

/-- Left-to-right scanning of the bytes comes to an ESC with `rest` behind it. Bytes other than
ESC are passed one at a time and a pair that stands for a byte is passed as one. -/
inductive Scans : Bytes → Bytes → Prop
  | here (rest : Bytes) : Scans (ESC :: rest) rest
  | byte {b : UInt8} {src rest : Bytes} (hb : b ≠ ESC) (h : Scans src rest) :
      Scans (b :: src) rest
  | pair {e : UInt8} {src rest : Bytes} (he : e = ESC_END ∨ e = ESC_ESC) (h : Scans src rest) :
      Scans (ESC :: e :: src) rest

/-- An ESC with `rest` behind it stands for a byte. -/
def Escapes (rest : Bytes) : Prop := ∃ e src, rest = e :: src ∧ (e = ESC_END ∨ e = ESC_ESC)

/-- What is wrong with an ESC that stands for no byte. -/
def badEscape (rest : Bytes) : ReadErrors :=
  if rest = [] then .UnterminatedEscape else .InvalidEscape

/-- Reading a pair that stands for a byte, and going on. -/
theorem readLoop_pair {e : UInt8} (he : e = ESC_END ∨ e = ESC_ESC) (src : Bytes) :
    ∃ b, readLoop (ESC :: e :: src) = (readLoop src).map (b :: ·) := by
  rcases he with rfl | rfl
  · exact ⟨END, by rw [readLoop, if_pos rfl, if_pos rfl]⟩
  · exact ⟨ESC, by rw [readLoop, if_pos rfl, if_neg (by decide), if_pos rfl]⟩

/-- An ESC that stands for no byte is an error. -/
theorem readLoop_of_not_escapes {rest : Bytes} (h : ¬ Escapes rest) :
    readLoop (ESC :: rest) = .error (badEscape rest) := by
  cases rest with
  | nil => rfl
  | cons e src =>
    have hend : e ≠ ESC_END := fun he => h ⟨e, src, rfl, .inl he⟩
    have hesc : e ≠ ESC_ESC := fun he => h ⟨e, src, rfl, .inr he⟩
    rw [readLoop, if_pos rfl, if_neg hend, if_neg hesc]
    rfl

/-- When scanning comes to an ESC that stands for no byte, reading returns what is wrong with
it. -/
theorem Scans.readLoop_eq {src rest : Bytes} (h : Scans src rest) (hrest : ¬ Escapes rest) :
    readLoop src = .error (badEscape rest) := by
  induction h with
  | here rest => exact readLoop_of_not_escapes hrest
  | byte hb _ ih =>
    rw [readLoop_cons hb, ih hrest]
    rfl
  | pair he _ ih =>
    obtain ⟨b, hpair⟩ := readLoop_pair he _
    rw [hpair, ih hrest]
    rfl

/-- An error of reading comes from an ESC that scanning comes to. -/
theorem scans_of_readLoop {src : Bytes} {e : ReadErrors} (h : readLoop src = .error e) :
    ∃ rest, Scans src rest ∧ ¬ Escapes rest ∧ e = badEscape rest := by
  have hmap {r : Except ReadErrors Bytes} {b : UInt8} (hr : r.map (b :: ·) = .error e) :
      r = .error e := by
    cases r with
    | ok msg => cases hr
    | error e' => exact hr
  induction src using readLoop.induct with
  | case1 => cases h
  | case2 =>
    have hrest : ¬ Escapes [] := by
      rintro ⟨b, src, hnil, -⟩
      cases hnil
    cases h
    exact ⟨[], .here [], hrest, rfl⟩
  | case3 b hb => simp [readLoop, hb] at h
  | case4 src ih =>
    obtain ⟨rest, hscan, hrest⟩ := ih (hmap (by simpa only [readLoop, if_pos] using h))
    exact ⟨rest, .pair (.inl rfl) hscan, hrest⟩
  | case5 src hend ih =>
    obtain ⟨rest, hscan, hrest⟩ := ih (hmap (by simpa only [readLoop, if_pos, if_neg hend] using h))
    exact ⟨rest, .pair (.inr rfl) hscan, hrest⟩
  | case6 b src hend hesc =>
    have hrest : ¬ Escapes (b :: src) := by
      rintro ⟨b', src', heq, hb⟩
      cases heq
      exact hb.elim hend hesc
    rw [readLoop_of_not_escapes hrest] at h
    exact ⟨b :: src, .here _, hrest, by cases h; rfl⟩
  | case7 b c src hb ih =>
    rw [readLoop_cons hb] at h
    obtain ⟨rest, hscan, hrest⟩ := ih (hmap h)
    exact ⟨rest, .byte hb hscan, hrest⟩

/-- Reading succeeds exactly when every ESC that scanning comes to stands for a byte. -/
theorem readLoop_ok_iff (src : Bytes) :
    (∃ msg, readLoop src = .ok msg) ↔ ∀ rest, Scans src rest → Escapes rest := by
  constructor
  · rintro ⟨msg, hmsg⟩ rest hscan
    by_contra hrest
    rw [hscan.readLoop_eq hrest] at hmsg
    cases hmsg
  · intro h
    cases hread : readLoop src with
    | ok msg => exact ⟨msg, rfl⟩
    | error e =>
      obtain ⟨rest, hscan, hrest, -⟩ := scans_of_readLoop hread
      exact absurd (h rest hscan) hrest

/-- Reading is unterminated exactly when scanning comes to an ESC that is the last byte. -/
theorem readLoop_unterminated_iff (src : Bytes) :
    readLoop src = .error .UnterminatedEscape ↔ Scans src [] := by
  constructor
  · intro h
    obtain ⟨rest, hscan, -, hbad⟩ := scans_of_readLoop h
    cases rest with
    | nil => exact hscan
    | cons b rest => simp [badEscape] at hbad
  · intro hscan
    refine hscan.readLoop_eq ?_
    rintro ⟨b, src, hnil, -⟩
    cases hnil

/-- An escape is invalid exactly when scanning comes to an ESC with another byte behind it. -/
theorem readLoop_invalid_iff (src : Bytes) :
    readLoop src = .error .InvalidEscape ↔
      ∃ e rest, Scans src (e :: rest) ∧ e ≠ ESC_END ∧ e ≠ ESC_ESC := by
  constructor
  · intro h
    obtain ⟨rest, hscan, hrest, hbad⟩ := scans_of_readLoop h
    cases rest with
    | nil => cases hbad
    | cons e rest =>
      exact ⟨e, rest, hscan, fun he => hrest ⟨e, rest, rfl, .inl he⟩,
        fun he => hrest ⟨e, rest, rfl, .inr he⟩⟩
  · rintro ⟨e, rest, hscan, hend, hesc⟩
    refine hscan.readLoop_eq ?_
    rintro ⟨e', rest', heq, he⟩
    cases heq
    exact he.elim hend hesc

/-! ## The codec as it runs -/

/-- `slipa::Read` returns an error exactly when `Read` does. -/
theorem readRuns_eq_some (msg : Bytes) (e : ReadErrors) :
    (readRuns msg).1 = some e ↔ Read msg = .error e := by
  rw [← outcome_readRuns]
  obtain ⟨_ | e', parts⟩ := readRuns msg <;> simp [ReadResult.outcome]

/-- When `slipa::Read` returns `NoError`, the parts handed to `out` are the bytes read. -/
theorem readRuns_eq_none (msg bytes : Bytes) :
    (readRuns msg).1 = none ∧ (readRuns msg).2.flatten = bytes ↔ Read msg = .ok bytes := by
  rw [← outcome_readRuns]
  obtain ⟨_ | e, parts⟩ := readRuns msg <;> simp [ReadResult.outcome]

/-- What is written has no END and is read back whole. What is without END is read exactly when
each of its escapes stands for a byte, otherwise the error says what stands behind the first one
that does not, and writing what was read gives it back. -/
theorem slipa_bijection (m x : Bytes) :
    (END ∉ wire m ∧ (readRuns (wire m)).1 = none ∧ (readRuns (wire m)).2.flatten = m) ∧
      (END ∉ x →
        ((readRuns x).1 = none ↔ ∀ rest, Scans x rest → Escapes rest) ∧
        ((readRuns x).1 = some .UnterminatedEscape ↔ Scans x []) ∧
        ((readRuns x).1 = some .InvalidEscape ↔
          ∃ e rest, Scans x (e :: rest) ∧ e ≠ ESC_END ∧ e ≠ ESC_ESC) ∧
        ((readRuns x).1 = none → wire (readRuns x).2.flatten = x)) := by
  simp only [wire_eq_escaped, readRuns_eq_some]
  refine ⟨⟨END_not_mem_escaped m, (readRuns_eq_none _ m).mpr (Read_escaped m)⟩, fun hx => ?_⟩
  rw [Read_of_not_mem hx]
  refine ⟨?_, readLoop_unterminated_iff x, readLoop_invalid_iff x, fun h => ?_⟩
  · rw [← readLoop_ok_iff]
    constructor
    · intro h
      exact ⟨_, by rw [← Read_of_not_mem hx, (readRuns_eq_none x _).mp ⟨h, rfl⟩]⟩
    · rintro ⟨msg, hmsg⟩
      exact ((readRuns_eq_none x msg).mpr (by rw [Read_of_not_mem hx, hmsg])).1
  · exact (eq_escaped_of_Read hx ((readRuns_eq_none x _).mp ⟨h, rfl⟩)).symm

/-- Adjacent escapes at both ends of the message and of the segment. -/
theorem slipa_bijection_pairs :
    wire (readRuns [ESC, ESC_END, ESC, ESC_ESC, 7, ESC, ESC_END]).2.flatten =
      [ESC, ESC_END, ESC, ESC_ESC, 7, ESC, ESC_END] := by
  have hread : (readRuns [ESC, ESC_END, ESC, ESC_ESC, 7, ESC, ESC_END]).1 = none :=
    ((readRuns_eq_none _ [END, ESC, 7, END]).mpr rfl).1
  exact ((slipa_bijection [END, ESC, 7, END] _).2 (by decide)).2.2.2 hread

end Radapter.Wire.Slip
