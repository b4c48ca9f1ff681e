import Radapter.Text
import Radapter.Library.Grammar
import Mathlib.Data.List.TakeWhile

/-!
# Commands on the wire

`redisFormat` writes a command as an array of bulk strings: the number of arguments, then every
argument behind the count of its bytes. The server reads a connection by the grammar of arrays and
bulk strings. The file gives that grammar with a parser for it and shows that the commands sent one
after the other are read as these commands and no others, whatever bytes the arguments hold.
-/

namespace Radapter.Redis

open Library

/-! ## Writing -/

/-- The end of a line. -/
def crlf : Bytes := [13, 10]

/-- `fmt::format("${}\r\n{}\r\n", argv[i].size(), argv[i])`. -/
def formatArg (arg : Bytes) : Bytes := 36 :: decimal arg.length ++ crlf ++ arg ++ crlf

/-- `redisFormat`. -/
def redisFormat (argv : List Bytes) : Bytes :=
  argv.foldl (fun res arg => res ++ formatArg arg) (42 :: decimal argv.length ++ crlf)

/-- The arguments stand one after the other behind their number. -/
theorem redisFormat_eq (argv : List Bytes) :
    redisFormat argv = 42 :: decimal argv.length ++ crlf ++ argv.flatMap formatArg := by
  have hloop (res : Bytes) :
      argv.foldl (fun res arg => res ++ formatArg arg) res = res ++ argv.flatMap formatArg := by
    induction argv generalizing res with
    | nil => simp
    | cons arg argv ih => rw [List.foldl_cons, ih, List.flatMap_cons, List.append_assoc]
  rw [redisFormat, hloop]

/-! ## The grammar -/

namespace Resp

/-- A count: decimal digits up to the end of the line. -/
def Count (n : ℕ) (text : Bytes) : Prop :=
  ∃ digits, digits ≠ [] ∧ (∀ ch ∈ digits, IsDigit ch) ∧ digitsValue digits = n ∧
    text = digits ++ crlf

/-- A bulk string: `$`, the count of its bytes, the bytes and the end of the line. -/
def BulkString (arg text : Bytes) : Prop :=
  ∃ count, Count arg.length count ∧ text = 36 :: count ++ arg ++ crlf

/-- An array of bulk strings: `*`, the count of its elements and the elements. -/
def Command (argv : List Bytes) (text : Bytes) : Prop :=
  ∃ count args, Count argv.length count ∧ Sequence BulkString argv args ∧
    text = 42 :: count ++ args

/-- What is sent on a connection: commands one after the other. -/
def Commands : List (List Bytes) → Bytes → Prop := Sequence Command

/-- The digits of a number and the end of a line are a count. -/
theorem count_decimal (n : ℕ) : Count n (decimal n ++ crlf) :=
  ⟨decimal n, List.ne_nil_of_length_pos (decimal_length_pos n), fun _ => decimal_digit,
    digitsValue_decimal n, rfl⟩

/-- An argument is written as a bulk string. -/
theorem bulkString_formatArg (arg : Bytes) : BulkString arg (formatArg arg) :=
  ⟨decimal arg.length ++ crlf, count_decimal arg.length, by simp [formatArg]⟩

/-- A command is written as an array of its arguments. -/
theorem command_redisFormat (argv : List Bytes) : Command argv (redisFormat argv) :=
  ⟨decimal argv.length ++ crlf, argv.flatMap formatArg, count_decimal argv.length,
    sequence_flatMap bulkString_formatArg argv, by rw [redisFormat_eq]; rfl⟩

/-! ## Reading -/

/-- A text that has to come next. -/
def expect (text input : Bytes) : Option Bytes :=
  if text <+: input then some (input.drop text.length) else none

/-- The parser for counts. -/
def parseCount : Parser UInt8 ℕ := fun input =>
  let digits := input.takeWhile (fun ch => decide (IsDigit ch))
  if digits = [] then none
  else (expect crlf (input.dropWhile (fun ch => decide (IsDigit ch)))).map (digitsValue digits, ·)

/-- The parser for bulk strings. -/
def parseBulk : Parser UInt8 Bytes := fun input => do
  let (n, rest) ← (expect [36] input).bind parseCount
  if rest.length < n then none else (expect crlf (rest.drop n)).map (rest.take n, ·)

/-- The parser for commands. -/
def parseCommand : Parser UInt8 (List Bytes) := fun input => do
  let (n, rest) ← (expect [42] input).bind parseCount
  times parseBulk n rest

/-- The parser for all that is sent on a connection. -/
def parseCommands (input : Bytes) : Option (List (List Bytes)) := parseAll parseCommand input

/-- A text that was expected stood in front of the rest. -/
theorem expect_eq_some {text input rest : Bytes} :
    expect text input = some rest ↔ input = text ++ rest := by
  unfold expect
  split
  · next h =>
    obtain ⟨behind, rfl⟩ := h
    simp [eq_comm]
  · next h =>
    simp only [reduceCtorEq, false_iff]
    rintro rfl
    exact h (List.prefix_append text rest)

/-- Counts are recognized: the digits end where the end of the line begins. -/
theorem recognizes_count : Recognizes parseCount Count := by
  intro input n rest
  simp only [parseCount]
  constructor
  · intro h
    split at h
    · cases h
    · next hne =>
      obtain ⟨behind, hbehind, heq⟩ := Option.map_eq_some_iff.mp h
      obtain ⟨rfl, rfl⟩ := Prod.mk.inj heq
      refine ⟨_, ⟨_, hne, ?_, rfl, rfl⟩, ?_⟩
      · intro ch hch
        have hdigit := List.mem_takeWhile_imp hch
        exact of_decide_eq_true hdigit
      · rw [List.append_assoc, ← expect_eq_some.mp hbehind, List.takeWhile_append_dropWhile]
  · rintro ⟨text, ⟨digits, hne, hdigits, rfl, rfl⟩, rfl⟩
    have hall : ∀ ch ∈ digits, decide (IsDigit ch) = true :=
      fun ch hch => decide_eq_true (hdigits ch hch)
    have htake : (digits ++ (crlf ++ rest)).takeWhile (fun ch => decide (IsDigit ch)) = digits := by
      rw [List.takeWhile_append_of_pos hall]
      simp [crlf, IsDigit]
    have hdrop : (digits ++ (crlf ++ rest)).dropWhile (fun ch => decide (IsDigit ch)) =
        crlf ++ rest := by
      rw [List.dropWhile_append_of_pos hall]
      simp [crlf, IsDigit]
    rw [List.append_assoc, htake, hdrop]
    simp only [hne, if_false, expect_eq_some.mpr rfl, Option.map_some]

/-- A count behind a letter. -/
theorem parseCount_behind {b : UInt8} {input rest : Bytes} {n : ℕ} :
    (expect [b] input).bind parseCount = some (n, rest) ↔
      ∃ count, Count n count ∧ input = b :: count ++ rest := by
  rw [Option.bind_eq_some_iff]
  constructor
  · rintro ⟨behind, hb, hcount⟩
    obtain ⟨count, hn, rfl⟩ := (recognizes_count _ _ _).mp hcount
    have hinput : input = [b] ++ (count ++ rest) := expect_eq_some.mp hb
    exact ⟨count, hn, hinput⟩
  · rintro ⟨count, hn, rfl⟩
    exact ⟨count ++ rest, expect_eq_some.mpr rfl, (recognizes_count _ _ _).mpr ⟨count, hn, rfl⟩⟩

/-- Bulk strings are recognized by the count of their bytes, not by what these are. -/
theorem recognizes_bulkString : Recognizes parseBulk BulkString := by
  intro input arg rest
  simp only [parseBulk, Option.bind_eq_bind, Option.bind_eq_some_iff, Prod.exists]
  constructor
  · rintro ⟨n, behind, hcount, h⟩
    obtain ⟨count, hn, rfl⟩ := parseCount_behind.mp (Option.bind_eq_some_iff.mpr hcount)
    split at h
    · cases h
    · next hlen =>
      obtain ⟨after, hafter, heq⟩ := Option.map_eq_some_iff.mp h
      obtain ⟨rfl, rfl⟩ := Prod.mk.inj heq
      refine ⟨36 :: count ++ behind.take n ++ crlf, ⟨count, ?_, rfl⟩, ?_⟩
      · rwa [List.length_take, Nat.min_eq_left (by omega)]
      · rw [List.append_assoc, ← expect_eq_some.mp hafter, List.append_assoc,
          List.take_append_drop]
  · rintro ⟨text, ⟨count, hcount, rfl⟩, rfl⟩
    refine ⟨arg.length, arg ++ (crlf ++ rest), ?_, ?_⟩
    · exact Option.bind_eq_some_iff.mp (parseCount_behind.mpr ⟨count, hcount, by simp⟩)
    · rw [if_neg (by simp), List.drop_left, expect_eq_some.mpr rfl, List.take_left,
        Option.map_some]

/-- Commands are recognized. -/
theorem recognizes_command : Recognizes parseCommand Command := by
  intro input argv rest
  simp only [parseCommand, Option.bind_eq_bind, Option.bind_eq_some_iff, Prod.exists]
  constructor
  · rintro ⟨n, behind, hcount, h⟩
    obtain ⟨count, hn, rfl⟩ := parseCount_behind.mp (Option.bind_eq_some_iff.mpr hcount)
    obtain ⟨args, ⟨rfl, hargs⟩, rfl⟩ := (recognizes_bulkString.times n _ _ _).mp h
    exact ⟨_, ⟨count, args, hn, hargs, rfl⟩, (List.append_assoc ..).symm⟩
  · rintro ⟨text, ⟨count, args, hcount, hargs, rfl⟩, rfl⟩
    refine ⟨argv.length, args ++ rest, ?_, ?_⟩
    · exact Option.bind_eq_some_iff.mp (parseCount_behind.mpr ⟨count, hcount, by simp⟩)
    · exact (recognizes_bulkString.times _ _ _ _).mpr ⟨args, ⟨rfl, hargs⟩, rfl⟩

/-- The parser accepts exactly the texts of the grammar, each as what it stands for. -/
theorem parseCommands_eq_some (input : Bytes) (cmds : List (List Bytes)) :
    parseCommands input = some cmds ↔ Commands cmds input := by
  refine recognizes_command.parseAll ?_ input cmds
  rintro argv text ⟨count, args, -, -, rfl⟩
  simp

/-- What is sent is read as the commands it was written for. -/
theorem parseCommands_flatMap (cmds : List (List Bytes)) :
    parseCommands (cmds.flatMap redisFormat) = some cmds :=
  (parseCommands_eq_some _ cmds).mpr (sequence_flatMap command_redisFormat cmds)

end Resp

/-- Commands sent one after the other are read as these commands: the parser yields them, the
grammar admits no other reading, and no other commands are sent as the same bytes. -/
theorem redisFormat_unambiguous (cmds : List (List Bytes)) :
    Resp.parseCommands (cmds.flatMap redisFormat) = some cmds ∧
      ∀ others, (Resp.Commands others (cmds.flatMap redisFormat) ↔ others = cmds) ∧
        (others.flatMap redisFormat = cmds.flatMap redisFormat ↔ others = cmds) := by
  have hread := Resp.parseCommands_flatMap
  refine ⟨hread cmds, fun others => ⟨?_, ?_⟩⟩
  · rw [← Resp.parseCommands_eq_some, hread cmds, Option.some.injEq, eq_comm]
  · constructor
    · intro h
      have hsame := hread others
      rw [h, hread cmds] at hsame
      exact (Option.some.inj hsame).symm
    · rintro rfl
      rfl

end Radapter.Redis
