import Radapter.Redis.Format
import Radapter.UnflattenKeys
import Radapter.Variant
import Radapter.Library.Results

/-!
# Replies of the server

A reply is a tree of arrays over strings, numbers and the other types of the protocol. The client
makes a message of it. It reads the text of a reply as a C string, so what was stored by the count
of its bytes comes back only as far as its first NUL. The file says for every text, and for every
place in a reply at which the server returns it, when it comes back as it was stored.
-/

namespace Radapter.Redis

open Library

/-- `redisReply` by its type. Texts are given without the NUL that is kept behind them. -/
inductive RedisReply where
  | null
  | string (str : Bytes)
  | array (element : List RedisReply)
  | integer (n : BitVec 64)
  | nil
  | status (str : Bytes)
  | error (str : Bytes)
  | double (dval : BitVec 64)
  | boolean (n : BitVec 64)
  | map (element : List RedisReply)
  | set (element : List RedisReply)
  | attr (element : List RedisReply)
  | push (element : List RedisReply)
  | bignum (str : Bytes)
  | verb (str : Bytes)
  | unknown

/-- A `const char*` that is read up to the NUL. -/
def cString (str : Bytes) : Bytes := (str ++ [0]).takeWhile (· ≠ 0)

mutual

/-- `parseReply`: a message, or the text of the exception. -/
def parseReply : RedisReply → Except Bytes QVariant
  | .null => .ok .invalid
  | .string str => .ok (.leaf (.string (fromUtf8 (cString str))))
  | .array element => (parseElements element).map .list
  | .integer n => .ok (.leaf (.longlong n))
  | .nil => .ok .invalid
  | .status str => .ok (.leaf (.string (fromUtf8 (cString str))))
  | .error str => .error (cString str)
  | .double dval => .ok (.leaf (.double dval))
  | .boolean n => .ok (.leaf (.bool (n ≠ 0)))
  | .map _ => .error "REDIS_REPLY_MAP Unsupported".toUTF8.toList
  | .set element => (parseElements element).map .list
  | .attr _ => .error "REDIS_REPLY_ATTR Unsupported".toUTF8.toList
  | .push _ => .error "REDIS_REPLY_PUSH Unsupported".toUTF8.toList
  | .bignum str => .ok (.leaf (.string (fromUtf8 (cString str))))
  | .verb str => .ok (.leaf (.string (fromUtf8 (cString str))))
  | .unknown => .ok .invalid

/-- The loop over the elements of an array. -/
def parseElements : List RedisReply → Except Bytes (List QVariant)
  | [] => .ok []
  | r :: rest => do
      let v ← parseReply r
      let vs ← parseElements rest
      .ok (v :: vs)

end

mutual

/-- Some element of the reply makes `parseReply` throw. -/
def RedisReply.raises : RedisReply → Bool
  | .error _ | .map _ | .attr _ | .push _ => true
  | .array element | .set element => raisesAny element
  | _ => false

/-- Some of the replies makes `parseReply` throw. -/
def RedisReply.raisesAny : List RedisReply → Bool
  | [] => false
  | r :: rest => r.raises || raisesAny rest

end

/-- What stands at a path of positions in nested arrays. -/
def RedisReply.at : RedisReply → List ℕ → Option RedisReply
  | r, [] => some r
  | .array element, i :: path | .set element, i :: path =>
      element[i]?.bind (fun r => r.at path)
  | _, _ :: _ => none

/-- What stands at a path of positions in nested lists. -/
def itemAt : QVariant → List ℕ → Option QVariant
  | v, [] => some v
  | .list items, i :: path => items[i]?.bind (fun v => itemAt v path)
  | _, _ :: _ => none

/-! ## What becomes of the elements -/

mutual

/-- A reply is parsed exactly when none of its elements throws. -/
theorem parseReply_isOk (r : RedisReply) : (∃ v, parseReply r = .ok v) ↔ r.raises = false := by
  cases r with
  | array element | set element =>
    simp only [parseReply, map_eq_ok, RedisReply.raises, ← parseElements_isOk element]
    constructor
    · rintro ⟨_, vs, hvs, -⟩
      exact ⟨vs, hvs⟩
    · rintro ⟨vs, hvs⟩
      exact ⟨_, vs, hvs, rfl⟩
  | _ => simp [parseReply, RedisReply.raises]

/-- The elements of an array are parsed exactly when none of them throws. -/
theorem parseElements_isOk (element : List RedisReply) :
    (∃ vs, parseElements element = .ok vs) ↔ RedisReply.raisesAny element = false := by
  cases element with
  | nil => simp [parseElements, RedisReply.raisesAny]
  | cons r rest =>
    simp only [parseElements, bind_eq_ok, RedisReply.raisesAny, Bool.or_eq_false_iff,
      ← parseReply_isOk r, ← parseElements_isOk rest]
    constructor
    · rintro ⟨_, v, hv, vs, hvs, -⟩
      exact ⟨⟨v, hv⟩, ⟨vs, hvs⟩⟩
    · rintro ⟨⟨v, hv⟩, ⟨vs, hvs⟩⟩
      exact ⟨_, v, hv, vs, hvs, rfl⟩

end

/-- Every element is parsed to the item at its position. -/
theorem parseElements_getElem? {element : List RedisReply} {vs : List QVariant}
    (h : parseElements element = .ok vs) {i : ℕ} {r : RedisReply} (hr : element[i]? = some r) :
    ∃ v, parseReply r = .ok v ∧ vs[i]? = some v := by
  induction element generalizing vs i with
  | nil => cases hr
  | cons first rest ih =>
    obtain ⟨v, hv, h⟩ := bind_eq_ok.mp h
    obtain ⟨more, hmore, h⟩ := bind_eq_ok.mp h
    obtain rfl : v :: more = vs := Except.ok.inj h
    cases i with
    | zero =>
      obtain rfl : first = r := Option.some.inj hr
      exact ⟨v, hv, rfl⟩
    | succ i => exact ih hmore hr

/-- What stands at a path of a reply is parsed to what stands at the path of the message. -/
theorem parseReply_at {r stored : RedisReply} {v : QVariant} {path : List ℕ}
    (h : parseReply r = .ok v) (hat : r.at path = some stored) :
    ∃ item, parseReply stored = .ok item ∧ itemAt v path = some item := by
  induction path generalizing r v with
  | nil =>
    obtain rfl : r = stored := Option.some.inj (by simpa [RedisReply.at] using hat)
    exact ⟨v, h, by rw [itemAt]⟩
  | cons i path ih =>
    have helement {element : List RedisReply}
        (h : (parseElements element).map QVariant.list = .ok v)
        (hat : element[i]?.bind (fun r => r.at path) = some stored) :
        ∃ item, parseReply stored = .ok item ∧ itemAt v (i :: path) = some item := by
      obtain ⟨vs, hvs, rfl⟩ := map_eq_ok.mp h
      obtain ⟨r', hr', hbelow⟩ := Option.bind_eq_some_iff.mp hat
      obtain ⟨v', hv', hget⟩ := parseElements_getElem? hvs hr'
      obtain ⟨item, hitem, hpath⟩ := ih hv' hbelow
      exact ⟨item, hitem, by rw [itemAt, hget, Option.bind_some, hpath]⟩
    cases r with
    | array element | set element => exact helement h hat
    | _ => cases hat

/-! ## Texts -/

/-- A text without a NUL is all of its C string. -/
theorem cString_toStdString {s : QString} (hs : validUtf16 s = true) (hnul : 0 ∉ s) :
    cString (toStdString s) = toStdString s := by
  rw [cString, takeWhile_toStdString hs hnul]
  simp

/-- The UTF-8 form of a text is read back from a C string exactly when the text has no NUL and no
byte-order mark at its front. -/
theorem fromUtf8_cString_iff {s : QString} (hs : validUtf16 s = true) :
    fromUtf8 (cString (toStdString s)) = s ↔ 0 ∉ s ∧ startsWithBom s = false := by
  by_cases hnul : 0 ∈ s
  · refine iff_of_false ?_ (fun h => h.1 hnul)
    intro heq
    have hlen := fromUtf8_takeWhile_length hs hnul [0]
    rw [← cString, heq] at hlen
    exact Nat.lt_irrefl _ hlen
  · rw [cString_toStdString hs hnul, fromUtf8_toStdString hs]
    cases hbom : startsWithBom s with
    | false => simp [hnul]
    | true =>
      refine iff_of_false ?_ (by simp)
      intro heq
      rw [if_pos rfl] at heq
      cases s with
      | nil => cases hbom
      | cons u s => simpa using congrArg List.length heq

/-! ## What was stored -/

/-- The argument of a command as the server reads it off the connection. -/
def received (argv : List Bytes) (i : ℕ) : Option Bytes :=
  (Resp.parseCommands (redisFormat argv)).bind (fun cmds => cmds.head?.bind (fun args => args[i]?))

/-- The server reads every argument as it was given. -/
theorem received_eq (argv : List Bytes) (i : ℕ) : received argv i = argv[i]? := by
  have hread := Resp.parseCommands_flatMap [argv]
  rw [List.flatMap_singleton] at hread
  rw [received, hread]
  rfl

/-- A text that was stored through an argument of a command and is returned as a string at some
place of a reply comes back at that place exactly when no element of the reply is an error or of an
unsupported type and the text has no NUL and no byte-order mark at its front. -/
theorem parseReply_stored_iff {s : QString} (hs : validUtf16 s = true) {argv : List Bytes} {i : ℕ}
    (hargv : argv[i]? = some (toStdString s)) {r : RedisReply} {path : List ℕ}
    (hat : r.at path = (received argv i).map .string) :
    (∃ v, parseReply r = .ok v ∧ itemAt v path = some (.leaf (.string s))) ↔
      r.raises = false ∧ 0 ∉ s ∧ startsWithBom s = false := by
  rw [received_eq, hargv, Option.map_some] at hat
  rw [← fromUtf8_cString_iff hs, ← parseReply_isOk]
  constructor
  · rintro ⟨v, hv, hitem⟩
    obtain ⟨item, hparse, hpath⟩ := parseReply_at hv hat
    rw [hpath, Option.some.injEq] at hitem
    subst hitem
    refine ⟨⟨v, hv⟩, ?_⟩
    simpa [parseReply] using hparse
  · rintro ⟨⟨v, hv⟩, htext⟩
    obtain ⟨item, hparse, hpath⟩ := parseReply_at hv hat
    refine ⟨v, hv, ?_⟩
    rw [parseReply, htext, Except.ok.injEq] at hparse
    rw [hpath, ← hparse]

/-- The text `ab` in an array within an array. -/
theorem parseReply_stored_nested :
    ∃ v, parseReply (.array [.integer 1, .array [.string [97, 98]]]) = .ok v ∧
      itemAt v [1, 0] = some (.leaf (.string [97, 98])) := by
  have hargv : ([[83, 69, 84], [107], [97, 98]] : List Bytes)[2]? = some (toStdString [97, 98]) :=
    rfl
  refine (parseReply_stored_iff rfl hargv ?_).mpr ⟨rfl, by decide, rfl⟩
  rw [received_eq]
  rfl

/-- The text `a`, NUL, `b` is stored whole, but comes back as `a`. -/
theorem parseReply_cut_at_nul :
    received [[83, 69, 84], [107], toStdString [97, 0, 98]] 2 = some [97, 0, 98] ∧
      parseReply (.string [97, 0, 98]) = .ok (.leaf (.string [97])) := by
  refine ⟨?_, by decide⟩
  rw [received_eq]
  rfl

end Radapter.Redis
