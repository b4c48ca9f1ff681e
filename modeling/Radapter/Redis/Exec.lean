import Radapter.Library.Runs
import Radapter.Lua.Strings
import Radapter.UnflattenText

/-!
# Commands of a script

`RedisCache:Exec` takes a query, a list of arguments and a callback, and leaves either of the last
two out. It tells the four forms apart by the number of arguments alone. The file models the call
from the Lua values of the script to the command for the client, with the callback that is told
the answer, and says for which calls the command, what is returned and what the callback is told
are as they are documented.
-/

namespace Radapter.Redis

open Library Lua

/-! ## The call -/

/-- An item of the `QVariantList` of call arguments. A Lua function is a variant of its own type. -/
inductive CallArg where
  | value (v : QVariant)
  | function (f : ℕ)

/-- `QVariant::toString`; `other` gives the text of what is neither a string nor a byte array. -/
def toText (other : QVariant → QString) : QVariant → QString
  | .leaf (.string s) => s
  | .leaf (.byteArray b) => fromUtf8 b
  | v => other v

/-- `QVariant::toString` of a call argument. A function has no text. -/
def CallArg.toString (other : QVariant → QString) : CallArg → QString
  | .value v => toText other v
  | .function _ => []

/-- `QVariant::toList`. -/
def CallArg.toList : CallArg → List QVariant
  | .value (.list items) => items
  | _ => []

/-- `value<LuaFunction>()`, null for anything but a function. -/
def CallArg.toFunction : CallArg → Option ℕ
  | .function f => some f
  | .value _ => none

/-- Where the answer of a command goes: to the subscribers of a promise that `Exec` returns, or to
a callback, which may be null, when `Exec` returns nil. -/
inductive Continuation where
  | promise
  | callback (cb : Option ℕ)
  deriving DecidableEq, Repr

/-- A call of `Exec`: the command given to the client, and what becomes of the answer. -/
structure Executed where
  command : List Bytes
  continuation : Continuation
  deriving DecidableEq, Repr

/-- `Cache::Exec`. -/
def Cache.Exec (other : QVariant → QString) (args : List CallArg) : Executed :=
  -- `QVariantList::value` is null behind the end.
  let value (i : ℕ) := args.getD i (.value .invalid)
  let rawcmd := ((value 0).toString other).splitOn 32
  let funcIdx := if args.length > 2 then 2 else 1
  let more := if args.length > 2 then (value 1).toList else []
  { command := rawcmd.map toStdString ++ more.map (fun arg => toStdString (toText other arg))
    continuation :=
      if args.length = funcIdx then .promise else .callback (value funcIdx).toFunction }

/-- A value on the Lua stack of the call. -/
inductive CallValue where
  | value (v : LuaValue)
  | function (f : ℕ)

/-- `toArgs`: each argument is pushed and converted. -/
def toArgs (fl : Floats) (lazy : ℕ → Path → Conversion) (room : ℕ) :
    List CallValue → Except String (List CallArg)
  | [] => .ok []
  | .function f :: rest => do
      let args ← toArgs fl lazy room rest
      .ok (.function f :: args)
  | .value v :: rest => do
      let arg ← toQVar fl lazy (room - 1) v
      let args ← toArgs fl lazy room rest
      .ok (.value arg :: args)

/-! ## The documented forms -/

/-- An element of an argument list. -/
inductive Element where
  | string (s : Bytes)
  | bytes (b : Bytes)
  | integer (n : BitVec 64)
  | number (bits : BitVec 64)
  | boolean (b : Bool)
  deriving DecidableEq, Repr

/-- The Lua value of an element. -/
def Element.toLua : Element → LuaValue
  | .string s => .string s
  | .bytes b => .bytes b
  | .integer n => .integer n
  | .number bits => .number bits
  | .boolean b => .boolean b

/-- The bytes of an element. Numbers and truth values are sent as Qt writes them. -/
def Element.content (other : QVariant → QString) : Element → Bytes
  | .string s => s
  | .bytes b => b
  | .integer n => toStdString (other (.leaf (.longlong n)))
  | .number bits => toStdString (other (.leaf (.double bits)))
  | .boolean b => toStdString (other (.leaf (.bool b)))

/-- The table `{e1, e2, ..}`. -/
def elementFields (i : ℕ) : List Element → Fields
  | [] => []
  | e :: rest => (.integer i, e.toLua) :: elementFields (i + 1) rest

/-- `Exec(query)`, `Exec(query, callback)`, `Exec(query, args)` or `Exec(query, args, callback)`. -/
structure Form where
  query : Bytes
  args : Option (List Element)
  callback : Option ℕ
  deriving DecidableEq, Repr

/-- The arguments of the call. -/
def Form.values (form : Form) : List CallValue :=
  .value (.string form.query) ::
    (form.args.toList.map (fun es => .value (.table (elementFields 1 es))) ++
      form.callback.toList.map .function)

/-- The elements of the argument list, none when it is left out. -/
def Form.elements (form : Form) : List Element := form.args.getD []

/-- The command as documented: the parts of the query between spaces, and the elements. -/
def Form.command (other : QVariant → QString) (form : Form) : List Bytes :=
  form.query.splitOn 32 ++ form.elements.map (Element.content other)

/-! ## Answers -/

/-- A reply, or the text of an error. -/
abbrev Answer := Except Bytes QVariant

/-- The calls of `Exec` on a worker, numbered as they are made: those whose future is not settled,
the answers of the others, and what callbacks were told. -/
structure CacheSession where
  executed : List Executed
  pending : List ℕ
  answered : List (ℕ × Answer)
  told : List (ℕ × ℕ × Answer)

/-- Before the first call. -/
def CacheSession.init : CacheSession := ⟨[], [], [], []⟩

/-- What `ResolveLuaCallback` tells: nothing without a function. -/
def tells (executed : List Executed) (e : ℕ × Answer) : Option (ℕ × ℕ × Answer) :=
  match (executed[e.1]?).map Executed.continuation with
  | some (.callback (some f)) => some (e.1, f, e.2)
  | _ => none

/-- The future of a call is settled. -/
def CacheSession.settle (s : CacheSession) (i : ℕ) (answer : Answer) : CacheSession :=
  { s with
    pending := s.pending.erase i
    answered := s.answered ++ [(i, answer)]
    told := s.told ++ (tells s.executed (i, answer)).toList }

/-- A further call, with its future. -/
def CacheSession.call (s : CacheSession) (called : Executed) : CacheSession :=
  { s with
    executed := s.executed ++ [called]
    pending := s.pending ++ [s.executed.length] }

/-- What happens to a worker: a call of `Exec`, whose future the client may have settled already,
as without a connection, or the answer to an earlier call. The server's replies and the end of a
connection call each pending command back once. -/
inductive CacheAction where
  | exec (args : List CallArg) (now : Option Answer)
  | answer (i : ℕ) (answer : Answer)

/-- A step of the worker. -/
def CacheSession.step (other : QVariant → QString) (s : CacheSession) :
    CacheAction → Option CacheSession
  | .exec args now =>
      let called := s.call (Cache.Exec other args)
      match now with
      | some answer => some (called.settle s.executed.length answer)
      | none => some called
  | .answer i answer => if i ∈ s.pending then some (s.settle i answer) else none

/-- The callback `f` of call `i` is told the answer once, when there is one. -/
def CacheSession.DeliveredOnce (s : CacheSession) (i f : ℕ) : Prop :=
  (i ∈ s.pending ∧ ∀ e ∈ s.told, e.1 ≠ i) ∨
    ∃ answer, (i, answer) ∈ s.answered ∧ s.told.filter (fun e => e.1 = i) = [(i, f, answer)]

/-- A call in one of the forms does what is documented: the client is given the command, a promise
is returned exactly when there is no callback, and whatever happens before and after, the callback
is told the answer once. -/
def Form.Correct (other : QVariant → QString) (form : Form) (args : List CallArg) : Prop :=
  (Cache.Exec other args).command = form.command other ∧
    ((Cache.Exec other args).continuation = .promise ↔ form.callback = none) ∧
    ∀ f ∈ form.callback, ∀ before s now after t,
      run (CacheSession.step other) .init before = some s →
        run (CacheSession.step other) s (.exec args now :: after) = some t →
          t.DeliveredOnce s.executed.length f

/-- UTF-8 without a byte-order mark at the front, which is what a `QString` keeps. -/
def TextKept (s : Bytes) : Prop := IsUtf8 s ∧ s.take 3 ≠ mark

/-- Strings and byte values of the argument list are kept; numbers and truth values always are. -/
def Element.Kept : Element → Prop
  | .string s => TextKept s
  | .bytes b => TextKept b
  | _ => True

/-! ## What callbacks are told -/

/-- Every call is pending or has its answer, and callbacks were told the answers of their calls. -/
structure CacheSession.Sound (s : CacheSession) : Prop where
  pending_lt : ∀ i ∈ s.pending, i < s.executed.length
  pending_nodup : s.pending.Nodup
  answered_lt : ∀ e ∈ s.answered, e.1 < s.executed.length
  answered_nodup : (s.answered.map Prod.fst).Nodup
  apart : ∀ e ∈ s.answered, e.1 ∉ s.pending
  all : ∀ i < s.executed.length, i ∈ s.pending ∨ ∃ answer, (i, answer) ∈ s.answered
  told_eq : s.told = s.answered.filterMap (tells s.executed)

/-- Before the first call nothing is pending. -/
theorem CacheSession.init_sound : CacheSession.init.Sound where
  pending_lt := by simp [CacheSession.init]
  pending_nodup := List.nodup_nil
  answered_lt := by simp [CacheSession.init]
  answered_nodup := List.nodup_nil
  apart := by simp [CacheSession.init]
  all := by simp [CacheSession.init]
  told_eq := rfl

/-- Further calls do not matter for the answer to an earlier one. -/
theorem tells_append {executed : List Executed} {e : ℕ × Answer} (h : e.1 < executed.length)
    (called : Executed) : tells (executed ++ [called]) e = tells executed e := by
  rw [tells, tells, List.getElem?_append_left h]

/-- A further call is pending. -/
theorem CacheSession.Sound.call {s : CacheSession} (h : s.Sound) (called : Executed) :
    (s.call called).Sound where
  pending_lt := by
    intro i hi
    rw [CacheSession.call, List.length_append, List.length_singleton]
    rcases List.mem_append.mp hi with hi | hi
    · exact Nat.lt_succ_of_lt (h.pending_lt i hi)
    · rw [List.mem_singleton.mp hi]
      exact Nat.lt_succ_self _
  pending_nodup := by
    refine List.nodup_append.mpr ⟨h.pending_nodup, List.nodup_singleton _, ?_⟩
    intro i hi j hj
    rw [List.mem_singleton.mp hj]
    exact Nat.ne_of_lt (h.pending_lt i hi)
  answered_lt := by
    intro e he
    rw [CacheSession.call, List.length_append]
    exact Nat.lt_succ_of_lt (h.answered_lt e he)
  answered_nodup := h.answered_nodup
  apart := by
    intro e he hpending
    rcases List.mem_append.mp hpending with hpending | hnew
    · exact h.apart e he hpending
    · exact Nat.ne_of_lt (h.answered_lt e he) (List.mem_singleton.mp hnew)
  all := by
    intro i hi
    rw [CacheSession.call, List.length_append, List.length_singleton] at hi
    rcases Nat.lt_succ_iff_lt_or_eq.mp hi with hi | rfl
    · exact (h.all i hi).imp_left (List.mem_append_left _)
    · exact .inl (List.mem_append_right _ (List.mem_singleton_self _))
  told_eq := by
    rw [CacheSession.call, h.told_eq]
    exact List.filterMap_congr fun e he => (tells_append (h.answered_lt e he) called).symm

/-- A pending call gets its answer, and its callback is told. -/
theorem CacheSession.Sound.settle {s : CacheSession} (h : s.Sound) {i : ℕ} (hi : i ∈ s.pending)
    (answer : Answer) : (s.settle i answer).Sound where
  pending_lt := fun j hj => h.pending_lt j (List.mem_of_mem_erase hj)
  pending_nodup := h.pending_nodup.erase i
  answered_lt := by
    intro e he
    rcases List.mem_append.mp he with he | he
    · exact h.answered_lt e he
    · rw [List.mem_singleton.mp he]
      exact h.pending_lt i hi
  answered_nodup := by
    rw [CacheSession.settle, List.map_append]
    refine List.nodup_append.mpr ⟨h.answered_nodup, List.nodup_singleton _, ?_⟩
    rintro _ hj j hk heq
    obtain ⟨e, he, rfl⟩ := List.mem_map.mp hj
    obtain rfl : j = i := List.mem_singleton.mp hk
    exact h.apart e he (heq ▸ hi)
  apart := by
    intro e he hpending
    rcases List.mem_append.mp he with he | he
    · exact h.apart e he (List.mem_of_mem_erase hpending)
    · rw [List.mem_singleton.mp he] at hpending
      exact (h.pending_nodup.mem_erase_iff.mp hpending).1 rfl
  all := by
    intro j hj
    by_cases hji : j = i
    · exact .inr ⟨answer, List.mem_append_right _ (by rw [hji]; exact List.mem_singleton_self _)⟩
    · rcases h.all j hj with hpending | ⟨other, hother⟩
      · exact .inl (h.pending_nodup.mem_erase_iff.mpr ⟨hji, hpending⟩)
      · exact .inr ⟨other, List.mem_append_left _ hother⟩
  told_eq := by
    rw [CacheSession.settle, h.told_eq, List.filterMap_append]
    congr 1

/-- A step of the worker makes calls and settles pending ones. -/
theorem CacheSession.Sound.step {other : QVariant → QString} {s t : CacheSession} (h : s.Sound)
    {a : CacheAction} (hstep : s.step other a = some t) : t.Sound := by
  cases a with
  | exec args now =>
    have hcall := h.call (Cache.Exec other args)
    have hnew : s.executed.length ∈ (s.call (Cache.Exec other args)).pending :=
      List.mem_append_right _ (List.mem_singleton_self _)
    cases now with
    | none =>
      cases hstep
      exact hcall
    | some answer =>
      cases hstep
      exact hcall.settle hnew answer
  | answer i answer =>
    obtain ⟨hi, rfl⟩ := of_guarded hstep
    exact h.settle hi answer

/-- Calls stay as they were made. -/
theorem CacheSession.executed_step {other : QVariant → QString} {s t : CacheSession}
    {a : CacheAction} (hstep : s.step other a = some t) : s.executed <+: t.executed := by
  cases a with
  | exec args now => cases now <;> cases hstep <;> exact List.prefix_append _ _
  | answer i answer =>
    obtain ⟨-, rfl⟩ := of_guarded hstep
    exact List.prefix_rfl

/-- A callback is told the answer of its own call. -/
theorem tells_fst {executed : List Executed} {e : ℕ × Answer} {told : ℕ × ℕ × Answer}
    (h : tells executed e = some told) : told.1 = e.1 := by
  unfold tells at h
  split at h
  · cases h
    rfl
  · cases h

/-- What callbacks were told of a call is its answer. -/
theorem told_of_answered {executed : List Executed} {i f : ℕ} {answer : Answer}
    (hcall : (executed[i]?).map Executed.continuation = some (.callback (some f)))
    {answered : List (ℕ × Answer)} (hnodup : (answered.map Prod.fst).Nodup)
    (h : (i, answer) ∈ answered) :
    (answered.filterMap (tells executed)).filter (fun e => e.1 = i) = [(i, f, answer)] := by
  obtain ⟨front, back, rfl⟩ := List.append_of_mem h
  have hothers {others : List (ℕ × Answer)} (hne : ∀ e ∈ others, e.1 ≠ i) :
      (others.filterMap (tells executed)).filter (fun e => e.1 = i) = [] := by
    refine List.filter_eq_nil_iff.mpr fun told htold => ?_
    obtain ⟨e, he, htells⟩ := List.mem_filterMap.mp htold
    rw [decide_eq_true_eq, tells_fst htells]
    exact hne e he
  have htells : tells executed (i, answer) = some (i, f, answer) := by
    simp only [tells, hcall]
  rw [List.map_append, List.map_cons, List.nodup_middle, List.nodup_cons, List.mem_append,
    not_or] at hnodup
  rw [List.filterMap_append, List.filterMap_cons, htells, List.filter_append, List.filter_cons,
    hothers, hothers, if_pos (by simp), List.nil_append]
  · exact fun e he heq => hnodup.1.2 (List.mem_map.mpr ⟨e, he, heq⟩)
  · exact fun e he heq => hnodup.1.1 (List.mem_map.mpr ⟨e, he, heq⟩)

/-- A call with a callback is pending and its callback was told nothing, or it was told the
answer. -/
theorem CacheSession.Sound.deliveredOnce {s : CacheSession} (h : s.Sound) {i f : ℕ}
    (hcall : (s.executed[i]?).map Executed.continuation = some (.callback (some f))) :
    s.DeliveredOnce i f := by
  have hlt : i < s.executed.length := by
    by_contra hge
    rw [List.getElem?_eq_none (by omega)] at hcall
    cases hcall
  rcases h.all i hlt with hpending | ⟨answer, hanswer⟩
  · refine .inl ⟨hpending, fun told htold heq => ?_⟩
    rw [h.told_eq] at htold
    obtain ⟨e, he, htells⟩ := List.mem_filterMap.mp htold
    exact h.apart e he (by rwa [← tells_fst htells, heq])
  · refine .inr ⟨answer, hanswer, ?_⟩
    rw [h.told_eq]
    exact told_of_answered hcall h.answered_nodup hanswer

/-- Whatever happens before and after a call, its callback is told the answer once. -/
theorem deliveredOnce_of_run {other : QVariant → QString} {before after : List CacheAction}
    {s t : CacheSession} {args : List CallArg} {now : Option Answer} {f : ℕ}
    (hcb : (Cache.Exec other args).continuation = .callback (some f))
    (hbefore : run (CacheSession.step other) .init before = some s)
    (hafter : run (CacheSession.step other) s (.exec args now :: after) = some t) :
    t.DeliveredOnce s.executed.length f := by
  have hs : s.Sound :=
    run_invariant_of_step (fun h hstep => h.step hstep) CacheSession.init_sound hbefore
  have ht : t.Sound := run_invariant_of_step (fun h hstep => h.step hstep) hs hafter
  obtain ⟨called, hcalled, hrun⟩ := Option.bind_eq_some_iff.mp hafter
  have hexecuted : s.executed ++ [Cache.Exec other args] <+: called.executed := by
    cases now <;> cases hcalled <;> exact List.prefix_rfl
  have hstep : ∀ {u w : CacheSession} {a : CacheAction},
      s.executed ++ [Cache.Exec other args] <+: u.executed → u.step other a = some w →
        s.executed ++ [Cache.Exec other args] <+: w.executed :=
    fun hpre hstep => hpre.trans (CacheSession.executed_step hstep)
  obtain ⟨more, hmore⟩ := run_invariant_of_step hstep hexecuted hrun
  apply ht.deliveredOnce
  rw [← hmore, List.getElem?_append_left (by simp), List.getElem?_concat_length, Option.map_some,
    hcb]

/-! ## The command -/

/-- Splitting a text at its spaces splits its UTF-8 form at its spaces. -/
theorem toStdString_space (q rest : QString) :
    toStdString (q ++ 32 :: rest) = toStdString q ++ 32 :: toStdString rest := by
  have hspace : toStdString (32 :: rest) = 32 :: toStdString rest := by
    cases rest with
    | nil => rfl
    | cons u rest =>
      rw [toStdString, if_neg (by simp [isHighSurrogate])]
      rfl
  induction q using toStdString.induct with
  | case1 => exact hspace
  | case2 u =>
    have hsplit : toStdString (u :: 32 :: rest) = encodeUnit u ++ toStdString (32 :: rest) := by
      rw [toStdString, if_neg (by simp [isLowSurrogate])]
    rw [List.singleton_append, hsplit, hspace, toStdString]
  | case3 u v q hpair ih =>
    rw [List.cons_append, List.cons_append, toStdString, if_pos hpair, ih, toStdString,
      if_pos hpair, List.append_assoc]
  | case4 u v q hpair ih =>
    rw [List.cons_append] at ih
    rw [List.cons_append, List.cons_append, toStdString, if_neg hpair, ih, toStdString,
      if_neg hpair, List.append_assoc]

/-- A space in the UTF-8 form of a text is a space of the text. -/
theorem space_mem_of_toStdString {q : QString} (h : 32 ∈ toStdString q) : 32 ∈ q := by
  have hunit {u : UInt16} (hu : 32 ∈ encodeUnit u) : 32 = u := by
    unfold encodeUnit at hu
    split at hu
    · exact absurd hu (by decide)
    · next hscalar =>
      simp only [isHighSurrogate, isLowSurrogate, Bool.or_eq_true, Bool.and_eq_true,
        decide_eq_true_eq] at hscalar
      have hlt := u.toNat_lt
      have hu' := mem_encodePoint_ascii (by unfold IsScalar; omega) hu (by decide)
      exact UInt16.toNat_inj.mp (by simpa using hu'.symm)
  induction q using toStdString.induct with
  | case1 => cases h
  | case2 u => exact List.mem_singleton.mpr (hunit h)
  | case3 u v q hpair ih =>
    rw [toStdString, if_pos hpair, List.mem_append] at h
    simp only [isHighSurrogate, isLowSurrogate, Bool.and_eq_true, decide_eq_true_eq] at hpair
    rcases h with h | h
    · have hlarge : 0x10000 ≤ surrogatePoint u v := by
        unfold surrogatePoint
        omega
      have hscalar : IsScalar (surrogatePoint u v) := by
        unfold IsScalar surrogatePoint
        omega
      have hpoint := mem_encodePoint_ascii hscalar h (by decide)
      rw [hpoint] at hlarge
      exact absurd hlarge (by decide)
    · exact List.mem_cons_of_mem _ (List.mem_cons_of_mem _ (ih h))
  | case4 u v q hpair ih =>
    rw [toStdString, if_neg hpair, List.mem_append] at h
    rcases h with h | h
    · rw [← hunit h]
      exact List.mem_cons_self
    · exact List.mem_cons_of_mem _ (ih h)

/-- The parts of a text between spaces are the parts of its UTF-8 form. -/
theorem toStdString_splitOn (q : QString) :
    (q.splitOn 32).map toStdString = (toStdString q).splitOn 32 := by
  induction hlen : q.length using Nat.strongRecOn generalizing q with
  | ind n ih =>
    by_cases hspace : 32 ∈ q
    · obtain ⟨front, back, rfl, hfront⟩ := List.eq_append_cons_of_mem hspace
      have hless : back.length < n := by
        simp only [List.length_append, List.length_cons] at hlen
        omega
      rw [toStdString_space, List.splitOn_append_cons_self_of_not_mem hfront,
        List.splitOn_append_cons_self_of_not_mem (fun h => hfront (space_mem_of_toStdString h)),
        List.map_cons, ih back.length hless back rfl]
    · rw [List.splitOn_eq_singleton hspace,
        List.splitOn_eq_singleton (fun h => hspace (space_mem_of_toStdString h))]
      rfl

/-! ## The call as it is converted -/

/-- Lua leaves at least so many free slots on the stack to a function of C. -/
def LUA_MINSTACK : ℕ := 20

/-- The variant of an element. -/
def Element.toVariant : Element → QVariant
  | .string s => .leaf (toStrOrBinary s)
  | .bytes b => .leaf (.byteArray b)
  | .integer n => .leaf (.longlong n)
  | .number bits => .leaf (.double bits)
  | .boolean b => .leaf (.bool b)

/-- The variant of an argument list; an empty table is a map. -/
def listVariant : List Element → QVariant
  | [] => .map []
  | e :: rest => .list ((e :: rest).map Element.toVariant)

/-- The arguments of the call as `Exec` gets them. -/
def Form.callArgs (form : Form) : List CallArg :=
  .value (.leaf (toStrOrBinary form.query)) ::
    (form.args.toList.map (fun es => .value (listVariant es)) ++
      form.callback.toList.map .function)

section Convert

variable (fl : Floats) (lazy : ℕ → Path → Conversion) (room : ℕ)

/-- An element of an argument list converts to one variant, at any room. -/
theorem toQVar_element (e : Element) : toQVar fl lazy room e.toLua = .ok e.toVariant := by
  cases e <;> rfl

/-- The fields of an argument list are found by their positions. -/
theorem lookup_elementFields (es : List Element) (i j : ℕ) :
    (toQVarFields fl lazy room (elementFields i es)).lookup (.integer ((i + j : ℕ) : ℤ)) =
      (es[j]?).map (fun e => .ok e.toVariant) := by
  induction es generalizing i j with
  | nil => rfl
  | cons e rest ih =>
    rw [elementFields, toQVarFields, List.lookup_cons]
    cases j with
    | zero => simp [toQVar_element]
    | succ j =>
      have hne : (LuaKey.integer ((i + (j + 1) : ℕ) : ℤ) == LuaKey.integer (i : ℤ)) = false := by
        rw [beq_eq_false_iff_ne, ne_eq, LuaKey.integer.injEq]
        omega
      have hrest := ih (i + 1) j
      rw [show i + 1 + j = i + (j + 1) by omega] at hrest
      rw [hne, hrest]
      rfl

/-- A table has as many fields as elements. -/
theorem length_elementFields (es : List Element) (i : ℕ) :
    (elementFields i es).length = es.length := by
  induction es generalizing i with
  | nil => rfl
  | cons e rest ih => rw [elementFields, List.length_cons, ih, List.length_cons]

/-- An argument list becomes the list of its variants. -/
theorem toQVar_elementFields (hroom : 3 ≤ room) (es : List Element) :
    toQVar fl lazy room (.table (elementFields 1 es)) = .ok (listVariant es) := by
  have hcollect : collectList (toQVarFields fl lazy (room - 2) (elementFields 1 es))
      (elementFields 1 es).length 1 = .ok (es.map Element.toVariant) := by
    apply collectList_eq
    · intro j v hv
      rw [List.getElem?_map, Option.map_eq_some_iff] at hv
      obtain ⟨e, he, rfl⟩ := hv
      rw [lookup_elementFields, he]
      rfl
    · rw [List.length_map, lookup_elementFields, List.getElem?_eq_none (Nat.le_refl _)]
      rfl
    · rw [List.length_map, length_elementFields]
  cases es with
  | nil => rw [toQVar, if_neg (by omega)]; rfl
  | cons e rest =>
    have hfirst : (rawget (elementFields 1 (e :: rest)) (.integer 1)).isNil = false := by
      cases e <;> rfl
    rw [toQVar, if_neg (by omega), hfirst, if_neg Bool.false_ne_true, hcollect]
    rfl

/-- What `toArgs` makes of a call in one of the forms. -/
theorem toArgs_values (hroom : LUA_MINSTACK ≤ room) (form : Form) :
    toArgs fl lazy room form.values = .ok form.callArgs := by
  have hlist (es : List Element) : toQVar fl lazy (room - 1) (.table (elementFields 1 es)) =
      .ok (listVariant es) :=
    toQVar_elementFields fl lazy (room - 1) (by unfold LUA_MINSTACK at hroom; omega) es
  have hquery (s : Bytes) :
      toQVar fl lazy (room - 1) (.string s) = .ok (.leaf (toStrOrBinary s)) := rfl
  obtain ⟨query, args, callback⟩ := form
  cases args <;> cases callback <;>
    simp [Form.values, Form.callArgs, toArgs, hlist, hquery, bind, Except.bind]

end Convert

/-! ## The four forms -/

section Forms

variable (other : QVariant → QString)

/-- The text of a string argument has its bytes exactly when they are kept. -/
theorem toText_string_iff (s : Bytes) :
    toStdString (toText other (.leaf (toStrOrBinary s))) = s ↔ TextKept s := by
  refine toStdString_toStrOrBinary_iff ?_
  unfold toStrOrBinary
  split
  · exact .inr ⟨_, rfl, rfl⟩
  · exact .inl rfl

/-- An element is sent with its bytes exactly when they are kept. -/
theorem toText_element_iff (e : Element) :
    toStdString (toText other e.toVariant) = e.content other ↔ e.Kept := by
  cases e with
  | string s => exact toText_string_iff other s
  | bytes b => exact toStdString_fromUtf8_eq_iff
  | integer n => exact iff_of_true rfl trivial
  | number bits => exact iff_of_true rfl trivial
  | boolean b => exact iff_of_true rfl trivial

/-- The items of an argument list. -/
theorem toList_listVariant (es : List Element) :
    (CallArg.value (listVariant es)).toList = es.map Element.toVariant := by
  cases es <;> rfl

/-- `Exec` on a call in one of the forms: the argument list is looked at only before a callback. -/
theorem Exec_callArgs (form : Form) :
    Cache.Exec other form.callArgs =
      { command := (toStdString (toText other (.leaf (toStrOrBinary form.query)))).splitOn 32 ++
          (if form.callback = none then [] else form.elements).map
            (fun e => toStdString (toText other e.toVariant))
        continuation :=
          if form.args = none ∧ form.callback = none then .promise
          else .callback form.callback } := by
  obtain ⟨query, args, callback⟩ := form
  cases args <;> cases callback <;>
    simp [Cache.Exec, Form.callArgs, Form.elements, CallArg.toString, CallArg.toFunction,
      toStdString_splitOn, toList_listVariant]

/-- The command is the documented one exactly when the query and the elements are kept, as long as
no argument list is left out. -/
theorem command_eq_iff {form : Form} (h : form.args = none ∨ form.callback ≠ none) :
    (Cache.Exec other form.callArgs).command = form.command other ↔
      TextKept form.query ∧ ∀ e ∈ form.elements, e.Kept := by
  have helements : (if form.callback = none then [] else form.elements) = form.elements := by
    split
    · next hcb =>
      have hargs : form.args = none := h.resolve_right (fun hne => hne hcb)
      rw [Form.elements, hargs]
      rfl
    · rfl
  have hback (s : Bytes) : [(32 : UInt8)].intercalate (s.splitOn 32) = s :=
    List.intercalate_splitOn 32
  have hsplit {a b : Bytes} (hab : a.splitOn 32 = b.splitOn 32) : a = b := by
    rw [← hback a, hab, hback]
  rw [Exec_callArgs, helements, Form.command]
  simp only [← toText_element_iff other, ← toText_string_iff other form.query]
  constructor
  · intro heq
    obtain ⟨hquery, helems⟩ := List.append_inj' heq (by simp)
    exact ⟨hsplit hquery, List.map_inj_left.mp helems⟩
  · rintro ⟨hquery, helems⟩
    rw [hquery, List.map_congr_left helems]

end Forms

/-- A call in one of the documented forms sends the documented command, returns a promise exactly
when it has no callback and tells its callback the answer once, if and only if it has no argument
list without a callback, and the query and the strings among the elements are UTF-8 without a
byte-order mark at the front. -/
theorem exec_correct_iff (fl : Floats) (lazy : ℕ → Path → Conversion)
    (other : QVariant → QString) {room : ℕ} (hroom : LUA_MINSTACK ≤ room) (form : Form) :
    (∃ args, toArgs fl lazy room form.values = .ok args ∧ form.Correct other args) ↔
      (form.args = none ∨ form.callback ≠ none) ∧ TextKept form.query ∧
        ∀ e ∈ form.elements, e.Kept := by
  simp only [toArgs_values fl lazy room hroom, Except.ok.injEq, exists_eq_left', Form.Correct]
  constructor
  · rintro ⟨hcommand, hpromise, -⟩
    have hform : form.args = none ∨ form.callback ≠ none := by
      by_contra hleft
      simp only [not_or, not_not] at hleft
      have hreturned := hpromise.mpr hleft.2
      rw [Exec_callArgs] at hreturned
      simp [hleft.1] at hreturned
    exact ⟨hform, (command_eq_iff other hform).mp hcommand⟩
  · rintro ⟨hform, hkept⟩
    have hcontinuation : (Cache.Exec other form.callArgs).continuation =
        if form.args = none ∧ form.callback = none then .promise else .callback form.callback := by
      rw [Exec_callArgs]
    refine ⟨(command_eq_iff other hform).mpr hkept, ?_, ?_⟩
    · rw [hcontinuation]
      by_cases hcb : form.callback = none
      · have hargs : form.args = none := hform.resolve_right (fun hne => hne hcb)
        simp [hargs, hcb]
      · simp [hcb]
    · intro f hf before s now after t hbefore hafter
      have hcb : form.callback = some f := hf
      refine deliveredOnce_of_run ?_ hbefore hafter
      rw [hcontinuation, hcb, if_neg (by simp)]

/-- `Exec("HSET k", {"a", "1"})`, with a callback or without. -/
def hset (callback : Option ℕ) : Form :=
  ⟨[72, 83, 69, 84, 32, 107], some [.string [97], .string [49]], callback⟩

/-- An argument list followed by a callback does what is documented. -/
theorem exec_correct_hset :
    ∃ args, toArgs Floats.unused (fun _ _ => .ok .invalid) LUA_MINSTACK (hset (some 7)).values =
      .ok args ∧ (hset (some 7)).Correct (fun _ => []) args := by
  have hascii {s : Bytes} (points : List ℕ) (hpoints : ∀ c ∈ points, IsScalar c)
      (hs : s = points.flatMap encodePoint) (hmark : s.take 3 ≠ mark) : TextKept s :=
    ⟨⟨points, hpoints, hs⟩, hmark⟩
  refine (exec_correct_iff Floats.unused (fun _ _ => .ok .invalid) (fun _ => [])
    (Nat.le_refl LUA_MINSTACK) (hset (some 7))).mpr ⟨.inr (by decide), ?_, ?_⟩
  · exact hascii [72, 83, 69, 84, 32, 107] (by decide) (by decide) (by decide)
  · intro e he
    simp only [Form.elements, hset, Option.getD_some, List.mem_cons, List.not_mem_nil,
      or_false] at he
    rcases he with rfl | rfl
    · exact hascii [97] (by decide) (by decide) (by decide)
    · exact hascii [49] (by decide) (by decide) (by decide)

/-- Without a callback the argument list is taken for one: the elements are not sent, and what is
returned is nil. -/
theorem exec_args_without_callback :
    ∃ args, toArgs Floats.unused (fun _ _ => .ok .invalid) LUA_MINSTACK (hset none).values =
        .ok args ∧
      Cache.Exec (fun _ => []) args = ⟨[[72, 83, 69, 84], [107]], .callback none⟩ ∧
      ¬ (hset none).Correct (fun _ => []) args := by
  have hexec : Cache.Exec (fun _ => []) (hset none).callArgs =
      ⟨[[72, 83, 69, 84], [107]], .callback none⟩ := by decide
  refine ⟨_, toArgs_values _ _ _ (Nat.le_refl _) _, hexec, ?_⟩
  rintro ⟨-, hpromise, -⟩
  have hreturned := hpromise.mpr rfl
  rw [hexec] at hreturned
  cases hreturned

end Radapter.Redis
