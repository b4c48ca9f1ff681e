import Radapter.Merge.Diff
import Radapter.UnflattenRebuild
import Radapter.Library.Runs

/-!
# The cache of a Redis hash

A cache worker reads its whole hash at every event for the key, merges what it has read into its
state and sends the difference that `MergePatch` noted, if that returns a number of affected keys.
A consumer merges one difference after the other. It has the cache's state as long as no poll reads
a value again that the state has already while another one is new, and no poll changes what
`MergePatch` does not count.
-/

namespace Radapter.Redis

open Library

section Poll

-- what `operator==` says of two leaves, and `QVariant::toString`
variable (eq : Scalar → Scalar → Bool) (text : QVariant → QString)

/-- The loop of `poll` over a reply: a name and a value each, an odd one out is left. -/
def flatReply : List QVariant → FlatMap
  | [] => []
  | [_] => []
  | name :: value :: rest => (toStdString (text name), value) :: flatReply rest

/-- The state after a poll, and the message that is sent. -/
structure Polled where
  state : QVariant
  message : Option QVariant

/-- `Cache::poll` with the reply to its `HGETALL`. A reply that is not a list is an error. -/
def Cache.poll (state resp : QVariant) : Polled :=
  match resp with
  | .list items =>
      let merged := MergePatch eq state (some .invalid) (Unflatten .invalid (flatReply text items))
      ⟨merged.out, if merged.result ≠ 0 then merged.diff else none⟩
  | .map _ => ⟨state, none⟩
  | .leaf _ => ⟨state, none⟩

/-- A cache and a consumer of its messages. -/
structure Followed where
  cache : QVariant
  held : QVariant
  deriving DecidableEq

/-- A reply, the maps in it as `QMap` keeps them. -/
abbrev HashReply := {resp : QVariant // resp.Ascending}

/-- A poll. The consumer merges the message, if there is one. -/
def Followed.step (merge : QVariant → QVariant → QVariant) (f : Followed) (resp : HashReply) :
    Option Followed :=
  let polled := Cache.poll eq text f.cache resp.1
  some ⟨polled.state, (polled.message.map (merge f.held)).getD f.held⟩

/-- The patch has a value that is counted and none that is there already, or no change at all. -/
def passedOn (state patch : QVariant) : Bool :=
  if counted eq state patch then !repeated eq state patch else !uncounted state patch

/-- The condition for a poll. -/
def Followed.informed (f : Followed) (resp : HashReply) : Bool :=
  match resp.1 with
  | .list items => passedOn eq f.cache (Unflatten .invalid (flatReply text items))
  | .map _ => true
  | .leaf _ => true

end Poll

variable {eq : Scalar → Scalar → Bool} {text : QVariant → QString}

/-- The values of a reply are as `QMap` keeps them. -/
theorem ascending_flatReply {items : List QVariant} (hitems : QVariant.AscendingList items) :
    ∀ it ∈ flatReply text items, it.2.Ascending := by
  induction items using flatReply.induct with
  | case1 => simp [flatReply]
  | case2 item => simp [flatReply]
  | case3 name value rest ih =>
    rw [flatReply, List.forall_mem_cons]
    exact ⟨hitems.2.1, ih hitems.2.2⟩

/-- What a reply is rebuilt to is a patch with its keys in order. -/
theorem ascending_reply {items : List QVariant} (hitems : (QVariant.list items).Ascending) :
    (Unflatten .invalid (flatReply text items)).Ascending :=
  ascending_Unflatten (ascending_flatReply hitems) trivial

section Poll

variable (hnull : ∀ s, s ≠ .invalid → eq .invalid s = false ∧ eq s .invalid = false)
  {merge : QVariant → QVariant → QVariant}
  {loop : List (QString × QVariant) → List (QString × QVariant) → List (QString × QVariant)}

include hnull

/-- A poll that meets the condition keeps the consumer at the state of the cache. -/
theorem held_of_informed (h : EntryMerge eq merge loop) {f t : Followed} {resp : HashReply}
    (hsame : f.held = f.cache)
    (hinformed : f.informed eq text resp = true)
    (hstep : Followed.step eq text merge f resp = some t) : t.held = t.cache := by
  obtain rfl := Option.some.inj hstep
  obtain ⟨resp, hresp⟩ := resp
  cases resp with
  | leaf s => exact hsame
  | map entries => exact hsame
  | list items =>
    have hpatch : (Unflatten .invalid (flatReply text items)).Ascending := ascending_reply hresp
    simp only [Followed.informed, passedOn] at hinformed
    simp only [Cache.poll, diff_MergePatch f.cache hpatch, ne_eq, ite_not,
      (MergePatch_diff f.cache (some .invalid) (Unflatten .invalid (flatReply text items))).1,
      (MergePatch_diff f.cache (some .invalid) (Unflatten .invalid (flatReply text items))).2,
      result_eq_zero_iff hpatch]
    cases hcounted : counted eq f.cache (Unflatten .invalid (flatReply text items)) with
    | true =>
      rw [hcounted, if_pos rfl, Bool.not_eq_true'] at hinformed
      rw [if_neg Bool.true_eq_false_eq_False, Option.map_some, Option.getD_some, hsame]
      exact (merge_noted hnull h hpatch f.cache).1 hinformed
    | false =>
      rw [hcounted, if_neg Bool.false_ne_true, Bool.not_eq_true'] at hinformed
      rw [if_pos rfl, Option.map_none, Option.getD_none, hsame]
      exact (unchanged_of_no_change (fun s hs => (hnull s hs).1) hpatch hcounted hinformed).symm

/-- A poll that does not meet it leads the consumer to another state. -/
theorem held_ne_of_not_informed (h : EntryMerge eq merge loop) {f t : Followed} {resp : HashReply}
    (hsame : f.held = f.cache)
    (hinformed : ¬ f.informed eq text resp = true)
    (hstep : Followed.step eq text merge f resp = some t) : t.held ≠ t.cache := by
  obtain rfl := Option.some.inj hstep
  obtain ⟨resp, hresp⟩ := resp
  cases resp with
  | leaf s => exact absurd rfl hinformed
  | map entries => exact absurd rfl hinformed
  | list items =>
    have hpatch : (Unflatten .invalid (flatReply text items)).Ascending := ascending_reply hresp
    simp only [Followed.informed, passedOn] at hinformed
    simp only [Cache.poll, diff_MergePatch f.cache hpatch, ne_eq, ite_not,
      (MergePatch_diff f.cache (some .invalid) (Unflatten .invalid (flatReply text items))).1,
      (MergePatch_diff f.cache (some .invalid) (Unflatten .invalid (flatReply text items))).2,
      result_eq_zero_iff hpatch]
    cases hcounted : counted eq f.cache (Unflatten .invalid (flatReply text items)) with
    | true =>
      rw [hcounted, if_pos rfl, Bool.not_eq_true, Bool.not_eq_false'] at hinformed
      rw [if_neg Bool.true_eq_false_eq_False, Option.map_some, Option.getD_some, hsame]
      exact (merge_noted hnull h hpatch f.cache).2 hinformed (· = ·) entryRelation_eq
    | false =>
      rw [hcounted, if_neg Bool.false_ne_true, Bool.not_eq_true, Bool.not_eq_false'] at hinformed
      rw [if_pos rfl, Option.map_none, Option.getD_none, hsame]
      exact ne_of_uncounted hpatch hinformed

/-- In every run the consumer has the state of the cache after every poll, if and only if every poll
meets the condition. -/
theorem held_iff_informed (h : EntryMerge eq merge loop) (start : QVariant)
    (polls : List HashReply) :
    (∀ done t, done <+: polls →
        run (Followed.step eq text merge) ⟨start, start⟩ done = some t → t.held = t.cache) ↔
      Along (Followed.step eq text merge) (fun f resp => f.informed eq text resp = true)
        ⟨start, start⟩ polls := by
  obtain ⟨t, hrun⟩ : ∃ t, run (Followed.step eq text merge) ⟨start, start⟩ polls = some t := by
    apply exists_run
    intro f resp
    exact ⟨_, rfl⟩
  exact forall_run_iff_along (held_of_informed hnull h) id (held_ne_of_not_informed hnull h) rfl
    hrun

end Poll

variable (text) in
/-- For the merge of the RFC and for `MergePatch` itself: the difference that `MergePatch` notes,
merged into the old message, gives the new one if and only if the patch repeats no value; and a
consumer of the messages of a cache has its state after every poll if and only if every poll that
has something new repeats no value, and every other one changes nothing. -/
theorem diff_followed_iff
    (hnull : ∀ s, s ≠ .invalid → eq .invalid s = false ∧ eq s .invalid = false)
    {merge : QVariant → QVariant → QVariant}
    (hmerge : merge = jsonMerge ∨ merge = fun out patch => (MergePatch eq out none patch).out) :
    (∀ s p : QVariant, p.Ascending →
      (merge s (noted eq s p) = (MergePatch eq s (some .invalid) p).out ↔
        repeated eq s p = false) ∧
      (QVariant.equals eq (merge s (noted eq s p)) (MergePatch eq s (some .invalid) p).out = true →
        repeated eq s p = false)) ∧
    ∀ (start : QVariant) (polls : List HashReply),
      (∀ done t, done <+: polls →
          run (Followed.step eq text merge) ⟨start, start⟩ done = some t → t.held = t.cache) ↔
        Along (Followed.step eq text merge) (fun f resp => f.informed eq text resp = true)
          ⟨start, start⟩ polls := by
  obtain ⟨loop, h⟩ : ∃ loop, EntryMerge eq merge loop := by
    rcases hmerge with rfl | rfl
    · exact ⟨_, entryMerge_jsonMerge⟩
    · exact ⟨_, entryMerge_MergePatch⟩
  refine ⟨?_, held_iff_informed hnull h⟩
  intro s p hp
  obtain ⟨hnew, hold⟩ := merge_noted hnull h hp s
  rw [(MergePatch_diff s (some .invalid) p).1]
  refine ⟨⟨?_, hnew⟩, ?_⟩
  · intro hsame
    by_contra hrepeated
    exact hold (Bool.eq_true_of_not_eq_false hrepeated) (· = ·) entryRelation_eq hsame
  · intro hequal
    by_contra hrepeated
    exact hold (Bool.eq_true_of_not_eq_false hrepeated) _ (entryRelation_equals hnull) hequal

/-- The text of a value that is one. -/
def textOf : QVariant → QString
  | .leaf (.string s) => s
  | .leaf _ => []
  | .list _ => []
  | .map _ => []

/-- The reply for a hash with these fields. -/
def hashReply (fields : List (QString × QString)) : HashReply :=
  ⟨.list (fields.flatMap (fun field => [.leaf (.string field.1), .leaf (.string field.2)])), by
    rw [QVariant.Ascending, QVariant.ascendingList_iff]
    intro v hv
    obtain ⟨field, -, hv⟩ := List.mem_flatMap.mp hv
    rcases List.mem_pair.mp hv with rfl | rfl
    · trivial
    · trivial⟩

/-- A hash with one field that gets a new value. -/
theorem diff_followed_one :
    (jsonMerge (.map [([97], .leaf (.string [49]))])
        (noted (· == ·) (.map [([97], .leaf (.string [49]))])
          (.map [([97], .leaf (.string [50]))])) =
      (MergePatch (· == ·) (.map [([97], .leaf (.string [49]))]) (some .invalid)
        (.map [([97], .leaf (.string [50]))])).out) ∧
    ∀ done t, done <+: [hashReply [([97], [49])], hashReply [([97], [50])]] →
      run (Followed.step (· == ·) textOf jsonMerge) ⟨.invalid, .invalid⟩ done = some t →
        t.held = t.cache := by
  have hnull : ∀ s : Scalar, s ≠ .invalid →
      (Scalar.invalid == s) = false ∧ (s == .invalid) = false :=
    fun s hs => ⟨beq_eq_false_iff_ne.mpr (Ne.symm hs), beq_eq_false_iff_ne.mpr hs⟩
  obtain ⟨hlaw, hruns⟩ := diff_followed_iff textOf hnull (Or.inl rfl)
  refine ⟨(hlaw _ _ ?_).1.mpr (by decide), (hruns _ _).mpr (by decide)⟩
  simp [QVariant.Ascending, QVariant.AscendingMap]

/-- The message `{"a": "1"}` and the patch `{"a": "1", "b": "2"}`: the difference removes `a`. A
hash with the two fields gets a new `b`, and a consumer loses `a`. -/
theorem diff_removes_repeated :
    let s : QVariant := .map [([97], .leaf (.string [49]))]
    let p : QVariant := .map [([97], .leaf (.string [49])), ([98], .leaf (.string [50]))]
    (MergePatch (· == ·) s (some .invalid) p).out = p ∧
      noted (· == ·) s p = .map [([97], .invalid), ([98], .leaf (.string [50]))] ∧
      jsonMerge s (noted (· == ·) s p) = .map [([98], .leaf (.string [50]))] ∧
      jsonMerge s (noted (· == ·) s p) ≠ (MergePatch (· == ·) s (some .invalid) p).out ∧
      run (Followed.step (· == ·) textOf jsonMerge) ⟨.invalid, .invalid⟩
          [hashReply [([97], [49]), ([98], [49])], hashReply [([97], [49]), ([98], [50])]] =
        some ⟨p, .map [([98], .leaf (.string [50]))]⟩ := by
  decide

end Radapter.Redis
