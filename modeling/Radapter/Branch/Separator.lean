import Radapter.Lazy.Session

/-!
# Joining two keys

A path of two keys with a separator between them is cut into the parts of the first and then those
of the second, unless an occurrence of the separator begins in one of the three pieces and ends in
the next. A separator of one character, which is a byte or the UTF-8 form of a code point, cannot
do that, because its first byte does not stand in it again.
-/

namespace Radapter.Branch

open Lua Lazy

/-- The separator is one character: a byte, or a code point in UTF-8. -/
def OneCharacter (sep : Bytes) : Prop := sep.length = 1 ∨ ∃ c, IsScalar c ∧ sep = encodePoint c

/-- No byte in the middle of a code point begins one. -/
private theorem continuation_ne_lead {m n : ℕ} (hm : m < 64) (hn : n < 56) :
    UInt8.ofNat (0xC0 + n) ≠ UInt8.ofNat (0x80 + m) := by
  intro h
  have hbyte := congrArg UInt8.toNat h
  rw [UInt8.toNat_ofNat', UInt8.toNat_ofNat', Nat.mod_eq_of_lt (by omega),
    Nat.mod_eq_of_lt (by omega)] at hbyte
  omega

/-- The first byte of a separator of one character does not stand in it again. -/
theorem OneCharacter.exists_head {sep : Bytes} (h : OneCharacter sep) :
    ∃ first tail, sep = first :: tail ∧ first ∉ tail := by
  rcases h with h | ⟨c, hc, rfl⟩
  · obtain ⟨b, rfl⟩ := List.length_eq_one_iff.mp h
    exact ⟨b, [], rfl, List.not_mem_nil⟩
  · have hmax : c ≤ 0x10FFFF := by
      unfold IsScalar at hc
      omega
    unfold encodePoint
    split_ifs with h1 h2 h3
    · exact ⟨_, [], rfl, List.not_mem_nil⟩
    · refine ⟨_, _, rfl, ?_⟩
      simp only [List.mem_singleton]
      exact continuation_ne_lead (by omega) (by omega)
    · refine ⟨_, _, rfl, ?_⟩
      simp only [List.mem_cons, List.not_mem_nil, or_false, not_or]
      rw [show 0xE0 + c / 4096 = 0xC0 + (0x20 + c / 4096) by omega]
      exact ⟨continuation_ne_lead (by omega) (by omega),
        continuation_ne_lead (by omega) (by omega)⟩
    · refine ⟨_, _, rfl, ?_⟩
      simp only [List.mem_cons, List.not_mem_nil, or_false, not_or]
      rw [show 0xF0 + c / 262144 = 0xC0 + (0x30 + c / 262144) by omega]
      exact ⟨continuation_ne_lead (by omega) (by omega),
        continuation_ne_lead (by omega) (by omega), continuation_ne_lead (by omega) (by omega)⟩

/-- A separator of one character is not empty. -/
theorem OneCharacter.ne_nil {sep : Bytes} (h : OneCharacter sep) : sep ≠ [] := by
  obtain ⟨first, tail, rfl, -⟩ := h.exists_head
  exact List.cons_ne_nil first tail

/-- Where the separator is a prefix of a text followed by the separator, the text is empty or
begins with the separator. -/
theorem OneCharacter.starts_of_append {sep : Bytes} (h : OneCharacter sep) {text rest : Bytes}
    (htext : text ≠ []) (hstarts : sep <+: text ++ (sep ++ rest)) : sep <+: text := by
  rcases Nat.le_total sep.length text.length with hle | hle
  · exact List.prefix_of_prefix_length_le hstarts (List.prefix_append ..) hle
  · obtain ⟨t, rfl⟩ := List.prefix_of_prefix_length_le (List.prefix_append ..) hstarts hle
    obtain ⟨b, text, rfl⟩ := List.exists_cons_of_ne_nil htext
    obtain ⟨first, tail, hsep, hfirst⟩ := h.exists_head
    obtain ⟨rfl, rfl⟩ := List.cons_eq_cons.mp hsep
    cases t with
    | nil => simp
    | cons c t =>
      -- the rest of the separator would begin like the separator itself
      have hrest := (List.prefix_append_right_inj (b :: text)).mp hstarts
      obtain ⟨rfl, -⟩ := List.cons_prefix_cons.mp hrest
      simp at hfirst

/-! ## The parts of a joined path -/

/-- What has been cut is as long as the separator. -/
theorem length_le_of_cut {sep path part rest : Bytes} (h : cut sep path = some (part, rest)) :
    sep.length ≤ path.length := by
  induction path generalizing part with
  | nil => cases h
  | cons b path ih =>
    rw [cut] at h
    split at h
    · next hstarts => exact hstarts.length_le
    · obtain ⟨⟨before, behind⟩, hfound, heq⟩ := Option.map_eq_some_iff.mp h
      obtain ⟨-, rfl⟩ : b :: before = part ∧ behind = rest := by simpa using heq
      exact Nat.le_succ_of_le (ih hfound)

/-- The first occurrence of the separator stays the first when more is appended. -/
theorem cut_append_of_some {sep path part rest : Bytes} (h : cut sep path = some (part, rest))
    (more : Bytes) : cut sep (path ++ more) = some (part, rest ++ more) := by
  induction path generalizing part with
  | nil => cases h
  | cons b path ih =>
    have hlength := length_le_of_cut h
    rw [cut] at h
    rw [List.cons_append, cut]
    split at h
    · next hstarts =>
      obtain ⟨rfl, rfl⟩ : [] = part ∧ (b :: path).drop sep.length = rest := by simpa using h
      rw [← List.cons_append, if_pos (hstarts.trans (List.prefix_append (b :: path) more)),
        List.drop_append_of_le_length hlength]
    · next hstarts =>
      obtain ⟨⟨before, behind⟩, hfound, heq⟩ := Option.map_eq_some_iff.mp h
      obtain ⟨rfl, rfl⟩ : b :: before = part ∧ behind = rest := by simpa using heq
      rw [if_neg, ih hfound]
      · rfl
      · intro hnot
        exact hstarts (List.prefix_of_prefix_length_le hnot (List.prefix_append ..) hlength)

/-- Nothing in a text without the separator can begin an occurrence of it. -/
theorem cut_append_of_none {sep path : Bytes} (hsep : OneCharacter sep)
    (h : cut sep path = none) (rest : Bytes) :
    cut sep (path ++ (sep ++ rest)) = some (path, rest) := by
  induction path with
  | nil =>
    obtain ⟨first, tail, rfl, -⟩ := hsep.exists_head
    rw [List.nil_append, List.cons_append, cut, ← List.cons_append,
      if_pos (List.prefix_append (first :: tail) rest), List.drop_left]
  | cons b path ih =>
    rw [cut] at h
    split at h
    · cases h
    · next hstarts =>
      rw [List.cons_append, cut, if_neg, ih (Option.map_eq_none_iff.mp h)]
      · rfl
      · intro hnot
        exact hstarts (hsep.starts_of_append (List.cons_ne_nil b path) hnot)

/-- A joined path has the parts of the first key and then those of the second. -/
theorem partsOf_join {sep : Bytes} (hsep : OneCharacter sep) (a b : Bytes) :
    partsOf sep (a ++ (sep ++ b)) = partsOf sep a ++ partsOf sep b := by
  have hlonger : ∀ a : Bytes, ∃ n, (a ++ (sep ++ b)).length = n + 1 ∧ b.length ≤ n := by
    intro a
    have hpos := List.length_pos_of_ne_nil hsep.ne_nil
    refine ⟨(a ++ (sep ++ b)).length - 1, ?_, ?_⟩
    all_goals
      simp only [List.length_append]
      omega
  induction hlength : a.length using Nat.strongRecOn generalizing a with
  | ind n ih =>
    obtain ⟨m, hm, hb⟩ := hlonger a
    cases hcut : cut sep a with
    | none =>
      have ha : partsOf sep a = [a] := by
        rw [partsOf]
        cases a.length with
        | zero => rfl
        | succ n => simp only [cutLoop, hcut]
      rw [partsOf, hm]
      simp only [cutLoop, cut_append_of_none hsep hcut]
      rw [cutLoop_eq hsep.ne_nil hb, ha]
      rfl
    | some found =>
      obtain ⟨part, rest⟩ := found
      have hlt := length_of_cut hsep.ne_nil hcut
      have ha : partsOf sep a = part :: partsOf sep rest := by
        obtain ⟨k, hk⟩ : ∃ k, a.length = k + 1 := ⟨a.length - 1, by omega⟩
        rw [partsOf, hk]
        simp only [cutLoop, hcut]
        rw [cutLoop_eq hsep.ne_nil (by omega)]
      rw [partsOf, hm]
      simp only [cutLoop, cut_append_of_some hcut]
      rw [cutLoop_eq hsep.ne_nil, ih rest.length (hlength ▸ hlt) rest rfl, ha, List.cons_append]
      simp only [List.length_append] at hm ⊢
      omega

/-- The keys of a joined path. -/
theorem viewKeys_join {sep : Bytes} (hsep : OneCharacter sep) (a b : Bytes) :
    viewKeys sep (a ++ (sep ++ b)) = viewKeys sep a ++ viewKeys sep b := by
  rw [viewKeys, partsOf_join hsep, List.map_append]
  rfl

end Radapter.Branch
