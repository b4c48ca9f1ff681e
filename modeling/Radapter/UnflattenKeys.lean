import Radapter.UnflattenText

/-!
# The key that is read for a part

`Unflatten` reads a key with `QString::fromUtf8(subkey.data(), int(subkey.size()))`. The result
is the key that was written, unless it starts with a byte-order mark or the conversion of its
size to `int` changes it: a size of `2 ^ 32` or more is cut, and a negative one makes Qt read up
to the next NUL of the whole path.
-/

namespace Radapter

/-- The size of a key is read right: it fits an `int`, or it becomes negative and the key ends
where the path does. -/
def SizeReads (k : QString) (last : Prop) : Prop :=
  (toStdString k).length < 2 ^ 31 ∨ asInt (toStdString k).length < 0 ∧ 0 ∉ k ∧ last

/-- A key is read back: it does not start with a mark and its size is read right. -/
def KeyReads (k : QString) (last : Prop) : Prop := startsWithBom k = false ∧ SizeReads k last

/-! ## Lengths -/

/-- A scalar value takes at least as many bytes as UTF-16 units, and at most three per unit. -/
theorem encodePoint_length (c : ℕ) :
    (utf16Point c).length ≤ (encodePoint c).length ∧
      (encodePoint c).length ≤ 3 * (utf16Point c).length ∧ (encodePoint c).length ≤ 4 := by
  unfold encodePoint utf16Point
  split_ifs <;> simp
  all_goals omega

/-- A text has at least a third as many units as bytes. -/
theorem ofPoints_length (points : List ℕ) :
    (points.flatMap encodePoint).length ≤ 3 * (ofPoints points).length := by
  induction points with
  | nil => simp
  | cons c points ih =>
    have hc := encodePoint_length c
    rw [List.flatMap_cons, ofPoints_cons, List.length_append, List.length_append]
    omega

/-- Decoding gives no more units than there are bytes. -/
theorem fromUtf8Loop_length (fuel : ℕ) (bytes : Bytes) :
    (fromUtf8Loop fuel bytes).length ≤ bytes.length := by
  induction fuel generalizing bytes with
  | zero => simp [fromUtf8Loop]
  | succ fuel ih =>
    cases bytes with
    | nil => simp [fromUtf8Loop]
    | cons b rest =>
      cases hread : decodePoint (b :: rest) with
      | none =>
        have hrest := ih rest
        simp only [fromUtf8Loop, hread, List.length_cons]
        omega
      | some r =>
        obtain ⟨c, len⟩ := r
        obtain ⟨-, tail, hbytes, hlen⟩ := encodePoint_of_decodePoint hread
        have hunits := encodePoint_length c
        have hrest := ih ((b :: rest).drop len)
        have htotal := congrArg List.length hbytes
        simp only [fromUtf8Loop, hread]
        rw [List.length_append] at htotal ⊢
        rw [List.length_drop] at hrest
        omega

/-- Decoding a text whose end is cut off gives fewer units than the text has. -/
theorem fromUtf8Loop_take_length {points : List ℕ} (h : ∀ c ∈ points, IsScalar c) {m : ℕ}
    (hm : m + 12 ≤ (points.flatMap encodePoint).length) (fuel : ℕ) :
    (fromUtf8Loop fuel ((points.flatMap encodePoint).take m)).length <
      (ofPoints points).length := by
  induction points generalizing m fuel with
  | nil => simp at hm
  | cons c points ih =>
    have hc := encodePoint_length c
    have hthird := ofPoints_length (c :: points)
    by_cases hwhole : (encodePoint c).length ≤ m
    · cases fuel with
      | zero =>
        simp only [fromUtf8Loop, List.length_nil]
        omega
      | succ fuel =>
        have htake : ((c :: points).flatMap encodePoint).take m =
            encodePoint c ++ (points.flatMap encodePoint).take (m - (encodePoint c).length) := by
          rw [List.flatMap_cons, List.take_append, List.take_of_length_le hwhole]
        have hstep := @fromUtf8Loop_append [c] (by simpa using h c (by simp)) fuel
          ((points.flatMap encodePoint).take (m - (encodePoint c).length))
        simp only [List.flatMap_cons, List.flatMap_nil, List.append_nil, List.length_singleton,
          ofPoints_cons, ofPoints_nil] at hstep
        rw [List.flatMap_cons, List.length_append] at hm
        have hrest := ih (fun c hc => h c (List.mem_cons_of_mem _ hc)) (show
          m - (encodePoint c).length + 12 ≤ (points.flatMap encodePoint).length by omega) fuel
        rw [htake, hstep, ofPoints_cons, List.length_append, List.length_append]
        omega
    · have hshort := fromUtf8Loop_length fuel (((c :: points).flatMap encodePoint).take m)
      have htake := List.length_take_le m ((c :: points).flatMap encodePoint)
      omega

/-! ## What is read -/

/-- A mark at the front of part of a text is one of the text. -/
private theorem points_of_mark {points : List ℕ} (h : ∀ c ∈ points, IsScalar c)
    {bytes more : Bytes} (hbytes : bytes ++ more = points.flatMap encodePoint)
    (hmark : bytes.take 3 = [0xEF, 0xBB, 0xBF]) :
    ∃ rest, points = 0xFEFF :: rest ∧ bytes.drop 3 ++ more = rest.flatMap encodePoint := by
  have hfront : (bytes ++ more).take 3 = [0xEF, 0xBB, 0xBF] := by
    have hlen := congrArg List.length hmark
    rw [List.length_take, List.length_cons, List.length_cons, List.length_singleton] at hlen
    rw [List.take_append_of_le_length (by omega), hmark]
  cases points with
  | nil =>
    rw [hbytes] at hfront
    cases hfront
  | cons c rest =>
    rw [hbytes, List.flatMap_cons, encodePoint_take_three (h c (by simp))] at hfront
    subst hfront
    refine ⟨rest, rfl, ?_⟩
    have hsplit := List.take_append_drop 3 bytes
    rw [hmark] at hsplit
    rw [← hsplit, List.flatMap_cons, List.append_assoc] at hbytes
    exact @List.append_cancel_left _ [0xEF, 0xBB, 0xBF] _ _ hbytes

/-- A text whose end is cut off is read as a shorter one. -/
theorem fromUtf8_take_length {k : QString} (hk : validUtf16 k = true) {m : ℕ}
    (hm : m + 12 ≤ (toStdString k).length) :
    (fromUtf8 ((toStdString k).take m)).length < k.length := by
  obtain ⟨points, hpoints, rfl⟩ := exists_points hk
  rw [toStdString_ofPoints hpoints] at hm ⊢
  rw [fromUtf8]
  by_cases hmark : ((points.flatMap encodePoint).take m).take 3 = [0xEF, 0xBB, 0xBF]
  · obtain ⟨rest, rfl, hdrop⟩ :=
      points_of_mark hpoints (List.take_append_drop m (points.flatMap encodePoint)) hmark
    have hthree := congrArg List.length hmark
    rw [List.length_take, List.length_take, List.length_cons, List.length_cons,
      List.length_singleton] at hthree
    rw [if_pos hmark]
    rw [List.flatMap_cons, List.length_append] at hm
    have hrest : ∀ c ∈ rest, IsScalar c := fun c hc => hpoints c (List.mem_cons_of_mem _ hc)
    have hlen : (encodePoint 0xFEFF).length = 3 := rfl
    have hcut : (((0xFEFF :: rest).flatMap encodePoint).take m).drop 3 =
        (rest.flatMap encodePoint).take (m - 3) := by
      rw [List.drop_take, List.flatMap_cons, List.drop_left' hlen]
    have hshort := fromUtf8Loop_take_length hrest (m := m - 3) (by omega)
      ((rest.flatMap encodePoint).take (m - 3)).length
    rw [ofPoints_cons, List.length_append]
    simp only [hcut]
    omega
  · rw [if_neg hmark]
    exact fromUtf8Loop_take_length hpoints hm _

/-- A NUL in a text is one of its scalar values. -/
private theorem zero_mem_points {points : List ℕ} (h : ∀ c ∈ points, IsScalar c)
    (hnul : 0 ∈ ofPoints points) : 0 ∈ points := by
  obtain ⟨c, hc, hmem⟩ := List.mem_flatMap.mp hnul
  have hscalar := h c hc
  unfold IsScalar at hscalar
  have hzero {n : ℕ} (hn : n < 65536) (h0 : 0 = UInt16.ofNat n) : n = 0 := by
    have hnat := congrArg UInt16.toNat h0
    rw [UInt16.toNat_ofNat', Nat.mod_eq_of_lt hn] at hnat
    exact hnat.symm
  unfold utf16Point at hmem
  split_ifs at hmem with hsmall
  · rw [List.mem_singleton] at hmem
    exact hzero hsmall hmem ▸ hc
  · simp only [List.mem_cons, List.not_mem_nil, or_false] at hmem
    rcases hmem with hmem | hmem
    · exact absurd (hzero (by omega) hmem) (by omega)
    · exact absurd (hzero (by omega) hmem) (by omega)

/-- Without a NUL in the text there is none in its UTF-8 form. -/
private theorem takeWhile_points {points : List ℕ} (h : ∀ c ∈ points, IsScalar c)
    (hnul : 0 ∉ points) (more : Bytes) :
    (points.flatMap encodePoint ++ more).takeWhile (· ≠ 0) =
      points.flatMap encodePoint ++ more.takeWhile (· ≠ 0) := by
  apply List.takeWhile_append_of_pos
  intro b hb
  obtain ⟨c, hc, hbc⟩ := List.mem_flatMap.mp hb
  rw [decide_eq_true_eq]
  rintro rfl
  have hzero : c = 0 := mem_encodePoint_ascii (h c hc) hbc (by decide)
  exact hnul (hzero ▸ hc)

/-- Reading a text gives no more units than it has. -/
private theorem fromUtf8_points_length {points : List ℕ} (h : ∀ c ∈ points, IsScalar c) :
    (fromUtf8 (points.flatMap encodePoint)).length ≤ (ofPoints points).length := by
  rw [fromUtf8_points h]
  split
  · rw [List.length_tail]
    omega
  · exact Nat.le_refl _

/-- The text before the first NUL of a text is a shorter one. -/
theorem fromUtf8_takeWhile_length {k : QString} (hk : validUtf16 k = true) (hnul : 0 ∈ k)
    (more : Bytes) :
    (fromUtf8 ((toStdString k ++ more).takeWhile (· ≠ 0))).length < k.length := by
  obtain ⟨points, hpoints, rfl⟩ := exists_points hk
  obtain ⟨front, back, rfl, hfront⟩ :=
    List.eq_append_cons_of_mem (zero_mem_points hpoints hnul)
  have hscalar : ∀ c ∈ front, IsScalar c := fun c hc => hpoints c (List.mem_append_left _ hc)
  have htext : (toStdString (ofPoints (front ++ 0 :: back)) ++ more).takeWhile (· ≠ 0) =
      front.flatMap encodePoint := by
    rw [toStdString_ofPoints hpoints, List.flatMap_append, List.append_assoc,
      takeWhile_points hscalar hfront]
    simp [encodePoint]
  have hlen := fromUtf8_points_length hscalar
  have htotal : (ofPoints (front ++ 0 :: back)).length =
      (ofPoints front).length + (1 + (ofPoints back).length) := by
    rw [ofPoints, List.flatMap_append, List.length_append, List.flatMap_cons, List.length_append]
    rfl
  rw [htext]
  omega

/-- A key that is read on into the rest of the path gets a colon. -/
theorem colon_mem_fromUtf8 {k : QString} (hk : validUtf16 k = true) (more : Bytes) :
    58 ∈ fromUtf8 (toStdString k ++ colon :: more) := by
  obtain ⟨points, hpoints, rfl⟩ := exists_points hk
  have hloop {points : List ℕ} (hpoints : ∀ c ∈ points, IsScalar c) :
      58 ∈ fromUtf8Loop (points.flatMap encodePoint ++ colon :: more).length
        (points.flatMap encodePoint ++ colon :: more) := by
    have hle := points_length_le points
    obtain ⟨fuel, hfuel⟩ : ∃ fuel, (points.flatMap encodePoint ++ colon :: more).length =
        fuel + 1 + points.length := by
      refine ⟨(points.flatMap encodePoint).length - points.length + more.length, ?_⟩
      rw [List.length_append, List.length_cons]
      omega
    rw [hfuel, fromUtf8Loop_append hpoints]
    apply List.mem_append_right _
    have hread : decodePoint (colon :: more) = some (58, 1) :=
      decodePoint_encodePoint (c := 58) (by decide) more
    simp [fromUtf8Loop, hread, utf16Point]
  rw [toStdString_ofPoints hpoints, fromUtf8]
  by_cases hmark : (points.flatMap encodePoint ++ colon :: more).take 3 = [0xEF, 0xBB, 0xBF]
  · rw [if_pos hmark]
    cases points with
    | nil => simp [colon] at hmark
    | cons c points =>
      rw [List.flatMap_cons, List.append_assoc, encodePoint_take_three (hpoints c (by simp))]
        at hmark
      subst hmark
      exact hloop (fun c hc => hpoints c (List.mem_cons_of_mem _ hc))
  · rw [if_neg hmark]
    exact hloop hpoints

/-- Without a NUL in a key the search for one goes on behind it. -/
theorem takeWhile_toStdString {k : QString} (hk : validUtf16 k = true) (hnul : 0 ∉ k)
    (more : Bytes) :
    (toStdString k ++ more).takeWhile (· ≠ 0) = toStdString k ++ more.takeWhile (· ≠ 0) := by
  obtain ⟨points, hpoints, rfl⟩ := exists_points hk
  rw [toStdString_ofPoints hpoints]
  refine takeWhile_points hpoints ?_ more
  intro hmem
  exact hnul (List.mem_flatMap.mpr ⟨0, hmem, by decide⟩)

/-- A key with a mark at its front is read as a shorter one. -/
private theorem fromUtf8_length_of_bom {k : QString} (hk : PathKey k)
    (hbom : startsWithBom k = true) : (fromUtf8 (toStdString k)).length < k.length := by
  have hpos := List.length_pos_of_ne_nil hk.nonempty
  rw [fromUtf8_toStdString hk.valid, if_pos hbom, List.length_tail]
  omega

/-- Where a path goes on behind a part, a separator follows. -/
private theorem pathText_cons (part : Bytes) (rest : List Bytes) :
    (rest = [] ∧ [colon].intercalate (part :: rest) = part) ∨
      (rest ≠ [] ∧ ∃ more, [colon].intercalate (part :: rest) = part ++ colon :: more) := by
  cases rest with
  | nil => exact .inl ⟨rfl, List.intercalate_singleton⟩
  | cons next rest =>
    refine .inr ⟨by simp, [colon].intercalate (next :: rest), ?_⟩
    rw [List.intercalate_cons_cons]
    simp

/-- A part that fits an `int` is read as it is. -/
private theorem partKey_of_lt {part : Bytes} (h : part.length < 2 ^ 31) (rest : List Bytes) :
    partKey part rest = fromUtf8 part := by
  rcases pathText_cons part rest with ⟨-, htext⟩ | ⟨-, more, htext⟩
  · have hsized := fromUtf8Sized_of_lt h []
    rw [List.append_nil] at hsized
    rw [partKey, htext, hsized]
  · rw [partKey, htext, fromUtf8Sized_of_lt h]

/-- A key that meets the condition is read back. -/
theorem partKey_of_reads {k : QString} (hk : PathKey k) {rest : List Bytes}
    (h : KeyReads k (rest = [])) : partKey (toStdString k) rest = k := by
  obtain ⟨hbom, hsize | ⟨hneg, hnul, rfl⟩⟩ := h
  · rw [partKey_of_lt hsize, fromUtf8_toStdString_of_valid hk.valid hbom]
  · have hwhole := takeWhile_toStdString hk.valid hnul []
    rw [List.append_nil, List.takeWhile_nil, List.append_nil] at hwhole
    rw [partKey, List.intercalate_singleton, fromUtf8Sized, if_pos hneg, hwhole,
      fromUtf8_toStdString_of_valid hk.valid hbom]

/-- A size that is cut by the conversion loses at least `2 ^ 32`. -/
private theorem asInt_cut {n : ℕ} (hn : 2 ^ 31 ≤ n) (hpos : ¬ asInt n < 0) :
    (asInt n).toNat + 12 ≤ n := by
  unfold asInt at hpos ⊢
  split_ifs at hpos ⊢ <;> omega

/-- A key that is not read back is read as a shorter key, or as one with a colon. -/
theorem partKey_of_not_reads {k : QString} (hk : PathKey k) {rest : List Bytes}
    (h : ¬ KeyReads k (rest = [])) :
    (partKey (toStdString k) rest).length < k.length ∨ 58 ∈ partKey (toStdString k) rest := by
  by_cases hsize : SizeReads k (rest = [])
  · have hbom : startsWithBom k = true := by
      by_contra hbom
      exact h ⟨by simpa using hbom, hsize⟩
    left
    rcases hsize with hsize | ⟨hneg, hnul, rfl⟩
    · rw [partKey_of_lt hsize]
      exact fromUtf8_length_of_bom hk hbom
    · have hwhole := takeWhile_toStdString hk.valid hnul []
      rw [List.append_nil, List.takeWhile_nil, List.append_nil] at hwhole
      rw [partKey, List.intercalate_singleton, fromUtf8Sized, if_pos hneg, hwhole]
      exact fromUtf8_length_of_bom hk hbom
  · simp only [SizeReads, not_or, Nat.not_lt, not_and] at hsize
    obtain ⟨hlarge, hnegative⟩ := hsize
    by_cases hneg : asInt (toStdString k).length < 0
    · by_cases hnul : 0 ∈ k
      · left
        rcases pathText_cons (toStdString k) rest with ⟨-, htext⟩ | ⟨-, more, htext⟩
        · have hshort := fromUtf8_takeWhile_length hk.valid hnul []
          rw [List.append_nil] at hshort
          rwa [partKey, htext, fromUtf8Sized, if_pos hneg]
        · rw [partKey, htext, fromUtf8Sized, if_pos hneg]
          exact fromUtf8_takeWhile_length hk.valid hnul _
      · right
        rcases pathText_cons (toStdString k) rest with ⟨hlast, -⟩ | ⟨-, more, htext⟩
        · exact absurd hlast (hnegative hneg hnul)
        · rw [partKey, htext, fromUtf8Sized, if_pos hneg, takeWhile_toStdString hk.valid hnul,
            List.takeWhile_cons_of_pos (by decide)]
          exact colon_mem_fromUtf8 hk.valid _
    · left
      have hcut := asInt_cut hlarge hneg
      have hfits : (asInt (toStdString k).length).toNat ≤ (toStdString k).length := by omega
      rcases pathText_cons (toStdString k) rest with ⟨-, htext⟩ | ⟨-, more, htext⟩
      · rw [partKey, htext, fromUtf8Sized, if_neg hneg]
        exact fromUtf8_take_length hk.valid hcut
      · rw [partKey, htext, fromUtf8Sized, if_neg hneg, List.take_append_of_le_length hfits]
        exact fromUtf8_take_length hk.valid hcut

end Radapter
