import Radapter.Async.Once
import Mathlib.Data.List.Nodup

/-!
# What `gather` resolves with

`gather` passes one function of its own to each promise of its list. As long as no subscriber is
lost, each of these functions is called once, and the promise of `gather` is settled with what they
were told, in the order in which they were called.
-/

namespace Radapter.Async

open Library List

variable {α : Type*}

/-! ## What the functions of `gather` are told -/

/-- The event is a call of a function of the `gather`. -/
def Event.told? (g : PromiseId) : Event α → Option (ℕ × Reply α)
  | .called _ (.gather g' i) r => if g' = g then some (i, r) else none
  | _ => none

/-- The places whose functions were called, and what they were told, in the order of the calls. -/
def told (log : List (Event α)) (g : PromiseId) : List (ℕ × Reply α) :=
  log.filterMap (Event.told? g)

/-- The first error among replies. -/
def firstError (replies : List (ℕ × Reply α)) : Option (Value α) :=
  replies.findSome? (fun c => c.2.err)

/-- The replies that are results. -/
def results (replies : List (ℕ × Reply α)) : List (ℕ × Reply α) :=
  replies.filter (fun c => c.2.err.isNone)

/-- What the `gather` of `n` promises is settled with after these replies. -/
def outcome (g : PromiseId) (n : ℕ) (replies : List (ℕ × Reply α)) : Option (Reply α) :=
  match firstError replies with
  | some e => some ⟨none, some e⟩
  | none => if replies.length = n then some ⟨some (.results g), none⟩ else none

/-- The promise has called all that have subscribed, if it is settled. -/
def State.Handed (s : State α) (p : PromiseId) : Prop :=
  ¬ s.Notifies p ∧ ((s.promises p).native = true → (s.promises p).subs = [])

section Told

variable {s : State α} {e : Event α} {g g' p : PromiseId} {i n : ℕ} {r : Reply α}
  {replies : List (ℕ × Reply α)}

/-- A new event adds what it tells the `gather`. -/
@[simp] theorem told_note (s : State α) (e : Event α) (g : PromiseId) :
    told (s.note e).log g = told s.log g ++ (e.told? g).toList := by
  cases h : e.told? g <;> simp [State.note, told, h]

/-- What a place was told is a call of its function, by whichever promise is at that place. -/
theorem mem_told {log : List (Event α)} :
    (i, r) ∈ told log g ↔ ∃ p, (.gather g i, r) ∈ calls log p := by
  simp only [told, calls, List.mem_filterMap]
  constructor
  · rintro ⟨e, hmem, he⟩
    cases e with
    | called p cb r' =>
      cases cb with
      | gather g' j =>
        obtain ⟨rfl, hpair⟩ := Option.ite_none_right_eq_some.mp he
        cases hpair
        exact ⟨p, _, hmem, by simp [Event.call?]⟩
      | script f => cases he
    | subscribed | done | raised => cases he
  · rintro ⟨p, e, hmem, he⟩
    cases e with
    | called q cb r' =>
      obtain ⟨rfl, hpair⟩ := Option.ite_none_right_eq_some.mp he
      cases hpair
      exact ⟨_, hmem, by simp [Event.told?]⟩
    | subscribed | done | raised => cases he

/-- A later reply matters only if no earlier one was an error. -/
@[simp] theorem firstError_concat (c : ℕ × Reply α) :
    firstError (replies ++ [c]) = (firstError replies).or c.2.err := by
  simp [firstError, List.findSome?_append]

/-- There is no error as long as all replies are results. -/
theorem firstError_eq_none :
    firstError replies = none ↔ results replies = replies := by
  simp [firstError, results, List.filter_eq_self]

/-- An error of a new place settles the `gather` if nothing has. -/
theorem outcome_error {err : Value α} (hlength : replies.length ≠ n) (hr : r.err = some err) :
    outcome g n (replies ++ [(i, r)]) = (outcome g n replies).or (some ⟨none, some err⟩) := by
  cases h : firstError replies with
  | some e => simp [outcome, h]
  | none => simp [outcome, h, hr, hlength]

/-- A result of a new place settles the `gather` if it is the last one. -/
theorem outcome_result (hlength : replies.length ≠ n) (hr : r.err = none) :
    outcome g n (replies ++ [(i, r)]) = (outcome g n replies).or
      (if firstError replies = none ∧ replies.length + 1 = n then some ⟨some (.results g), none⟩
        else none) := by
  cases h : firstError replies with
  | some e => simp [outcome, h]
  | none => by_cases hlast : replies.length + 1 = n <;> simp [outcome, h, hr, hlength, hlast]

end Told

/-! ## What `done` changes -/

section Done

variable (s : State α) (t : ℕ) (p : PromiseId) (r : Reply α)

/-- To start the loop of `done` changes no promise. -/
theorem notify_promises : (s.notify t p r).promises = s.promises := by
  unfold State.notify
  split
  · rfl
  · split <;> rfl

/-- To start the loop of `done` is no event. -/
theorem notify_log : (s.notify t p r).log = s.log := by
  unfold State.notify
  split
  · rfl
  · split <;> rfl

/-- `done` is logged once, whether or not the promise was settled. -/
theorem done_log : (s.done t p r).log = s.log ++ [.done p r] := by
  unfold State.done
  split
  · rfl
  · exact notify_log _ t p r

/-- `done` settles its promise unless it is settled already. -/
theorem done_self : (s.done t p r).promises p =
    { s.promises p with settled := (s.promises p).settled.or (some r) } := by
  unfold State.done
  split
  · next h =>
    simp only [note_promises, h, Option.some_or]
    rw [← h]
  · next h => simp [notify_promises, h]

/-- `done` changes no other promise. -/
theorem done_ne {q : PromiseId} (h : q ≠ p) : (s.done t p r).promises q = s.promises q := by
  unfold State.done
  split
  · rfl
  · simp [notify_promises, setPromise_ne, h]

/-- `done` subscribes nobody. -/
@[simp] theorem subscribers_done (q : PromiseId) :
    subscribers (s.done t p r).log q = subscribers s.log q := by
  have hnote : (s.done t p r).log = (s.note (.done p r)).log := done_log s t p r
  rw [hnote, subscribers_note]
  simp [Event.subscriber?]

/-- `done` itself tells a `gather` nothing; its loop does, later. -/
@[simp] theorem told_done (g : PromiseId) : told (s.done t p r).log g = told s.log g := by
  have hnote : (s.done t p r).log = (s.note (.done p r)).log := done_log s t p r
  rw [hnote, told_note]
  simp [Event.told?]

end Done

/-! ## The account of a `gather` -/

/-- The locals of `gather` agree with what its functions were told. -/
structure Tally (G : Gather α) (replies : List (ℕ × Reply α)) : Prop where
  nodup : (replies.map Prod.fst).Nodup
  left : G.left + (results replies).length = G.promises.length
  size : G.results.length = G.promises.length
  results : ∀ c ∈ replies, c.2.err = none → G.results[c.1]? = some c.2.res

section Tally

variable {G : Gather α} {replies : List (ℕ × Reply α)} {n i : ℕ} {r : Reply α}

/-- Different places below `n`, with one more to come, are less than `n`. -/
theorem length_lt_of_nodup (hnodup : (replies.map Prod.fst).Nodup)
    (hplaces : ∀ c ∈ replies, c.1 < n) (hnew : i ∉ replies.map Prod.fst) (hi : i < n) :
    replies.length < n := by
  have hsubset : i :: replies.map Prod.fst ⊆ List.range n := by
    intro k hk
    rw [List.mem_range]
    rcases List.mem_cons.mp hk with rfl | hk
    · exact hi
    · obtain ⟨c, hc, rfl⟩ := List.mem_map.mp hk
      exact hplaces c hc
  have hlength := ((List.nodup_cons.mpr ⟨hnew, hnodup⟩).subperm hsubset).length_le
  exact Nat.lt_of_succ_le (by simpa using hlength)

/-- Places stay distinct when one that has not been told is told. -/
theorem nodup_concat (hnodup : (replies.map Prod.fst).Nodup) (hnew : i ∉ replies.map Prod.fst) :
    ((replies ++ [(i, r)]).map Prod.fst).Nodup := by
  rw [List.map_append]
  exact hnodup.append (List.nodup_singleton _) (by simpa using hnew)

/-- A new place fails. -/
theorem Tally.error (h : Tally G replies) (hnew : i ∉ replies.map Prod.fst) {err : Value α}
    (hr : r.err = some err) : Tally G (replies ++ [(i, r)]) where
  nodup := nodup_concat h.nodup hnew
  left := by simpa [Async.results, hr] using h.left
  size := h.size
  results c hc herr := by
    rcases List.mem_append.mp hc with hc | hc
    · exact h.results c hc herr
    · obtain rfl := List.mem_singleton.mp hc
      rw [hr] at herr
      cases herr

/-- A new place gets its result. -/
theorem Tally.result (h : Tally G replies) (hnew : i ∉ replies.map Prod.fst)
    (hi : i < G.promises.length) (hlength : replies.length < G.promises.length)
    (hr : r.err = none) : Tally (G.collect i r.res) (replies ++ [(i, r)]) where
  nodup := nodup_concat h.nodup hnew
  left := by
    have hleft := h.left
    have hle : (Async.results replies).length ≤ replies.length := List.length_filter_le _ _
    have hone : (Async.results (replies ++ [(i, r)])).length =
        (Async.results replies).length + 1 := by
      simp [Async.results, hr]
    simp only [Gather.collect, hone]
    omega
  size := by simpa [Gather.collect] using h.size
  results c hc herr := by
    rcases List.mem_append.mp hc with hc | hc
    · have hne : i ≠ c.1 := fun h => hnew (h ▸ List.mem_map_of_mem hc)
      simpa [Gather.collect, hne] using h.results c hc herr
    · obtain rfl := List.mem_singleton.mp hc
      simp [Gather.collect, h.size, hi]

/-- The last result is in when no error was told, and every other place has its result. -/
theorem Tally.last_iff (h : Tally G replies) (hlength : replies.length < G.promises.length) :
    G.left - 1 = 0 ↔ firstError replies = none ∧ replies.length + 1 = G.promises.length := by
  have hleft := h.left
  have hle : (Async.results replies).length ≤ replies.length := List.length_filter_le _ _
  rw [firstError_eq_none]
  constructor
  · intro hlast
    have heq : (Async.results replies).length = replies.length := by omega
    exact ⟨List.filter_sublist.eq_of_length heq, by omega⟩
  · rintro ⟨hnone, hall⟩
    rw [hnone] at hleft
    omega

end Tally

/-- The locals of a `gather` whose loop has come to place `j`, and the promise it made, agree with
the log. -/
structure Collects (s : State α) (g : PromiseId) (G : Gather α) (j : ℕ) : Prop where
  gathers : (s.promises g).gathers = some G
  listed : ∀ p i, (subscribers s.log p).count (.gather g i) =
    if i < j ∧ G.promises[i]? = some p then 1 else 0
  tally : Tally G (told s.log g)
  settled : (s.promises g).settled = outcome g G.promises.length (told s.log g)

section Collects

variable {s s' : State α} {g p : PromiseId} {G : Gather α} {t i j : ℕ} {r : Reply α}

/-- A function of a `gather` is called that has not been called before. -/
theorem Collects.call (h : Collects s g G j) (hplaces : ∀ c ∈ told s.log g, c.1 < G.promises.length)
    (hi : i < G.promises.length) (hnew : i ∉ (told s.log g).map Prod.fst) :
    ∃ G', G'.promises = G.promises ∧ Collects (s.call t p (.gather g i) r) g G' j := by
  have hlength := length_lt_of_nodup h.tally.nodup hplaces hnew hi
  have hsubscribers : ∀ q, subscribers (s.note (.called p (.gather g i) r)).log q =
      subscribers s.log q := fun q => by simp [Event.subscriber?]
  have htold : told (s.note (.called p (.gather g i) r)).log g = told s.log g ++ [(i, r)] := by
    simp [Event.told?]
  have hgathers : ((s.note (.called p (.gather g i) r)).promises g).gathers = some G := h.gathers
  have hcall : s.call t p (.gather g i) r =
      (s.note (.called p (.gather g i) r)).collect t g G i r := by
    simp only [State.call, State.enter, hgathers]
  rw [hcall, State.collect]
  cases hr : r.err with
  | some err =>
    refine ⟨G, rfl, by simp [done_self, h.gathers], fun q k => ?_, ?_, ?_⟩
    · rw [subscribers_done, hsubscribers]
      exact h.listed q k
    · rw [told_done, htold]
      exact h.tally.error hnew hr
    · rw [told_done, htold, outcome_error (Nat.ne_of_lt hlength) hr, ← h.settled, done_self]
      rfl
  | none =>
    have hlast := h.tally.last_iff hlength
    refine ⟨G.collect i r.res, rfl, ?_⟩
    have htally := h.tally.result hnew hi hlength hr
    have hsettled := outcome_result (g := g) (i := i) (Nat.ne_of_lt hlength) hr
    dsimp only
    split
    · next hleft =>
      refine ⟨by simp [done_self], fun q k => ?_, ?_, ?_⟩
      · rw [subscribers_done]
        exact (congrArg _ (hsubscribers q)).trans (h.listed q k)
      · rw [told_done]
        exact htold ▸ htally
      · rw [if_pos (hlast.mp hleft), ← h.settled, ← htold] at hsettled
        rw [told_done, done_self, setPromise_self]
        exact hsettled.symm
    · next hleft =>
      refine ⟨by simp, fun q k => ?_, htold ▸ htally, ?_⟩
      · exact (congrArg _ (hsubscribers q)).trans (h.listed q k)
      · rw [if_neg (fun hall => hleft (hlast.mpr hall)), Option.or_none, ← h.settled,
          ← htold] at hsettled
        rw [setPromise_self]
        exact hsettled.symm

/-- `gather` passes its function for place `j` to the promise there. -/
theorem Collects.subscribed (h : Collects s g G j) (hp : G.promises[j]? = some p) :
    Collects (s.note (.subscribed p (.gather g j))) g G (j + 1) := by
  refine ⟨h.gathers, fun q i => ?_, by simpa [Event.told?] using h.tally,
    by simpa [Event.told?] using h.settled⟩
  rw [subscribers_note, List.count_append, h.listed]
  by_cases hq : p = q
  · subst hq
    by_cases hi : i = j
    · subst hi
      simp [Event.subscriber?, hp]
    · have hne : j ≠ i := Ne.symm hi
      have hlt : i < j + 1 ↔ i < j := by omega
      simp [Event.subscriber?, hne, hlt]
  · by_cases hi : i = j
    · subst hi
      simp [Event.subscriber?, hq, hp]
    · have hlt : i < j + 1 ↔ i < j := by omega
      simp [Event.subscriber?, hq, hlt]

/-- The functions that were called belong to places that the loop has passed. -/
theorem Collects.place (h : Collects s g G j) (hs : ∀ q, Accounted s q) {c : ℕ × Reply α}
    (hc : c ∈ told s.log g) :
    c.1 < j ∧ ∃ p, G.promises[c.1]? = some p ∧ (.gather g c.1, c.2) ∈ calls s.log p := by
  obtain ⟨p, hp⟩ := mem_told.mp hc
  obtain ⟨o, -, -, hperm⟩ := (hs p).share
  have hmem : .gather g c.1 ∈ subscribers s.log p := by
    apply hperm.subset
    exact List.mem_append_left _ (List.mem_map_of_mem hp)
  have hcount := h.listed p c.1
  split at hcount
  · next hplace => exact ⟨hplace.1, p, hplace.2, hp⟩
  · exact absurd hmem (List.count_eq_zero.mp hcount)

/-! ## What leaves a `gather` alone -/

/-- Nothing that the account of the `gather` is about differs. -/
structure Aside (s s' : State α) (g : PromiseId) : Prop where
  gathers : (s'.promises g).gathers = (s.promises g).gathers
  settled : (s.promises g).gathers.isSome → (s'.promises g).settled = (s.promises g).settled
  told : told s'.log g = told s.log g
  listed : ∀ p i, (subscribers s'.log p).count (.gather g i) =
    (subscribers s.log p).count (.gather g i)

/-- The locals of a `gather` are not touched by a step that is aside. -/
theorem Collects.aside (h : Collects s g G j) (ha : Aside s s' g) : Collects s' g G j := by
  refine ⟨ha.gathers.trans h.gathers, fun p i => (ha.listed p i).trans (h.listed p i), ?_, ?_⟩
  · rw [ha.told]
    exact h.tally
  · rw [ha.told, ha.settled (by simp [h.gathers])]
    exact h.settled

/-- A step that does nothing is aside. -/
theorem Aside.refl (s : State α) (g : PromiseId) : Aside s s g :=
  ⟨rfl, fun _ => rfl, rfl, fun _ _ => rfl⟩

/-- One step after another is aside if both are. -/
theorem Aside.trans {s'' : State α} (h : Aside s s' g) (h' : Aside s' s'' g) : Aside s s'' g :=
  ⟨h'.gathers.trans h.gathers,
    fun hsome => (h'.settled (h.gathers ▸ hsome)).trans (h.settled hsome),
    h'.told.trans h.told, fun p i => (h'.listed p i).trans (h.listed p i)⟩

/-- The account of a `gather` does not mention stacks. -/
theorem Aside.setFiber (s : State α) (g : PromiseId) (t : ℕ) (stack : List Frame) :
    Aside s (s.setFiber t stack) g :=
  ⟨rfl, fun _ => rfl, rfl, fun _ _ => rfl⟩

/-- An event is aside that neither tells the `gather` nor subscribes one of its functions. -/
theorem Aside.note {e : Event α} (htold : e.told? g = none)
    (hsub : ∀ q i, e.subscriber? q ≠ some (.gather g i)) : Aside s (s.note e) g := by
  refine ⟨rfl, fun _ => rfl, by simp [htold], fun q i => ?_⟩
  rw [subscribers_note, List.count_append, Nat.add_eq_left, List.count_eq_zero]
  intro hmem
  exact hsub q i (Option.mem_toList.mp hmem)

/-- A promise may change if the locals of the `gather` and what it settled with stay. -/
theorem Aside.setPromise {P : Promise α}
    (h : p = g → P.gathers = (s.promises g).gathers ∧ P.settled = (s.promises g).settled) :
    Aside s (s.setPromise p P) g := by
  by_cases hp : p = g
  · subst hp
    obtain ⟨hgathers, hsettled⟩ := h rfl
    exact ⟨by simpa using hgathers, fun _ => by simpa using hsettled, rfl, fun _ _ => rfl⟩
  · have hsame := setPromise_ne s p P (Ne.symm hp)
    exact ⟨by rw [hsame], fun _ => by rw [hsame], rfl, fun _ _ => rfl⟩

/-- `done` is aside for every promise that is not the one of the `gather`. -/
theorem Aside.done (h : p = g → (s.promises g).gathers = none) : Aside s (s.done t p r) g := by
  refine ⟨?_, fun hsome => ?_, by simp, fun _ _ => by simp⟩
  · by_cases hp : g = p
    · subst hp
      simp [done_self]
    · rw [done_ne s t p r hp]
  · have hp : g ≠ p := by
      rintro rfl
      simp [h rfl] at hsome
    rw [done_ne s t p r hp]

/-- A call is aside unless it is one of the functions of the `gather`. -/
theorem Aside.call {cb : Callback} (hcb : ∀ i, cb ≠ .gather g i) :
    Aside s (s.call t p cb r) g := by
  have hnote : Aside s (s.note (.called p cb r)) g := by
    refine .note ?_ (by simp [Event.subscriber?])
    cases cb with
    | script f => rfl
    | gather g' i =>
      have hne : g' ≠ g := fun h => hcb i (h ▸ rfl)
      simp [Event.told?, hne]
  cases cb with
  | script f => exact hnote.trans (.setFiber _ g t _)
  | gather g' i =>
    have hne : g' ≠ g := fun h => hcb i (h ▸ rfl)
    refine hnote.trans ?_
    unfold State.call State.enter
    dsimp only
    split
    · next G _ =>
      have hset : Aside (s.note (.called p (.gather g' i) r))
          ((s.note (.called p (.gather g' i) r)).setPromise g'
            { (s.note (.called p (.gather g' i) r)).promises g' with
              gathers := some (G.collect i r.res) }) g := .setPromise fun h => absurd h hne
      unfold State.collect
      split
      · exact .done fun h => absurd h hne
      · dsimp only
        split
        · exact hset.trans (.done fun h => absurd h hne)
        · exact hset
    · exact .refl _ g

/-- So is a subscription of another function. -/
theorem Aside.subscribe {cb : Callback} (hcb : ∀ i, cb ≠ .gather g i) {now : Bool} :
    Aside s (s.subscribe t p cb now) g := by
  have hnote : ∀ u : State α, Aside u (u.note (.subscribed p cb)) g := fun u =>
    .note rfl fun q i h => hcb i (Option.some.inj (Option.ite_none_right_eq_some.mp h).2)
  have hwait : ∀ u : State α, Aside u ((u.note (.subscribed p cb)).wait p cb) g := fun u => by
    refine (hnote u).trans (.setPromise ?_)
    rintro rfl
    exact ⟨rfl, rfl⟩
  have hsub : Aside s (s.setPromise p { s.promises p with had_sub := true }) g := by
    apply Aside.setPromise
    rintro rfl
    exact ⟨rfl, rfl⟩
  unfold State.subscribe
  dsimp only
  split
  · split
    · exact (hnote s).trans (.call hcb)
    · exact hwait s
  · split
    · exact (hsub.trans (hnote _)).trans (.call hcb)
    · exact hsub.trans (hwait _)

/-- A new promise is not one that a `gather` has made. -/
theorem Aside.make {P : Promise α} (hg : g ≠ s.made) : Aside s (s.make P) g := by
  have hsame := make_ne s P hg
  exact ⟨by rw [hsame], fun _ => by rw [hsame], rfl, fun _ _ => rfl⟩

/-- The loop of another `gather` subscribes functions of its own. -/
theorem Aside.subscribeAll {g' : PromiseId} {rest : List (PromiseId × Bool)} (hg : g ≠ g') (j : ℕ) :
    Aside s (s.subscribeAll t g' j rest) g := by
  induction rest generalizing s j with
  | nil => exact .refl s g
  | cons head rest ih =>
    exact (Aside.subscribe fun i h => hg (Callback.gather.inj h).1.symm).trans (ih (j + 1))

/-! ## The loop of `gather` -/

/-- One iteration of the loop. -/
theorem Collects.iterate (h : Collects s g G j) (hs : Sound s) (hp : G.promises[j]? = some p)
    {now : Bool} :
    ∃ G', G'.promises = G.promises ∧
      Collects (s.subscribe t p (.gather g j) now) g G' (j + 1) := by
  have hj : j < G.promises.length := (List.getElem?_eq_some_iff.mp hp).1
  have hplaces : ∀ c ∈ told s.log g, c.1 < G.promises.length := fun c hc => by
    have := (h.place hs.accounted hc).1
    omega
  have hnew : j ∉ (told s.log g).map Prod.fst := by
    intro hmem
    obtain ⟨c, hc, hcj⟩ := List.mem_map.mp hmem
    have := (h.place hs.accounted hc).1
    omega
  have hcall : ∀ u : State α, Aside s u g → ∀ r, ∃ G', G'.promises = G.promises ∧
      Collects ((u.note (.subscribed p (.gather g j))).call t p (.gather g j) r) g G' (j + 1) := by
    intro u hu r
    have htold : told (u.note (.subscribed p (.gather g j))).log g = told s.log g := by
      simp [Event.told?, hu.told]
    apply ((h.aside hu).subscribed hp).call
    · rwa [htold]
    · exact hj
    · rwa [htold]
  have hwait : ∀ u : State α, Aside s u g → ∃ G', G'.promises = G.promises ∧
      Collects ((u.note (.subscribed p (.gather g j))).wait p (.gather g j)) g G' (j + 1) := by
    intro u hu
    refine ⟨G, rfl, ((h.aside hu).subscribed hp).aside (.setPromise ?_)⟩
    rintro rfl
    exact ⟨rfl, rfl⟩
  have hsub : Aside s (s.setPromise p { s.promises p with had_sub := true }) g := by
    apply Aside.setPromise
    rintro rfl
    exact ⟨rfl, rfl⟩
  unfold State.subscribe
  dsimp only
  split
  · split
    · exact hcall s (.refl s g) _
    · exact hwait s (.refl s g)
  · split
    · exact hcall _ hsub _
    · exact hwait _ hsub

/-- The loop of `gather` from a place to the end of the list. -/
theorem Collects.subscribeAll {rest : List (PromiseId × Bool)} (h : Collects s g G j) (hs : Sound s)
    (hrest : G.promises.drop j = rest.map Prod.fst) (hmade : ∀ p ∈ rest, p.1 < s.made) :
    ∃ G', G'.promises = G.promises ∧
      Collects (s.subscribeAll t g j rest) g G' G.promises.length := by
  induction rest generalizing s G j with
  | nil =>
    refine ⟨G, rfl, { h with listed := fun p i => ?_ }⟩
    have hj : G.promises.length ≤ j := List.drop_eq_nil_iff.mp hrest
    have hiff : (i < j ∧ G.promises[i]? = some p) ↔
        (i < G.promises.length ∧ G.promises[i]? = some p) := by
      constructor
      · exact fun hi => ⟨(List.getElem?_eq_some_iff.mp hi.2).1, hi.2⟩
      · exact fun hi => ⟨Nat.lt_of_lt_of_le hi.1 hj, hi.2⟩
    exact (h.listed p i).trans (if_congr hiff rfl rfl)
  | cons head rest ih =>
    have hhead : G.promises[j]? = some head.1 := by
      have := congrArg (fun l => l[0]?) hrest
      simpa using this
    have htail : G.promises.drop (j + 1) = rest.map Prod.fst := by
      rw [← List.tail_drop, hrest]
      rfl
    have hp : head.1 < s.made := hmade head List.mem_cons_self
    have htame : Tame s (s.subscribe t head.1 (.gather g j) head.2) :=
      .subscribe hs.toWellFormed hp
    obtain ⟨G', hpromises, hnext⟩ : ∃ G', G'.promises = G.promises ∧
        Collects (s.subscribe t head.1 (.gather g j) head.2) g G' (j + 1) := h.iterate hs hhead
    obtain ⟨G'', hpromises', hall⟩ := ih hnext (hs.subscribe hp) (by rw [hpromises, htail])
      (fun p hp => htame.made ▸ hmade p (List.mem_cons_of_mem _ hp))
    exact ⟨G'', hpromises'.trans hpromises, hpromises ▸ hall⟩

/-- A function that was not passed to any promise was not called. -/
theorem Sound.told_eq_nil (hs : Sound s) (hnames : ∀ p i, .gather g i ∉ subscribers s.log p) :
    told s.log g = [] := by
  rw [List.eq_nil_iff_forall_not_mem]
  intro c hc
  obtain ⟨p, hp⟩ := mem_told.mp hc
  obtain ⟨o, -, -, hperm⟩ := (hs.accounted p).share
  exact hnames p c.1 (hperm.subset (List.mem_append_left _ (List.mem_map_of_mem hp)))

end Collects

/-! ## Steps -/

/-- The invariant of the runs that keep all subscribers, with every `gather`. -/
structure Gathering (s : State α) : Prop extends Sound s where
  collects : ∀ g G, (s.promises g).gathers = some G → Collects s g G G.promises.length
  names : ∀ p g i, .gather g i ∈ subscribers s.log p → (s.promises g).gathers.isSome

/-- Every `gather` goes on, and none starts. -/
structure Continues (s s' : State α) : Prop where
  collects : ∀ g G, (s.promises g).gathers = some G →
    ∃ G', G'.promises = G.promises ∧ Collects s' g G' G.promises.length
  gathers : ∀ g, (s'.promises g).gathers.isSome = (s.promises g).gathers.isSome
  listed : ∀ p g i, (subscribers s'.log p).count (.gather g i) =
    (subscribers s.log p).count (.gather g i)

section Steps

variable {s s' u : State α} {g p : PromiseId} {t : ℕ} {cb : Callback} {r : Reply α}

/-- A step that is aside for every `gather` keeps the account of each. -/
theorem Gathering.aside (hs : Gathering s) (ha : ∀ g, Aside s s' g) : Continues s s' where
  collects g G hG := ⟨G, rfl, (hs.collects g G hG).aside (ha g)⟩
  gathers g := by rw [(ha g).gathers]
  listed p g i := (ha g).listed p i

/-- A step that starts no `gather` keeps the invariant if it keeps soundness and each account. -/
theorem Gathering.continue (hs : Gathering s) (hsound : Sound s') (hc : Continues s s') :
    Gathering s' where
  toSound := hsound
  collects g G' hG' := by
    have hsome : (s.promises g).gathers.isSome := by
      rw [← hc.gathers, hG']
      rfl
    obtain ⟨G, hG⟩ := Option.isSome_iff_exists.mp hsome
    obtain ⟨G'', hpromises, hcollects⟩ := hc.collects g G hG
    obtain rfl := Option.some.inj (hcollects.gathers.symm.trans hG')
    rwa [hpromises]
  names p g i hmem := by
    rw [hc.gathers]
    apply hs.names p g i
    rwa [← List.count_pos_iff, ← hc.listed, List.count_pos_iff]

/-- A subscriber that waits is called. -/
theorem Gathering.call (hs : Gathering s) (hu : ∀ g, Aside s u g) {o : Option ℕ}
    (hperm : (calls s.log p).map Prod.fst ++ (s.promises p).waiting o ~ subscribers s.log p)
    (hwaits : cb ∈ (s.promises p).waiting o) : Continues s (u.call t p cb r) := by
  cases cb with
  | script f => exact hs.aside fun g => (hu g).trans (.call (by simp))
  | gather g i =>
    have hsub : .gather g i ∈ subscribers s.log p :=
      hperm.subset (List.mem_append_right _ hwaits)
    obtain ⟨G, hG⟩ := Option.isSome_iff_exists.mp (hs.names p g i hsub)
    have hold := hs.collects g G hG
    have hcount := hold.listed p i
    have hpos : 0 < (subscribers s.log p).count (.gather g i) := List.count_pos_iff.mpr hsub
    split at hcount
    · next hplace =>
      have hnew : i ∉ (told s.log g).map Prod.fst := by
        intro hmem
        obtain ⟨c, hc, rfl⟩ := List.mem_map.mp hmem
        obtain ⟨-, q, hq, hcall⟩ := hold.place hs.accounted hc
        obtain rfl : p = q := Option.some.inj (hplace.2.symm.trans hq)
        have hcalled : 0 < ((calls s.log p).map Prod.fst).count (.gather g c.1) :=
          List.count_pos_iff.mpr (List.mem_map_of_mem hcall)
        have hwaiting : 0 < ((s.promises p).waiting o).count (.gather g c.1) :=
          List.count_pos_iff.mpr hwaits
        have hsum := hperm.count_eq (.gather g c.1)
        rw [List.count_append] at hsum
        omega
      have hcollects := hold.aside (hu g)
      obtain ⟨G', hpromises, hcollects⟩ := hcollects.call (t := t) (p := p) (r := r)
        (fun c hc => (hold.place hs.accounted ((hu g).told ▸ hc)).1) hplace.1
        (by rwa [(hu g).told])
      have haway : ∀ g', g' ≠ g → Aside s (u.call t p (.gather g i) r) g' := fun g' hg =>
        (hu g').trans (.call fun k h => hg (Callback.gather.inj h).1.symm)
      refine ⟨fun g' G₀ hG₀ => ?_, fun g' => ?_, fun q g' k => ?_⟩
      · by_cases hg : g' = g
        · subst hg
          obtain rfl := Option.some.inj (hG.symm.trans hG₀)
          exact ⟨G', hpromises, hcollects⟩
        · exact ⟨G₀, rfl, (hs.collects g' G₀ hG₀).aside (haway g' hg)⟩
      · by_cases hg : g' = g
        · subst hg
          simp [hcollects.gathers, hG]
        · rw [(haway g' hg).gathers]
      · by_cases hg : g' = g
        · subst hg
          rw [hcollects.listed, hold.listed, hpromises]
        · exact (haway g' hg).listed q k
    · omega

/-- The next iteration of a loop may call a function of a `gather`: then the locals and the log
change together. -/
theorem Gathering.next (hs : Gathering s) (hnext : s.next t = some s') : Continues s s' := by
  unfold State.next at hnext
  split at hnext
  · next p i rest hstack =>
    split at hnext
    · next cb r hcb hr =>
      obtain rfl := Option.some.inj hnext
      obtain ⟨o, hloop, ho, hperm⟩ := (hs.accounted p).share
      obtain ⟨rfl, -⟩ := hloop.unique (t := t) (i := i) (by simp [hstack])
      obtain ⟨hnative, -⟩ := ho rfl
      apply hs.call (fun g => .setFiber s g t _) hperm
      obtain ⟨hi, rfl⟩ := List.getElem?_eq_some_iff.mp hcb
      have hwaiting : (s.promises p).waiting (some i) = (s.promises p).subs.drop i := by
        simp [Promise.waiting, hnative, hr]
      rw [hwaiting, List.drop_eq_getElem_cons hi]
      exact List.mem_cons_self
    · obtain rfl := Option.some.inj hnext
      exact hs.aside fun g => .setFiber s g t rest
  · next p rest _ =>
    obtain rfl := Option.some.inj hnext
    refine hs.aside fun g => (Aside.setFiber s g t rest).trans (.setPromise ?_)
    rintro rfl
    exact ⟨rfl, rfl⟩
  · next rest _ =>
    obtain rfl := Option.some.inj hnext
    exact hs.aside fun g => .setFiber s g t rest
  · cases hnext

/-- A native promise calls a function of a `gather` the same way. -/
theorem Gathering.deliver (hs : Gathering s) {k : ℕ} (hdeliver : s.deliver t p k = some s') :
    Continues s s' := by
  unfold State.deliver at hdeliver
  dsimp only at hdeliver
  split at hdeliver
  · next cb r hnative hcb hr =>
    obtain rfl := Option.some.inj hdeliver
    obtain ⟨o, -, -, hperm⟩ := (hs.accounted p).share
    refine hs.call (fun g => Aside.trans (.setPromise ?_) (.setFiber _ g t _)) hperm ?_
    · rintro rfl
      exact ⟨rfl, rfl⟩
    · have hwaiting : (s.promises p).waiting o = (s.promises p).subs := by
        simp [Promise.waiting, hnative]
      rw [hwaiting]
      exact List.mem_of_getElem? hcb
  · cases hdeliver

/-- A timer starts a loop, and calls nobody. -/
theorem Gathering.fire (hs : Gathering s) {k : ℕ} (hfire : s.fire k = some s') :
    Continues s s' := by
  unfold State.fire at hfire
  split at hfire
  · next p e _ =>
    obtain rfl := Option.some.inj hfire
    have htimers : ∀ g, Aside s { s with timers := s.timers.eraseIdx k } g := fun g =>
      ⟨rfl, fun _ => rfl, rfl, fun _ _ => rfl⟩
    split
    · exact hs.aside htimers
    · exact hs.aside fun g => (htimers g).trans (.note rfl (by simp [Event.subscriber?]))
  · cases hfire

/-- Only promises of the script have an executor of the script. -/
theorem Gathering.unwind (hs : Gathering s) {rerr : Value α} : Continues s (s.unwind t rerr) := by
  unfold State.unwind
  split
  · next p rest hback =>
    have hmem : Frame.executor p ∈ s.fibers t := by
      apply (List.dropWhile_sublist _).mem
      rw [hback]
      exact List.mem_cons_self
    have hnone : (s.promises p).gathers = none := by
      simpa [Promise.listed] using (hs.executor t p hmem).2.2
    refine hs.aside fun g => ((Aside.setFiber s g t rest).trans (.done ?_)).trans (.setPromise ?_)
    · rintro rfl
      exact hnone
    · rintro rfl
      exact ⟨rfl, rfl⟩
  · next rest _ _ => exact hs.aside fun g => .setFiber s g t rest
  · exact hs.aside fun g => .setFiber s g t []

/-- Native code settles promises of its own, which no `gather` has made. -/
theorem Gathering.settle (hs : Gathering s) (hsettle : s.settle p r = some s') :
    Continues s s' := by
  obtain ⟨⟨-, hnative, -⟩, rfl⟩ := of_guarded hsettle
  have hnone : (s.promises p).listed = none := by
    cases h : (s.promises p).listed with
    | none => rfl
    | some promises => exact absurd (hs.listed p promises h).1 (by simp [hnative])
  have hset : ∀ g, Aside s (s.setPromise p { s.promises p with settled := some r }) g := fun g => by
    by_cases hp : p = g
    · subst hp
      have hgathers : (s.promises p).gathers = none := by simpa [Promise.listed] using hnone
      exact ⟨by simp, fun h => by simp [hgathers] at h, rfl, fun _ _ => rfl⟩
    · exact .setPromise fun h => absurd h hp
  exact hs.aside fun g => (hset g).trans (.note rfl (by simp [Event.subscriber?]))

/-- A promise is made that is not of `gather`. -/
theorem Sound.make_aside (hs : Sound s) {P : Promise α} (hP : P.gathers = none) (g : PromiseId) :
    Aside s (s.make P) g := by
  have hnew : (s.promises s.made).gathers = none := by rw [hs.fresh s.made (Nat.le_refl _)]
  by_cases hg : g = s.made
  · subst hg
    exact ⟨by simp [hP, hnew], fun h => by simp [hnew] at h, rfl, fun _ _ => rfl⟩
  · exact .make hg

/-- `gather` starts. -/
theorem Gathering.gather (hs : Gathering s) {promises : List (PromiseId × Bool)}
    (hpromises : ∀ p ∈ promises, p.1 < s.made) :
    Gathering (s.gather t promises) ∧ ∀ g, g ≠ s.made → Aside s (s.gather t promises) g := by
  have hsound := hs.toSound.gather (t := t) hpromises
  have hnew : (s.promises s.made).gathers = none := by rw [hs.fresh s.made (Nat.le_refl _)]
  have hnames : ∀ p i, .gather s.made i ∉ subscribers s.log p := fun p i hmem => by
    simpa [hnew] using hs.names p s.made i hmem
  have haway : ∀ g, g ≠ s.made → Aside s (s.gather t promises) g := by
    intro g hg
    unfold State.gather
    dsimp only
    split
    · exact (Aside.make hg).trans (.done fun h => absurd h (Ne.symm hg))
    · exact (Aside.make hg).trans (.subscribeAll hg 0)
  have htold := hs.told_eq_nil hnames
  have hcount : ∀ p i, (subscribers s.log p).count (.gather s.made i) = 0 := fun p i =>
    List.count_eq_zero.mpr (hnames p i)
  have hmine : ∃ G, Collects (s.gather t promises) s.made G G.promises.length := by
    unfold State.gather
    dsimp only
    split
    · next hempty =>
      obtain rfl := List.length_eq_zero_iff.mp hempty
      refine ⟨⟨[], [], 0⟩, by simp [done_self], fun p i => by simp [hcount], ?_, ?_⟩
      · rw [told_done, make_log, htold]
        exact ⟨by simp, rfl, rfl, by simp⟩
      · rw [told_done, make_log, htold, done_self, make_self]
        rfl
    · next hsome =>
      let G : Gather α := ⟨promises.map Prod.fst, List.replicate promises.length none,
        promises.length⟩
      have hstart : Collects (s.make { gathers := some G, returned := true }) s.made G 0 := by
        refine ⟨by simp, fun p i => by simp [hcount], ?_, ?_⟩
        · rw [make_log, htold]
          exact ⟨by simp, by simp [results, G], by simp [G], by simp⟩
        · rw [make_log, htold, make_self]
          simp [outcome, firstError, G, Ne.symm hsome]
      obtain ⟨G', hG', hcollects⟩ := hstart.subscribeAll (t := t) (hs.make_gather hpromises) rfl
        (fun p hp => Nat.lt_succ_of_lt (hpromises p hp))
      exact ⟨G', hG' ▸ hcollects⟩
  refine ⟨{ hsound with collects := fun g G hG => ?_, names := fun p g i hmem => ?_ }, haway⟩
  · by_cases hg : g = s.made
    · subst hg
      obtain ⟨G', hcollects⟩ := hmine
      obtain rfl := Option.some.inj (hcollects.gathers.symm.trans hG)
      exact hcollects
    · rw [(haway g hg).gathers] at hG
      exact (hs.collects g G hG).aside (haway g hg)
  · by_cases hg : g = s.made
    · subst hg
      obtain ⟨G', hcollects⟩ := hmine
      simp [hcollects.gathers]
    · rw [(haway g hg).gathers]
      apply hs.names p g i
      rwa [← List.count_pos_iff, ← (haway g hg).listed, List.count_pos_iff]

/-- The list of every `gather` is kept. -/
theorem Continues.listed_eq (hc : Continues s s') {promises : List PromiseId}
    (hlisted : (s.promises g).listed = some promises) :
    (s'.promises g).listed = some promises := by
  obtain ⟨G, hG, rfl⟩ := Option.map_eq_some_iff.mp hlisted
  obtain ⟨G', hpromises, hcollects⟩ := hc.collects g G hG
  simp [Promise.listed, hcollects.gathers, hpromises]

/-- All that a script does, but for calling `gather`, keeps the account of each. -/
theorem Gathering.script (hs : Gathering s) {rest : List Frame} {op : Op α}
    (hop : ∀ promises, op ≠ .gather promises) (hscript : s.script t rest op = some s') :
    Continues s s' := by
  cases op with
  | promise =>
    obtain rfl := Option.some.inj hscript
    exact hs.aside fun g =>
      ((hs.make_aside rfl g).trans (.setFiber _ g t _)).trans (.setFiber _ g t _)
  | subscribe p f =>
    obtain ⟨-, rfl⟩ := of_guarded hscript
    exact hs.aside fun g => .subscribe (by simp)
  | done p r =>
    obtain ⟨⟨-, hnone, -⟩, rfl⟩ := of_guarded hscript
    refine hs.aside fun g => .done ?_
    rintro rfl
    exact Option.isNone_iff_eq_none.mp hnone
  | gather promises => exact absurd rfl (hop promises)
  | pcall =>
    obtain rfl := Option.some.inj hscript
    exact hs.aside fun g => (Aside.setFiber s g t _).trans (.setFiber _ g t _)
  | ret =>
    obtain rfl := Option.some.inj hscript
    exact hs.aside fun g => .setFiber s g t _
  | raise rerr =>
    obtain rfl := Option.some.inj hscript
    exact hs.unwind
  | start | next | fire | native | settle | deliver => cases hscript

/-- A step that keeps the subscribers keeps the invariant and the list of every `gather`. -/
theorem Gathering.step (hs : Gathering s) {a : ℕ × Op α} (hkept : Kept s a)
    (hstep : Async.step s a = some s') :
    Gathering s' ∧ ∀ g promises, (s.promises g).listed = some promises →
      (s'.promises g).listed = some promises := by
  have hsound := hs.toSound.step hkept hstep
  have hcontinue : Continues s s' → Gathering s' ∧ ∀ g promises,
      (s.promises g).listed = some promises → (s'.promises g).listed = some promises :=
    fun hc => ⟨hs.continue hsound hc, fun _ _ hlisted => hc.listed_eq hlisted⟩
  obtain ⟨t, op⟩ := a
  cases op with
  | start =>
    obtain ⟨-, rfl⟩ := of_guarded hstep
    exact hcontinue (hs.aside fun g => .setFiber s g t _)
  | next => exact hcontinue (hs.next hstep)
  | fire k => exact hcontinue (hs.fire hstep)
  | native =>
    obtain rfl := Option.some.inj hstep
    exact hcontinue (hs.aside (hs.make_aside rfl))
  | settle p r => exact hcontinue (hs.settle hstep)
  | deliver p k => exact hcontinue (hs.deliver hstep)
  | gather promises =>
    simp only [Async.step] at hstep
    split at hstep
    · obtain ⟨hpromises, rfl⟩ := of_guarded hstep
      obtain ⟨hgathering, haway⟩ := hs.gather (t := t) fun p hp => (hpromises p hp).1
      refine ⟨hgathering, fun g listed hlisted => ?_⟩
      have hg : g ≠ s.made := by
        rintro rfl
        rw [hs.fresh s.made (Nat.le_refl _)] at hlisted
        cases hlisted
      rwa [Promise.listed, (haway g hg).gathers]
    · cases hstep
  | promise | subscribe | done | pcall | ret | raise =>
    simp only [Async.step] at hstep
    split at hstep
    · exact hcontinue (hs.script (by simp) hstep)
    · cases hstep

/-! ## What is settled stays so -/

/-- An event is appended to the log. -/
theorem note_log (s : State α) (e : Event α) : s.log <+: (s.note e).log :=
  List.prefix_append _ _

/-- `done` only appends to the log. -/
theorem prefix_done (s : State α) (t : ℕ) (p : PromiseId) (r : Reply α) :
    s.log <+: (s.done t p r).log := by
  rw [done_log]
  exact List.prefix_append _ _

/-- A call only appends to the log. -/
theorem prefix_call (s : State α) (t : ℕ) (p : PromiseId) (cb : Callback) (r : Reply α) :
    s.log <+: (s.call t p cb r).log := by
  refine (note_log s (.called p cb r)).trans ?_
  cases cb with
  | script f => exact List.prefix_rfl
  | gather g i =>
    unfold State.call State.enter
    dsimp only
    split
    · unfold State.collect
      split
      · exact prefix_done ..
      · dsimp only
        split
        · rw [done_log]
          exact List.prefix_append _ _
        · exact List.prefix_rfl
    · exact List.prefix_rfl

/-- `subscribe` only appends to the log. -/
theorem prefix_subscribe (s : State α) (t : ℕ) (p : PromiseId) (cb : Callback) (now : Bool) :
    s.log <+: (s.subscribe t p cb now).log := by
  have hcall : ∀ (u : State α) r, u.log <+: ((u.note (.subscribed p cb)).call t p cb r).log :=
    fun u r => (note_log u _).trans (prefix_call ..)
  have hwait : ∀ u : State α, u.log <+: ((u.note (.subscribed p cb)).wait p cb).log :=
    fun u => note_log u _
  unfold State.subscribe
  dsimp only
  split
  · split
    · exact hcall s _
    · exact hwait s
  · split
    · exact hcall (s.setPromise p _) _
    · exact hwait (s.setPromise p _)

/-- So does the loop of `gather`, from any place on. -/
theorem prefix_subscribeAll (s : State α) (t : ℕ) (g : PromiseId) (j : ℕ)
    (rest : List (PromiseId × Bool)) : s.log <+: (s.subscribeAll t g j rest).log := by
  induction rest generalizing s j with
  | nil => exact List.prefix_rfl
  | cons head rest ih => exact (prefix_subscribe ..).trans (ih _ (j + 1))

/-- Nothing that a script does takes an event back. -/
theorem prefix_script {rest : List Frame} {op : Op α} (hscript : s.script t rest op = some s') :
    s.log <+: s'.log := by
  cases op with
  | promise =>
    obtain rfl := Option.some.inj hscript
    exact List.prefix_rfl
  | subscribe p f =>
    obtain ⟨-, rfl⟩ := of_guarded hscript
    exact prefix_subscribe ..
  | done p r =>
    obtain ⟨-, rfl⟩ := of_guarded hscript
    exact prefix_done ..
  | gather promises =>
    obtain ⟨-, rfl⟩ := of_guarded hscript
    unfold State.gather
    dsimp only
    split
    · exact prefix_done (s.make _) t _ _
    · exact prefix_subscribeAll (s.make _) t s.made 0 promises
  | pcall | ret =>
    obtain rfl := Option.some.inj hscript
    exact List.prefix_rfl
  | raise rerr =>
    obtain rfl := Option.some.inj hscript
    unfold State.unwind
    split
    · exact prefix_done (s.setFiber t _) t _ _
    · exact List.prefix_rfl
    · exact List.prefix_rfl
  | start | next | fire | native | settle | deliver => cases hscript

/-- The log only grows. -/
theorem prefix_step {a : ℕ × Op α} (hstep : Async.step s a = some s') : s.log <+: s'.log := by
  obtain ⟨t, op⟩ := a
  cases op with
  | start =>
    obtain ⟨-, rfl⟩ := of_guarded hstep
    exact List.prefix_rfl
  | next =>
    simp only [Async.step, State.next] at hstep
    split at hstep
    · split at hstep
      · obtain rfl := Option.some.inj hstep
        exact prefix_call (s.setFiber t _) t _ _ _
      · obtain rfl := Option.some.inj hstep
        exact List.prefix_rfl
    · obtain rfl := Option.some.inj hstep
      exact List.prefix_rfl
    · obtain rfl := Option.some.inj hstep
      exact List.prefix_rfl
    · cases hstep
  | fire k =>
    simp only [Async.step, State.fire] at hstep
    split at hstep
    · obtain rfl := Option.some.inj hstep
      split
      · exact List.prefix_rfl
      · exact List.prefix_append _ _
    · cases hstep
  | native =>
    obtain rfl := Option.some.inj hstep
    exact List.prefix_rfl
  | settle p r =>
    obtain ⟨-, rfl⟩ := of_guarded hstep
    exact List.prefix_append _ _
  | deliver p k =>
    simp only [Async.step, State.deliver] at hstep
    split at hstep
    · obtain rfl := Option.some.inj hstep
      exact prefix_call (State.push (s.setPromise p _) t _) t p _ _
    · cases hstep
  | promise | subscribe | done | gather | pcall | ret | raise =>
    simp only [Async.step] at hstep
    split at hstep
    · exact prefix_script hstep
    · cases hstep

/-- A settled promise keeps what it was settled with. -/
theorem firstDone_of_prefix {log log' : List (Event α)} (h : log <+: log')
    (hfirst : firstDone log p = some r) : firstDone log' p = some r := by
  obtain ⟨more, rfl⟩ := h
  rw [firstDone, List.findSome?_append, ← firstDone, hfirst, Option.some_or]

end Steps

/-! ## Runs -/

/-- What `gather` guarantees. Its functions are told what the promises of the list are settled with,
each at most once, and every settled promise that has called its subscribers has told its places;
the promise of `gather` is settled with the table of all results when all have told theirs, and with
the first error that is told. -/
structure Gathered (s : State α) (g : PromiseId) (G : Gather α) : Prop where
  heard : ∀ c ∈ told s.log g, ∃ p, G.promises[c.1]? = some p ∧ (s.promises p).settled = some c.2
  once : ((told s.log g).map Prod.fst).Nodup
  handed : ∀ i p r, G.promises[i]? = some p → (s.promises p).settled = some r → s.Handed p →
    (i, r) ∈ told s.log g
  settled : ∀ r, (s.promises g).settled = some r →
    r = ⟨some (.results g), none⟩ ∨ ∃ e, r = ⟨none, some e⟩
  resolved : (s.promises g).settled = some ⟨some (.results g), none⟩ →
    G.results.length = G.promises.length ∧ ∀ (i : ℕ) p, G.promises[i]? = some p →
      ∃ r, (s.promises p).settled = some r ∧ r.err = none ∧ G.results[i]? = some r.res
  resolves : (∀ p ∈ G.promises, s.Handed p) →
    (∀ p ∈ G.promises, ∃ r, (s.promises p).settled = some r ∧ r.err = none) →
      (s.promises g).settled = some ⟨some (.results g), none⟩
  rejects : ∀ e, (s.promises g).settled = some ⟨none, some e⟩ ↔ firstError (told s.log g) = some e

section Runs

variable {s : State α} {g p : PromiseId} {G : Gather α} {i : ℕ} {r : Reply α}

/-- What a function was told is what its promise was settled with. -/
theorem Collects.told_settled (h : Collects s g G G.promises.length) (hs : Sound s)
    {c : ℕ × Reply α} (hc : c ∈ told s.log g) :
    ∃ p, G.promises[c.1]? = some p ∧ (s.promises p).settled = some c.2 := by
  obtain ⟨-, p, hp, hcall⟩ := h.place hs.accounted hc
  exact ⟨p, hp, (hs.accounted p).reply _ hcall⟩

/-- A settled promise that has called its subscribers has told its places. -/
theorem Collects.told_of_handed (h : Collects s g G G.promises.length) (hs : Sound s)
    (hp : G.promises[i]? = some p) (hr : (s.promises p).settled = some r) (hhanded : s.Handed p) :
    (i, r) ∈ told s.log g := by
  have hwaiting : (s.promises p).waiting none = [] := by
    cases hnative : (s.promises p).native with
    | true => simp [Promise.waiting, hnative, hhanded.2 hnative]
    | false => simp [Promise.waiting, hnative, hr]
  have hperm := (hs.accounted p).idle hhanded.1
  rw [hwaiting, List.append_nil] at hperm
  have hi : i < G.promises.length := (List.getElem?_eq_some_iff.mp hp).1
  have hcount := h.listed p i
  rw [if_pos ⟨hi, hp⟩] at hcount
  have hsub : .gather g i ∈ subscribers s.log p := List.count_pos_iff.mp (by omega)
  obtain ⟨c, hc, hcb⟩ := List.mem_map.mp (hperm.symm.subset hsub)
  have hreply := (hs.accounted p).reply c hc
  obtain rfl : c.2 = r := Option.some.inj (hreply.symm.trans hr)
  exact mem_told.mpr ⟨p, hcb ▸ hc⟩

/-- The replies settle the `gather` with the results if and only if all places were told theirs. -/
theorem outcome_eq_results {replies : List (ℕ × Reply α)} {n : ℕ} :
    outcome g n replies = some ⟨some (.results g), none⟩ ↔
      firstError replies = none ∧ replies.length = n := by
  cases h : firstError replies with
  | some e => simp [outcome, h]
  | none => simp [outcome, h]

/-- A `gather` rejects with the first error among its replies. -/
theorem outcome_eq_error {replies : List (ℕ × Reply α)} {n : ℕ} {e : Value α} :
    outcome g n replies = some ⟨none, some e⟩ ↔ firstError replies = some e := by
  cases h : firstError replies with
  | some e' => simp [outcome, h]
  | none => by_cases hn : replies.length = n <;> simp [outcome, h, hn]

/-- A `gather` is settled with its table of results, or with an error. -/
theorem outcome_cases {replies : List (ℕ × Reply α)} {n : ℕ}
    (h : outcome g n replies = some r) :
    r = ⟨some (.results g), none⟩ ∨ ∃ e, r = ⟨none, some e⟩ := by
  unfold outcome at h
  split at h
  · next e _ => exact .inr ⟨e, (Option.some.inj h).symm⟩
  · exact .inl (Option.some.inj (Option.ite_none_right_eq_some.mp h).2).symm

/-- The invariant gives what `gather` guarantees. -/
theorem Gathering.gathered (hs : Gathering s) (hG : (s.promises g).gathers = some G) :
    Gathered s g G := by
  have h := hs.collects g G hG
  have hplaces : (told s.log g).map Prod.fst ⊆ List.range G.promises.length := by
    intro i hi
    obtain ⟨c, hc, rfl⟩ := List.mem_map.mp hi
    exact List.mem_range.mpr (h.place hs.accounted hc).1
  have hsubperm := h.tally.nodup.subperm hplaces
  refine ⟨fun c hc => h.told_settled hs.toSound hc, h.tally.nodup,
    fun i p r hp hr hhanded => h.told_of_handed hs.toSound hp hr hhanded,
    fun r hr => outcome_cases (h.settled ▸ hr), fun hsettled => ?_, fun hhanded hall => ?_, ?_⟩
  · rw [h.settled, outcome_eq_results] at hsettled
    obtain ⟨hnone, hlength⟩ := hsettled
    have hperm := hsubperm.perm_of_length_le (by simp [hlength])
    refine ⟨h.tally.size, fun i p hp => ?_⟩
    have hi : i < G.promises.length := (List.getElem?_eq_some_iff.mp hp).1
    obtain ⟨c, hc, rfl⟩ := List.mem_map.mp (hperm.symm.subset (List.mem_range.mpr hi))
    obtain ⟨q, hq, hsettled⟩ := h.told_settled hs.toSound hc
    obtain rfl : p = q := Option.some.inj (hp.symm.trans hq)
    have herr : c.2.err = none := List.findSome?_eq_none_iff.mp hnone c hc
    exact ⟨c.2, hsettled, herr, h.tally.results c hc herr⟩
  · rw [h.settled, outcome_eq_results]
    have hranges : List.range G.promises.length ⊆ (told s.log g).map Prod.fst := by
      intro i hi
      have hi := List.mem_range.mp hi
      have hp : G.promises[i]? = some G.promises[i] := List.getElem?_eq_getElem hi
      have hmem := List.getElem_mem hi
      obtain ⟨r, hr, -⟩ := hall _ hmem
      exact List.mem_map.mpr ⟨(i, r), h.told_of_handed hs.toSound hp hr (hhanded _ hmem), rfl⟩
    have hlength := (List.nodup_range.subperm hranges).length_le
    have hle := hsubperm.length_le
    simp only [List.length_map, List.length_range] at hlength hle
    refine ⟨List.findSome?_eq_none_iff.mpr fun c hc => ?_, by omega⟩
    obtain ⟨p, hp, hsettled⟩ := h.told_settled hs.toSound hc
    obtain ⟨r, hr, herr⟩ := hall p (List.mem_of_getElem? hp)
    obtain rfl : r = c.2 := Option.some.inj (hr.symm.trans hsettled)
    exact herr
  · intro e
    rw [h.settled, outcome_eq_error]

/-- Before any script runs there is no `gather`. -/
theorem init_gathering : Gathering (init : State α) where
  toSound := init_sound
  collects _ _ h := by cases h
  names _ _ _ h := by cases h

end Runs

/-- Along a run from the start in which no error leaves a loop of `done` that has subscribers left
to call, every `gather` does what it guarantees, and what it is settled with does not change. -/
theorem gathered_of_run {front back : List (ℕ × Op α)} {s t : State α}
    (hgood : Along step Kept init (front ++ back)) (hs : run step init front = some s)
    (ht : run step s back = some t) {g : PromiseId} {promises : List PromiseId}
    (hlisted : (s.promises g).listed = some promises) :
    ∃ G, (t.promises g).gathers = some G ∧ G.promises = promises ∧ Gathered t g G ∧
      ∀ r, (s.promises g).settled = some r → (t.promises g).settled = some r ∧
        (r.err = none → (s.promises g).gathers.map Gather.results = some G.results) := by
  have hstart : Gathering s := run_invariant (fun hs hkept hstep => (hs.step hkept hstep).1)
    init_gathering hgood (List.prefix_append front back) hs
  have hstep : ∀ {u v : State α} {a : ℕ × Op α},
      Gathering u ∧ (u.promises g).listed = some promises ∧ s.log <+: u.log →
      Kept u a → step u a = some v →
      Gathering v ∧ (v.promises g).listed = some promises ∧ s.log <+: v.log := by
    rintro u v a ⟨hu, hkeeps, hlog⟩ hkept hstep
    obtain ⟨hv, hlists⟩ := hu.step hkept hstep
    exact ⟨hv, hlists g promises hkeeps, hlog.trans (prefix_step hstep)⟩
  obtain ⟨hgathering, hkeeps, hlog⟩ := run_invariant hstep ⟨hstart, hlisted, List.prefix_rfl⟩
    (hgood.of_append hs) List.prefix_rfl ht
  have hstable : ∀ p r, (s.promises p).settled = some r → (t.promises p).settled = some r := by
    intro p r hr
    rw [(hgathering.accounted p).first]
    exact firstDone_of_prefix hlog ((hstart.accounted p).first ▸ hr)
  obtain ⟨G, hG, hpromises⟩ := Option.map_eq_some_iff.mp hkeeps
  obtain ⟨G₀, hG₀, hpromises₀⟩ := Option.map_eq_some_iff.mp hlisted
  refine ⟨G, hG, hpromises, hgathering.gathered hG, fun r hr => ⟨hstable g r hr, fun herr => ?_⟩⟩
  have hresults : r = ⟨some (.results g), none⟩ := by
    rcases (hstart.gathered hG₀).settled r hr with h | ⟨e, rfl⟩
    · exact h
    · cases herr
  subst hresults
  obtain ⟨hlength, hthen⟩ := (hgathering.gathered hG).resolved (hstable g _ hr)
  obtain ⟨hlength₀, hthen₀⟩ := (hstart.gathered hG₀).resolved hr
  rw [hG₀, Option.map_some, Option.some_inj]
  apply List.ext_getElem?
  intro i
  rw [hpromises] at hlength hthen
  rw [hpromises₀] at hlength₀ hthen₀
  by_cases hi : i < promises.length
  · have hp : promises[i]? = some promises[i] := List.getElem?_eq_getElem hi
    obtain ⟨r₀, hr₀, -, hres₀⟩ := hthen₀ i _ hp
    obtain ⟨r, hr, -, hres⟩ := hthen i _ hp
    obtain rfl : r₀ = r := Option.some.inj ((hstable _ _ hr₀).symm.trans hr)
    rw [hres₀, hres]
  · rw [List.getElem?_eq_none (by omega), List.getElem?_eq_none (by omega)]

/-- Two promises are made. -/
def twoPromises : List (ℕ × Op ℕ) :=
  [(0, .start), (0, .promise), (0, .ret), (0, .next), (0, .promise), (0, .ret), (0, .next)]

/-- The promises of a list are gathered, the first listed twice. -/
def gatherTwice : List (ℕ × Op ℕ) :=
  twoPromises ++ [(0, .gather [(0, false), (1, false), (0, false)])]

/-- The second promise resolves, then the first. -/
def secondFirst : List (ℕ × Op ℕ) :=
  [(0, .done 1 ⟨some (.data 8), none⟩), (0, .next), (0, .next),
    (0, .done 0 ⟨some (.data 7), none⟩), (0, .next), (0, .next), (0, .next)]

/-- The second promise resolves before the first, which is listed twice: the results still stand in
the order of the list. -/
theorem gathered_secondFirst : ∃ s t, run step init gatherTwice = some s ∧
    run step s secondFirst = some t ∧
    ∃ G, (t.promises 2).gathers = some G ∧ G.promises = [0, 1, 0] ∧ Gathered t 2 G ∧
      ∀ r, (s.promises 2).settled = some r → (t.promises 2).settled = some r ∧
        (r.err = none → (s.promises 2).gathers.map Gather.results = some G.results) := by
  have hgood : Along step Kept init (gatherTwice ++ secondFirst) := by decide
  exact ⟨_, _, rfl, rfl, gathered_of_run hgood rfl rfl rfl⟩

/-- The error of the promise of the list that rejects first. -/
def firstRejection (promises : List PromiseId) : List (Event α) → Option (Value α)
  | [] => none
  | .done p r :: rest =>
    if p ∈ promises then r.err.or (firstRejection (promises.filter (· ≠ p)) rest)
    else firstRejection promises rest
  | _ :: rest => firstRejection promises rest

/-- Both promises reject before `gather`, the second one first: `gather` rejects with the error of
the first one. -/
theorem not_firstRejection_secondFirst :
    ¬ ∀ (actions : List (ℕ × Op ℕ)) s g promises e, Along step Kept init actions →
      run step init actions = some s → (s.promises g).listed = some promises →
      (s.promises g).settled = some ⟨none, some e⟩ → firstRejection promises s.log = some e := by
  intro h
  have herror := h (twoPromises ++ [(0, .done 1 ⟨none, some (.data 8)⟩),
    (0, .done 0 ⟨none, some (.data 7)⟩), (0, .gather [(0, false), (1, false)])]) _ 2 [0, 1]
    (.data 7) (by decide) rfl rfl rfl
  exact absurd herror (by decide)

end Radapter.Async
