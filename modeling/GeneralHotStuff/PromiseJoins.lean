-- What the functions of one call of `all` share. Each part fills in its result once, in
-- whatever order they are settled, so the count reaches zero with the last of them.
import Mathlib.Data.Finset.Card
import GeneralHotStuff.PromiseCalls

namespace general_hotstuff.promise

open transitions

variable {V F : Type} {s s' : Machine V F} {e : Event V F} {lost : Prop} {j npm : ℕ}
  {pms ids ids' : List ℕ}

/-! ## What belongs to one call of `all` -/

/-- What `all` may be settled with: the results of all its parts, or the reason of one. -/
def Outcome (pms : List ℕ) (s : Machine V F) : Side → Any V → Prop
  | .fulfilled, v => (∀ pm ∈ pms, (s.promises pm).state = some .fulfilled) ∧
    v = .values (pms.map fun pm => (s.promises pm).any .fulfilled)
  | .rejected, v => ∃ pm ∈ pms, (s.promises pm).state = some .rejected ∧
    v = (s.promises pm).any .rejected

/-- `ids` are what `then` has returned for the parts so far. Only these registrations have the
functions of the join, and none settles `npm` when its function returns. -/
structure Ours (j npm : ℕ) (ids : List ℕ) (cb : Callback F) : Prop where
  other : cb.npm ≠ npm
  fill : ∀ idx, cb.func = some (.fill j idx) → ids[idx]? = some cb.npm
  settle : ∀ side, cb.func = some (.settle npm side) → cb.npm ∈ ids

/-- A call of `resolve` or `reject` that comes next settles `npm` with an outcome. -/
def Frame.Ours (j npm : ℕ) (pms ids : List ℕ) (s : Machine V F) : Frame V F → Prop
  | .user _ m => m ≠ npm
  | .settle m side v => m = npm → ∃ a, v = some a ∧ Outcome pms s side a
  | .fire _ _ cbs => ∀ cb ∈ cbs, promise.Ours j npm ids cb
  | .all .. => True

/-- Each part has been registered once. -/
def Parts (lost : Prop) (j npm : ℕ) (pms ids : List ℕ) (s : Machine V F) : Prop :=
  ∀ idx pm id, pms[idx]? = some pm → ids[idx]? = some id →
    Tracks lost pm id (Machine.part j idx npm) s

/-- `size` counts the parts that have not filled in their result. -/
structure Counts (j n : ℕ) (s : Machine V F) : Prop where
  results : (s.joins j).results.length = n
  filled : ∀ r ∈ s.ran, ∀ idx, r.callback.func = some (.fill j idx) →
    (s.joins j).results[idx]? = some r.arg
  size : ∃ D : Finset ℕ,
    (∀ idx, idx ∈ D ↔ ∃ r ∈ s.ran, r.callback.func = some (.fill j idx)) ∧
      (s.joins j).size + D.card = n

/-- The join `j` of a call of `all` that returned `npm`. -/
structure Joined (j npm : ℕ) (pms ids : List ℕ) (s : Machine V F) : Prop where
  made : npm < s.next
  length : ids.length ≤ pms.length
  callbacks : ∀ q side, ∀ cb ∈ (s.promises q).callbacks side, Ours j npm ids cb
  stack : ∀ frame ∈ s.stack, frame.Ours j npm pms ids s
  ran : ∀ r ∈ s.ran, Ours j npm ids r.callback
  join : (s.joins j).npm = npm
  others : ∀ j' ≠ j, j' < s.next_join → (s.joins j').npm ≠ npm
  counts : Counts j pms.length s
  state : ∀ side, (s.promises npm).state = some side →
    Outcome pms s side ((s.promises npm).any side)

theorem Outcome.mono {side : Side} {v : Any V} (h : Outcome pms s side v) (hg : Grows s s') :
    Outcome pms s' side v := by
  cases side with
  | fulfilled =>
    obtain ⟨hall, rfl⟩ := h
    refine ⟨fun pm hpm => (hg.settled pm _ (hall pm hpm)).1, ?_⟩
    congr 1
    apply List.map_congr_left
    intro pm hpm
    rw [(hg.settled pm _ (hall pm hpm)).2]
  | rejected =>
    obtain ⟨pm, hpm, hst, rfl⟩ := h
    obtain ⟨hst', hany⟩ := hg.settled pm _ hst
    exact ⟨pm, hpm, hst', by rw [hany]⟩

theorem Ours.mono {cb : Callback F} (h : Ours j npm ids cb) (hids : ids <+: ids') :
    Ours j npm ids' cb where
  other := h.other
  fill idx hf := by
    obtain ⟨more, rfl⟩ := hids
    have hidx := h.fill idx hf
    rw [List.getElem?_append_left (List.getElem?_eq_some_iff.mp hidx).1]
    exact hidx
  settle side hf := hids.subset (h.settle side hf)

theorem Frame.Ours.mono {frame : Frame V F} (h : frame.Ours j npm pms ids s)
    (hids : ids <+: ids') (hg : Grows s s') : frame.Ours j npm pms ids' s' := by
  cases frame with
  | user side m => exact h
  | settle m side v =>
    intro hm
    obtain ⟨a, ha, ho⟩ := h hm
    exact ⟨a, ha, ho.mono hg⟩
  | fire pm side cbs => exact fun cb hcb => (h cb hcb).mono hids
  | all => trivial

/-! ## What the parts have been settled with -/

/-- A registration has run at most one of its callbacks. -/
theorem Tracks.ran_once {pm id : ℕ} {on : Side → Option (Func F)} (h : Tracks lost pm id on s)
    {r : Ran V F} (hr : r ∈ s.ran) (hid : r.callback.npm = id) :
    ∃ side, (s.promises pm).state = some side ∧
      ranFor id s.ran = [⟨⟨on side, id⟩, side, (s.promises pm).any side⟩] ∧
        r = ⟨⟨on side, id⟩, side, (s.promises pm).any side⟩ := by
  have hmem : r ∈ ranFor id s.ran := List.mem_filter.mpr ⟨hr, by simpa using hid⟩
  cases hst : (s.promises pm).state with
  | none =>
    rw [(h.pending hst).2.2] at hmem
    cases hmem
  | some side =>
    rcases h.settled side hst with ⟨-, hran⟩ | ⟨-, hran⟩ | ⟨-, -, hran⟩
    · rw [hran] at hmem
      cases hmem
    · exact ⟨side, rfl, hran, List.mem_singleton.mp (hran ▸ hmem)⟩
    · rw [hran] at hmem
      cases hmem

theorem Parts.filled (h : Parts lost j npm pms ids s) (hlen : ids.length ≤ pms.length)
    {r : Ran V F} (hr : r ∈ s.ran) (ho : Ours j npm ids r.callback) {idx : ℕ}
    (hf : r.callback.func = some (.fill j idx)) :
    ∃ pm, pms[idx]? = some pm ∧ (s.promises pm).state = some .fulfilled ∧
      r.arg = (s.promises pm).any .fulfilled := by
  have hid := ho.fill idx hf
  have hlt := (List.getElem?_eq_some_iff.mp hid).1
  have hpm : pms[idx]? = some pms[idx] := List.getElem?_eq_getElem (Nat.lt_of_lt_of_le hlt hlen)
  obtain ⟨side, hst, -, heq⟩ := (h idx _ _ hpm hid).ran_once hr rfl
  rw [heq] at hf
  cases side with
  | fulfilled => exact ⟨_, hpm, hst, by rw [heq]⟩
  | rejected => cases hf

theorem Parts.rejected (h : Parts lost j npm pms ids s) (hlen : ids.length ≤ pms.length)
    {r : Ran V F} (hr : r ∈ s.ran) (ho : Ours j npm ids r.callback) {side : Side}
    (hf : r.callback.func = some (.settle npm side)) : Outcome pms s side r.arg := by
  obtain ⟨idx, hlt, hid⟩ := List.mem_iff_getElem.mp (ho.settle side hf)
  have hpm : pms[idx]? = some pms[idx] := List.getElem?_eq_getElem (Nat.lt_of_lt_of_le hlt hlen)
  obtain ⟨side', hst, -, heq⟩ :=
    (h idx _ _ hpm (List.getElem?_eq_some_iff.mpr ⟨hlt, hid⟩)).ran_once hr rfl
  rw [heq] at hf
  cases side' with
  | fulfilled => cases hf
  | rejected =>
    cases hf
    exact ⟨_, List.getElem_mem _, hst, by rw [heq]⟩

/-! ## Counting down -/

theorem filled_self (s : Machine V F) (j idx : ℕ) (arg : Any V) :
    s.filled (some (.fill j idx)) arg j = (s.joins j).fill idx arg := by
  simp [Machine.filled]

theorem filled_of_ne {func : Option (Func F)} (h : ∀ idx, func ≠ some (.fill j idx))
    (s : Machine V F) (arg : Any V) : s.filled func arg j = s.joins j := by
  unfold Machine.filled
  split
  · rename_i j' idx
    have hne : j ≠ j' := by
      rintro rfl
      exact h idx rfl
    exact Function.update_of_ne hne ..
  · rfl

namespace Counts

variable {n : ℕ} {cb : Callback F} {side : Side} {arg : Any V}

theorem subset (h : Counts j n s) {D : Finset ℕ}
    (hD : ∀ idx, idx ∈ D ↔ ∃ r ∈ s.ran, r.callback.func = some (.fill j idx)) :
    D ⊆ Finset.range n := by
  intro idx hidx
  obtain ⟨r, hr, hf⟩ := (hD idx).mp hidx
  have hlt := (List.getElem?_eq_some_iff.mp (h.filled r hr idx hf)).1
  rw [h.results] at hlt
  exact Finset.mem_range.mpr hlt

/-- The count is zero when every part has filled in its result. -/
theorem zero_iff (h : Counts j n s) : (s.joins j).size = 0 ↔
    ∀ idx < n, ∃ r ∈ s.ran, r.callback.func = some (.fill j idx) := by
  obtain ⟨D, hD, hcard⟩ := h.size
  have hsub := h.subset hD
  constructor
  · intro hzero idx hlt
    have heq : D = Finset.range n := by
      apply Finset.eq_of_subset_of_card_le hsub
      rw [Finset.card_range]
      omega
    exact (hD idx).mp (heq ▸ Finset.mem_range.mpr hlt)
  · intro hall
    have heq : D = Finset.range n :=
      hsub.antisymm fun idx hidx => (hD idx).mpr (hall idx (Finset.mem_range.mp hidx))
    rw [heq, Finset.card_range] at hcard
    omega

/-- A part fills in its result for the first time. -/
theorem fill (h : Counts j n s) {idx : ℕ} (hcb : cb.func = some (.fill j idx)) (hlt : idx < n)
    (hnew : ∀ r ∈ s.ran, r.callback.func ≠ some (.fill j idx)) :
    Counts j n (s.run cb side arg) := by
  have hjoin : (s.run cb side arg).joins j = (s.joins j).fill idx arg := by
    simp only [Machine.run, hcb, filled_self]
  refine ⟨?_, fun r hr idx' hf => ?_, ?_⟩
  · rw [hjoin]
    simpa [Join.fill] using h.results
  · rw [hjoin]
    rcases List.mem_append.mp hr with hr | hr
    · have hne : idx ≠ idx' := by
        rintro rfl
        exact hnew r hr hf
      simpa [Join.fill, List.getElem?_set_ne hne] using h.filled r hr idx' hf
    · rw [List.mem_singleton.mp hr] at hf ⊢
      have heq : idx = idx' := by simpa [hcb] using hf
      subst heq
      simp [Join.fill, h.results, hlt]
  · obtain ⟨D, hD, hcard⟩ := h.size
    have hmem : idx ∉ D := fun hmem => by
      obtain ⟨r, hr, hf⟩ := (hD idx).mp hmem
      exact hnew r hr hf
    refine ⟨insert idx D, fun idx' => ?_, ?_⟩
    · rw [Finset.mem_insert, hD]
      simp only [Machine.run, List.mem_append, List.mem_singleton]
      constructor
      · rintro (rfl | ⟨r, hr, hf⟩)
        · exact ⟨_, Or.inr rfl, hcb⟩
        · exact ⟨r, Or.inl hr, hf⟩
      · rintro ⟨r, hr | rfl, hf⟩
        · exact Or.inr ⟨r, hr, hf⟩
        · exact Or.inl (by simpa [hcb] using hf.symm)
    · have hsub : insert idx D ⊆ Finset.range n :=
        Finset.insert_subset (Finset.mem_range.mpr hlt) (h.subset hD)
      have hle := Finset.card_le_card hsub
      rw [Finset.card_range, Finset.card_insert_of_notMem hmem] at hle
      rw [hjoin, Finset.card_insert_of_notMem hmem]
      simp only [Join.fill]
      omega

/-- Any other callback. -/
theorem other (h : Counts j n s) (hcb : ∀ idx, cb.func ≠ some (.fill j idx)) :
    Counts j n (s.run cb side arg) := by
  have hjoin : (s.run cb side arg).joins j = s.joins j := filled_of_ne hcb s arg
  have hran : ∀ idx, (∃ r ∈ (s.run cb side arg).ran, r.callback.func = some (.fill j idx)) ↔
      ∃ r ∈ s.ran, r.callback.func = some (.fill j idx) := by
    intro idx
    simp [Machine.run, or_and_right, exists_or, hcb idx]
  refine ⟨by rw [hjoin]; exact h.results, fun r hr idx hf => ?_, ?_⟩
  · rw [hjoin]
    rcases List.mem_append.mp hr with hr | hr
    · exact h.filled r hr idx hf
    · rw [List.mem_singleton.mp hr] at hf
      exact (hcb idx hf).elim
  · obtain ⟨D, hD, hcard⟩ := h.size
    exact ⟨D, fun idx => (hD idx).trans (hran idx).symm, by rw [hjoin]; exact hcard⟩

end Counts

/-- The results of the parts, once all are there. -/
theorem Parts.outcome (h : Parts lost j npm pms ids s) (hlen : ids.length ≤ pms.length)
    (hran : ∀ r ∈ s.ran, Ours j npm ids r.callback) (hc : Counts j pms.length s)
    (hzero : (s.joins j).size = 0) :
    Outcome pms s .fulfilled (.values (s.joins j).results) := by
  have hpart : ∀ idx < pms.length, ∃ pm, pms[idx]? = some pm ∧
      (s.promises pm).state = some .fulfilled ∧
        (s.joins j).results[idx]? = some ((s.promises pm).any .fulfilled) := by
    intro idx hlt
    obtain ⟨r, hr, hf⟩ := hc.zero_iff.mp hzero idx hlt
    obtain ⟨pm, hpm, hst, harg⟩ := h.filled hlen hr (hran r hr) hf
    exact ⟨pm, hpm, hst, harg ▸ hc.filled r hr idx hf⟩
  refine ⟨fun pm hpm => ?_, ?_⟩
  · obtain ⟨idx, hlt, rfl⟩ := List.mem_iff_getElem.mp hpm
    obtain ⟨pm, hpm, hst, -⟩ := hpart idx hlt
    rw [List.getElem?_eq_getElem hlt, Option.some.injEq] at hpm
    rwa [hpm]
  · congr 1
    apply List.ext_getElem?
    intro idx
    by_cases hlt : idx < pms.length
    · obtain ⟨pm, hpm, -, hres⟩ := hpart idx hlt
      rw [hres, List.getElem?_map, hpm]
      rfl
    · rw [List.getElem?_eq_none (hc.results ▸ Nat.le_of_not_lt hlt), List.getElem?_eq_none]
      simpa using hlt

/-! ## The join is kept -/

namespace Joined

theorem with_stack (h : Joined j npm pms ids s) {st : List (Frame V F)}
    (hst : ∀ frame ∈ st, frame.Ours j npm pms ids s) :
    Joined j npm pms ids { s with stack := st } where
  made := h.made
  length := h.length
  callbacks := h.callbacks
  stack frame hf := (hst frame hf).mono List.prefix_rfl (.with_stack s st)
  ran := h.ran
  join := h.join
  others := h.others
  counts := ⟨h.counts.results, h.counts.filled, h.counts.size⟩
  state side hs := (h.state side hs).mono (.with_stack s st)

theorem tail (h : Joined j npm pms ids s) {frame : Frame V F} {st : List (Frame V F)}
    (hst : s.stack = frame :: st) : Joined j npm pms ids { s with stack := st } :=
  h.with_stack fun f hf => h.stack f (hst ▸ List.mem_cons_of_mem _ hf)

/-- `npm` is only settled with an outcome. -/
theorem of_settle (h : Joined j npm pms ids s) {q : ℕ} {side : Side} {v : Option (Any V)}
    (hq : q = npm → ∃ a, v = some a ∧ Outcome pms s side a) :
    Joined j npm pms ids (s.settle q side v) := by
  have hg := Grows.of_settle s q side v
  revert hg
  unfold Machine.settle
  simp only
  split
  · rename_i hpend
    intro hg
    refine ⟨h.made, h.length, fun q' side' cb hcb => ?_, fun frame hf => ?_, h.ran, h.join,
      h.others, ⟨h.counts.results, h.counts.filled, h.counts.size⟩, fun side' hs => ?_⟩
    · by_cases hqq : q' = q
      · subst hqq
        exact h.callbacks q' side' cb (by simpa only [Function.update_self] using hcb)
      · exact h.callbacks q' side' cb (by simpa only [Function.update_of_ne hqq] using hcb)
    · rcases List.mem_cons.mp hf with rfl | hf
      · exact fun cb hcb => h.callbacks q side cb hcb
      · exact (h.stack frame hf).mono List.prefix_rfl hg
    · refine Outcome.mono ?_ hg
      by_cases hqp : npm = q
      · subst hqp
        obtain ⟨a, rfl, ho⟩ := hq rfl
        have heq : side = side' := by simpa using hs
        subst heq
        simpa using ho
      · simp only [Function.update_of_ne hqp] at hs ⊢
        exact h.state side' hs
  · exact fun _ => h

theorem of_clear (h : Joined j npm pms ids s) (q : ℕ) (side : Side) :
    Joined j npm pms ids (s.clear q side) := by
  have hg := Grows.of_clear s q side
  refine ⟨h.made, h.length, fun q' side' cb hcb => h.callbacks q' side' cb ?_,
    fun frame hf => (h.stack frame hf).mono List.prefix_rfl hg, h.ran, h.join, h.others,
    ⟨h.counts.results, h.counts.filled, h.counts.size⟩, fun side' hs => Outcome.mono ?_ hg⟩
  · by_cases hqq : q' = q
    · subst hqq
      by_cases hside : side' = side
      · simp [Machine.clear, hside] at hcb
      · simpa [Machine.clear, Function.update_of_ne hside] using hcb
    · simpa [Machine.clear, Function.update_of_ne hqq] using hcb
  · by_cases hqp : npm = q
    · subst hqp
      simpa [Machine.clear] using h.state side' (by simpa [Machine.clear] using hs)
    · simp only [Machine.clear, Function.update_of_ne hqp] at hs ⊢
      exact h.state side' hs

theorem make (h : Joined j npm pms ids s) : Joined j npm pms ids { s with next := s.next + 1 } where
  made := Nat.lt_succ_of_lt h.made
  length := h.length
  callbacks := h.callbacks
  stack frame hf := (h.stack frame hf).mono List.prefix_rfl (.make s)
  ran := h.ran
  join := h.join
  others := h.others
  counts := ⟨h.counts.results, h.counts.filled, h.counts.size⟩
  state side hs := (h.state side hs).mono (.make s)

theorem of_all (h : Joined j npm pms ids s) (hj : j < s.next_join) (pms' : List ℕ) :
    Joined j npm pms ids (s.all pms') := by
  have hg := Grows.of_all s pms'
  revert hg
  unfold Machine.all
  split
  · exact fun _ => h.make
  · intro hg
    have hne : j ≠ s.next_join := Nat.ne_of_lt hj
    refine ⟨Nat.lt_succ_of_lt h.made, h.length, h.callbacks, fun frame hf => ?_, h.ran,
      by simpa only [Function.update_of_ne hne] using h.join, fun j' hj' hlt => ?_,
      ⟨by simpa only [Function.update_of_ne hne] using h.counts.results,
        by simpa only [Function.update_of_ne hne] using h.counts.filled,
        by simpa only [Function.update_of_ne hne] using h.counts.size⟩,
      fun side hs => (h.state side hs).mono hg⟩
    · rcases List.mem_cons.mp hf with rfl | hf
      · trivial
      · exact (h.stack frame hf).mono List.prefix_rfl hg
    · by_cases hnew : j' = s.next_join
      · subst hnew
        simpa using Nat.ne_of_gt h.made
      · simp only [Function.update_of_ne hnew]
        exact h.others j' hj' (by simp only at hlt; omega)

/-- A callback runs, and the parts are still registered once. -/
theorem of_run (h : Joined j npm pms ids s) {cb : Callback F} {side : Side} {arg : Any V}
    (hcb : Ours j npm ids cb) (hm : cb.Made s)
    (hp : Parts lost j npm pms ids (s.run cb side arg)) :
    Joined j npm pms ids (s.run cb side arg) := by
  have hg := Grows.of_run s cb side arg
  have hnow : (⟨cb, side, arg⟩ : Ran V F) ∈ (s.run cb side arg).ran := by simp [Machine.run]
  have hran : ∀ r ∈ (s.run cb side arg).ran, Ours j npm ids r.callback := by
    intro r hr
    rcases List.mem_append.mp hr with hr | hr
    · exact h.ran r hr
    · exact List.mem_singleton.mp hr ▸ hcb
  have hcounts : Counts j pms.length (s.run cb side arg) := by
    by_cases hfill : ∃ idx, cb.func = some (.fill j idx)
    · obtain ⟨idx, hf⟩ := hfill
      have hid := hcb.fill idx hf
      have hlt := Nat.lt_of_lt_of_le (List.getElem?_eq_some_iff.mp hid).1 h.length
      refine h.counts.fill hf hlt fun r hr hrf => ?_
      -- the registration has run no callback before this one
      have hpm : pms[idx]? = some pms[idx] := List.getElem?_eq_getElem hlt
      obtain ⟨_, -, hone, -⟩ := (hp idx _ _ hpm hid).ran_once hnow rfl
      have hrid : r.callback.npm = cb.npm :=
        Option.some.inj (((h.ran r hr).fill idx hrf).symm.trans hid)
      have hmem : r ∈ ranFor cb.npm s.ran := List.mem_filter.mpr ⟨hr, by simpa using hrid⟩
      have happend : ranFor cb.npm (s.run cb side arg).ran =
          ranFor cb.npm s.ran ++ [⟨cb, side, arg⟩] := by
        simp [Machine.run, ranFor]
      have hlen := congrArg List.length (happend.symm.trans hone)
      have hpos := List.length_pos_of_mem hmem
      rw [List.length_append, List.length_singleton, List.length_singleton] at hlen
      omega
    · push Not at hfill
      exact h.counts.other hfill
  have hjoin : ∀ j', ((s.run cb side arg).joins j').npm = (s.joins j').npm :=
    Made.filled_npm s cb.func arg
  refine ⟨h.made, h.length, h.callbacks, fun frame hf => ?_, hran, (hjoin j).trans h.join,
    fun j' hne hlt => hjoin j' ▸ h.others j' hne hlt, hcounts,
    fun side' hs => (h.state side' hs).mono hg⟩
  rcases List.mem_append.mp hf with hf | hf
  · unfold Machine.frames at hf
    split at hf
    · rw [List.mem_singleton.mp hf]
      exact fun hm => (hcb.other hm).elim
    · rw [List.mem_singleton.mp hf]
      exact hcb.other
    · rename_i m side' heq
      simp only [List.mem_cons, List.not_mem_nil, or_false] at hf
      rcases hf with rfl | rfl
      · rintro rfl
        exact ⟨arg, rfl, hp.rejected h.length hnow hcb heq⟩
      · exact fun hm => (hcb.other hm).elim
    · rename_i j' idx heq
      have hrest : (Frame.settle cb.npm side none : Frame V F).Ours j npm pms ids
          (s.run cb side arg) := fun hm => (hcb.other hm).elim
      simp only at hf
      split at hf
      · rename_i hzero
        simp only [List.mem_cons, List.not_mem_nil, or_false] at hf
        rcases hf with rfl | rfl
        · intro hnpm
          have hjj : j' = j := by
            by_contra hne
            exact h.others j' hne (hm.2 _ heq) hnpm
          subst hjj
          have hself : (s.run cb side arg).joins j' = (s.joins j').fill idx arg := by
            simp only [Machine.run, heq, filled_self]
          refine ⟨_, rfl, ?_⟩
          rw [← hself]
          exact hp.outcome h.length hran hcounts (hself ▸ hzero)
        · exact hrest
      · exact List.mem_singleton.mp hf ▸ hrest
  · exact (h.stack frame hf).mono List.prefix_rfl hg

theorem mono (h : Joined j npm pms ids s) (hids : ids <+: ids') (hlen : ids'.length ≤ pms.length) :
    Joined j npm pms ids' s where
  made := h.made
  length := hlen
  callbacks q side cb hcb := (h.callbacks q side cb hcb).mono hids
  stack frame hf := (h.stack frame hf).mono hids (.refl s)
  ran r hr := (h.ran r hr).mono hids
  join := h.join
  others := h.others
  counts := h.counts
  state := h.state

theorem of_register (h : Joined j npm pms ids s) {q : ℕ} {on : Side → Option (Func F)}
    (hon : ∀ side, Ours j npm ids ⟨on side, s.next⟩)
    (hmade : ∀ side, ∀ func ∈ on side, func.Made s)
    (hp : Parts lost j npm pms ids (s.register q on)) :
    Joined j npm pms ids (s.register q on) := by
  have hg := Grows.of_register s q on
  revert hg hp
  unfold Machine.register
  simp only
  split
  · rename_i hpend
    intro hp hg
    refine ⟨Nat.lt_succ_of_lt h.made, h.length, fun q' side cb hcb => ?_,
      fun frame hf => (h.stack frame hf).mono List.prefix_rfl hg, h.ran, h.join, h.others,
      ⟨h.counts.results, h.counts.filled, h.counts.size⟩, fun side hs => Outcome.mono ?_ hg⟩
    · by_cases hqq : q' = q
      · subst hqq
        simp only [Function.update_self, List.mem_append, List.mem_singleton] at hcb
        rcases hcb with hcb | rfl
        · exact h.callbacks q' side cb hcb
        · exact hon side
      · exact h.callbacks q' side cb (by simpa only [Function.update_of_ne hqq] using hcb)
    · by_cases hqp : npm = q
      · subst hqp
        simp [hpend] at hs
      · simp only [Function.update_of_ne hqp] at hs ⊢
        exact h.state side hs
  · rename_i side hst
    intro hp _
    exact h.make.of_run (hon side)
      ⟨Nat.lt_succ_self _, fun func hf => (hmade side func hf).mono (.make s)⟩ hp

end Joined

end general_hotstuff.promise
