-- The loop over the callbacks of a promise calls code that may use the promise again. Its
-- list does not change under it.
import GeneralHotStuff.PromiseCalls

namespace general_hotstuff.promise

open transitions

variable {V F : Type} {s s' : Machine V F} {e : Event V F}

/-! ## One loop for each promise -/

def Frame.loop : Frame V F → Option ℕ
  | .fire pm _ _ => some pm
  | _ => none

/-- No two loops go over a list of one promise, and what a loop has left is the end of its list. -/
structure Loops (s : Machine V F) : Prop where
  nodup : (s.stack.filterMap Frame.loop).Nodup
  rest : ∀ pm side cbs, .fire pm side cbs ∈ s.stack → cbs <:+ (s.promises pm).callbacks side

theorem mem_loops {pm : ℕ} {st : List (Frame V F)} :
    pm ∈ st.filterMap Frame.loop ↔ ∃ side cbs, .fire pm side cbs ∈ st := by
  rw [List.mem_filterMap]
  constructor
  · rintro ⟨frame, hf, heq⟩
    cases frame with
    | fire q side cbs =>
      cases heq
      exact ⟨side, cbs, hf⟩
    | user => cases heq
    | settle => cases heq
    | all => cases heq
  · rintro ⟨side, cbs, hf⟩
    exact ⟨_, hf, rfl⟩

theorem loop_unique {pm : ℕ} {side side' : Side} {cbs cbs' : List (Callback F)}
    {st : List (Frame V F)} (h : (st.filterMap Frame.loop).Nodup) (hf : .fire pm side cbs ∈ st)
    (hf' : .fire pm side' cbs' ∈ st) : side = side' ∧ cbs = cbs' := by
  induction st with
  | nil => cases hf
  | cons frame st ih =>
    have hrest : (st.filterMap Frame.loop).Nodup :=
      h.sublist ((List.sublist_cons_self frame st).filterMap _)
    rcases List.mem_cons.mp hf with heq | hst
    · subst heq
      have hnot := (List.nodup_cons.mp h).1
      rcases List.mem_cons.mp hf' with heq | hst'
      · cases heq
        exact ⟨rfl, rfl⟩
      · exact (hnot (mem_loops.mpr ⟨side', cbs', hst'⟩)).elim
    · rcases List.mem_cons.mp hf' with heq | hst'
      · subst heq
        exact ((List.nodup_cons.mp h).1 (mem_loops.mpr ⟨side, cbs, hst⟩)).elim
      · exact ih hrest hst hst'

theorem frames_loop (s : Machine V F) (cb : Callback F) (side : Side) (arg : Any V) :
    (s.frames cb side arg).filterMap Frame.loop = [] := by
  unfold Machine.frames
  split
  · rfl
  · rfl
  · rfl
  · simp only
    split <;> rfl

namespace Loops

theorem with_stack (h : Loops s) {st : List (Frame V F)} (hst : st.Sublist s.stack) :
    Loops { s with stack := st } where
  nodup := h.nodup.sublist (hst.filterMap _)
  rest pm side cbs hf := h.rest pm side cbs (hst.mem hf)

theorem tail (h : Loops s) {frame : Frame V F} {st : List (Frame V F)}
    (hst : s.stack = frame :: st) : Loops { s with stack := st } :=
  h.with_stack (hst ▸ List.sublist_cons_self frame st)

/-- A promise that is looped over is settled. -/
theorem of_settle (h : Loops s) (hm : Made s) (pm : ℕ) (side : Side) (v : Option (Any V)) :
    Loops (s.settle pm side v) := by
  unfold Machine.settle
  simp only
  split
  · rename_i hp
    have hcbs : ∀ q side', (Function.update s.promises pm
        ⟨some side, v.elim (s.promises pm).any (Function.update (s.promises pm).any side),
          (s.promises pm).callbacks⟩ q).callbacks side' = (s.promises q).callbacks side' := by
      intro q side'
      by_cases hqp : q = pm
      · subst hqp
        simp
      · simp [Function.update_of_ne hqp]
    refine ⟨?_, fun q side' cbs hf => ?_⟩
    · refine List.nodup_cons.mpr ⟨fun hmem => ?_, h.nodup⟩
      obtain ⟨side', cbs, hf⟩ := mem_loops.mp hmem
      have hstate := (hm.stack _ hf).1
      rw [hp] at hstate
      cases hstate
    · rw [hcbs]
      rcases List.mem_cons.mp hf with heq | hf
      · cases heq
        exact List.suffix_rfl
      · exact h.rest q side' cbs hf
  · exact h

theorem of_clear (h : Loops s) {pm : ℕ} {side : Side} {st : List (Frame V F)}
    (hst : s.stack = .fire pm side [] :: st) :
    Loops (({ s with stack := st } : Machine V F).clear pm side) := by
  have hnodup : ((Frame.fire pm side [] :: st).filterMap Frame.loop).Nodup := hst ▸ h.nodup
  refine ⟨(List.nodup_cons.mp hnodup).2, fun q side' cbs hf => ?_⟩
  have hne : q ≠ pm := by
    rintro rfl
    exact (List.nodup_cons.mp hnodup).1 (mem_loops.mpr ⟨side', cbs, hf⟩)
  simpa [Machine.clear, Function.update_of_ne hne] using
    h.rest q side' cbs (hst ▸ List.mem_cons_of_mem _ hf)

theorem of_run (h : Loops s) (cb : Callback F) (side : Side) (arg : Any V) :
    Loops (s.run cb side arg) := by
  have hloops : (s.run cb side arg).stack.filterMap Frame.loop = s.stack.filterMap Frame.loop := by
    simp [Machine.run, List.filterMap_append, frames_loop]
  refine ⟨hloops ▸ h.nodup, fun q side' cbs hf => ?_⟩
  rcases List.mem_append.mp hf with hf | hf
  · have hmem : q ∈ (s.frames cb side arg).filterMap Frame.loop := mem_loops.mpr ⟨_, _, hf⟩
    rw [frames_loop] at hmem
    cases hmem
  · exact h.rest q side' cbs hf

theorem of_register (h : Loops s) (hm : Made s) (pm : ℕ) (on : Side → Option (Func F)) :
    Loops (s.register pm on) := by
  unfold Machine.register
  simp only
  split
  · rename_i hp
    refine ⟨h.nodup, fun q side cbs hf => ?_⟩
    have hne : q ≠ pm := by
      rintro rfl
      have hstate := (hm.stack _ hf).1
      rw [hp] at hstate
      cases hstate
    simpa only [Function.update_of_ne hne] using h.rest q side cbs hf
  · exact of_run (s := { s with next := s.next + 1 }) ⟨h.nodup, h.rest⟩ _ _ _

theorem of_all (h : Loops s) (pms : List ℕ) : Loops (s.all pms) := by
  unfold Machine.all
  split
  · exact ⟨h.nodup, h.rest⟩
  · refine ⟨h.nodup, fun q side cbs hf => ?_⟩
    rcases List.mem_cons.mp hf with heq | hf
    · cases heq
    · exact h.rest q side cbs hf

theorem step (h : Loops s) (hm : Made s) (hs : Step s e s') : Loops s' := by
  cases hs with
  | settle_next hst => exact (h.tail hst).of_settle (hm.tail hst) _ _ _
  | fire_done hst => exact h.of_clear hst
  | @fire_next pm side cb cbs st hst =>
    refine of_run ⟨?_, fun q side' cbs' hf => ?_⟩ _ _ _
    · have hnodup := h.nodup
      rw [hst] at hnodup
      exact hnodup
    · rcases List.mem_cons.mp hf with heq | hf
      · cases heq
        exact (List.suffix_cons cb cbs).trans (h.rest _ _ _ (hst ▸ List.mem_cons_self))
      · exact h.rest q side' cbs' (hst ▸ List.mem_cons_of_mem _ hf)
  | all_done hst => exact h.tail hst
  | @all_next join idx pm pms st hst =>
    have hrest := h.tail hst
    have hnext : Loops { s with stack := .all join (idx + 1) pms :: st } := by
      refine ⟨hrest.nodup, fun q side cbs hf => ?_⟩
      rcases List.mem_cons.mp hf with heq | hf
      · cases heq
      · exact hrest.rest q side cbs hf
    exact hnext.of_register (hm.next_part hst) _ _
  | promise_t => exact ⟨h.nodup, h.rest⟩
  | settle => exact h.of_settle hm _ _ _
  | then_ => exact h.of_register hm _ _
  | all => exact h.of_all _
  | return_settle hst => exact (h.tail hst).of_settle (hm.tail hst) _ _ _
  | return_pm hst => exact (h.tail hst).of_register (hm.tail hst) _ _
  | throw hst =>
    exact h.with_stack (hst ▸ (List.dropWhile_sublist _).trans (List.sublist_cons_self _ _))

theorem start : Loops (Machine.start : Machine V F) where
  nodup := List.nodup_nil
  rest _ _ _ hf := by simp [Machine.start] at hf

end Loops

/-! ## The lists stay -/

/-- The loops over the callbacks of `pm` go on, none starts, and their lists stay. -/
def GoesOn (pm : ℕ) (s s' : Machine V F) : Prop :=
  ∀ side cbs', .fire pm side cbs' ∈ s'.stack →
    (s'.promises pm).callbacks side = (s.promises pm).callbacks side ∧
      ∃ cbs, .fire pm side cbs ∈ s.stack ∧ cbs' <:+ cbs

namespace GoesOn

variable {pm : ℕ}

theorem refl (pm : ℕ) (s : Machine V F) : GoesOn pm s s :=
  fun _ cbs hf => ⟨rfl, cbs, hf, List.suffix_rfl⟩

theorem trans {s'' : Machine V F} (h : GoesOn pm s s') (h' : GoesOn pm s' s'') :
    GoesOn pm s s'' := by
  intro side cbs'' hf
  obtain ⟨hlist', cbs', hf', hsuf'⟩ := h' side cbs'' hf
  obtain ⟨hlist, cbs, hf, hsuf⟩ := h side cbs' hf'
  exact ⟨hlist'.trans hlist, cbs, hf, hsuf'.trans hsuf⟩

theorem tail {frame : Frame V F} {st : List (Frame V F)} (hst : s.stack = frame :: st) :
    GoesOn pm s { s with stack := st } :=
  fun _ cbs hf => ⟨rfl, cbs, hst ▸ List.mem_cons_of_mem _ hf, List.suffix_rfl⟩

theorem of_settle (hpm : (s.promises pm).state ≠ none) (q : ℕ) (side : Side)
    (v : Option (Any V)) : GoesOn pm s (s.settle q side v) := by
  unfold Machine.settle
  simp only
  split
  · rename_i hq
    have hne : pm ≠ q := by
      rintro rfl
      exact hpm hq
    intro side' cbs hf
    refine ⟨by simp [Function.update_of_ne hne], cbs, ?_, List.suffix_rfl⟩
    rcases List.mem_cons.mp hf with heq | hf
    · cases heq
      exact (hne rfl).elim
    · exact hf
  · exact refl pm s

theorem of_run (s : Machine V F) (cb : Callback F) (side : Side) (arg : Any V) :
    GoesOn pm s (s.run cb side arg) := by
  intro side' cbs hf
  refine ⟨rfl, cbs, ?_, List.suffix_rfl⟩
  rcases List.mem_append.mp hf with hf | hf
  · have hmem : pm ∈ (s.frames cb side arg).filterMap Frame.loop := mem_loops.mpr ⟨_, _, hf⟩
    rw [frames_loop] at hmem
    cases hmem
  · exact hf

theorem make (pm : ℕ) (s : Machine V F) : GoesOn pm s { s with next := s.next + 1 } :=
  fun _ cbs hf => ⟨rfl, cbs, hf, List.suffix_rfl⟩

theorem of_register (hpm : (s.promises pm).state ≠ none) (q : ℕ) (on : Side → Option (Func F)) :
    GoesOn pm s (s.register q on) := by
  unfold Machine.register
  simp only
  split
  · rename_i hq
    have hne : pm ≠ q := by
      rintro rfl
      exact hpm hq
    exact fun side cbs hf => ⟨by simp [Function.update_of_ne hne], cbs, hf, List.suffix_rfl⟩
  · exact (make pm s).trans (of_run _ _ _ _)

theorem of_all (s : Machine V F) (pms : List ℕ) : GoesOn pm s (s.all pms) := by
  unfold Machine.all
  split
  · exact make pm s
  · intro side cbs hf
    refine ⟨rfl, cbs, ?_, List.suffix_rfl⟩
    rcases List.mem_cons.mp hf with heq | hf
    · cases heq
    · exact hf

theorem step (h : Loops s) (hs : Step s e s') (hpm : (s.promises pm).state ≠ none) :
    GoesOn pm s s' := by
  cases hs with
  | settle_next hst => exact (tail hst).trans (of_settle (by exact hpm) _ _ _)
  | @fire_done q side st hst =>
    intro side' cbs hf
    have hnodup : ((Frame.fire q side [] :: st).filterMap Frame.loop).Nodup := hst ▸ h.nodup
    have hne : pm ≠ q := by
      rintro rfl
      exact (List.nodup_cons.mp hnodup).1 (mem_loops.mpr ⟨side', cbs, hf⟩)
    exact ⟨by simp [Machine.clear, Function.update_of_ne hne], cbs,
      hst ▸ List.mem_cons_of_mem _ hf, List.suffix_rfl⟩
  | @fire_next q side cb cbs st hst =>
    have hrest : GoesOn pm s { s with stack := .fire q side cbs :: st } := by
      intro side' cbs' hf
      refine ⟨rfl, ?_⟩
      rcases List.mem_cons.mp hf with heq | hf
      · cases heq
        exact ⟨cb :: cbs, hst ▸ List.mem_cons_self, List.suffix_cons cb cbs⟩
      · exact ⟨cbs', hst ▸ List.mem_cons_of_mem _ hf, List.suffix_rfl⟩
    exact hrest.trans (of_run _ cb side _)
  | all_done hst => exact tail hst
  | @all_next join idx q pms st hst =>
    have hrest : GoesOn pm s { s with stack := .all join (idx + 1) pms :: st } := by
      intro side cbs hf
      rcases List.mem_cons.mp hf with heq | hf
      · cases heq
      · exact ⟨rfl, cbs, hst ▸ List.mem_cons_of_mem _ hf, List.suffix_rfl⟩
    exact hrest.trans (of_register (by exact hpm) _ _)
  | promise_t => exact make pm s
  | settle => exact of_settle hpm _ _ _
  | then_ => exact of_register hpm _ _
  | all => exact of_all s _
  | return_settle hst => exact (tail hst).trans (of_settle (by exact hpm) _ _ _)
  | return_pm hst => exact (tail hst).trans (of_register (by exact hpm) _ _)
  | throw hst =>
    exact fun side cbs hf => ⟨rfl, cbs,
      hst ▸ List.mem_cons_of_mem _ ((List.dropWhile_sublist _).mem hf), List.suffix_rfl⟩

end GoesOn

/-- Callbacks may call `then`, `resolve` and `reject` on any promise. As long as the loop over the
callbacks of a promise goes on, its list is the one that it started with, and there is no other loop
over a list of the promise. -/
theorem a_list_that_is_looped_over_stays {pm : ℕ} {side side' : Side}
    {cbs cbs' : List (Callback F)} (h : Runs Machine.step Anything Machine.start s)
    (hf : .fire pm side cbs ∈ s.stack) (hr : Runs Machine.step Anything s s')
    (hf' : .fire pm side' cbs' ∈ s'.stack) :
    side' = side ∧ (s'.promises pm).callbacks side = (s.promises pm).callbacks side ∧
      cbs' <:+ cbs ∧ cbs <:+ (s.promises pm).callbacks side ∧
      (s'.stack.filterMap Frame.loop).count pm = 1 ∧
      ∀ other left, .fire pm other left ∈ s'.stack → other = side ∧ left = cbs' := by
  have hm := Made.start.of_runs h
  have hl : Loops s := (h.keeps (P := fun t => Loops t ∧ Made t) ⟨.start, .start⟩
    fun t f _ ht _ hs => ⟨ht.1.step ht.2 (step_cases hs), ht.2.step (step_cases hs)⟩).1
  have hpm := (hm.stack _ hf).1
  obtain ⟨hgoes, hl', -⟩ : GoesOn pm s s' ∧ Loops s' ∧ Made s' ∧ Grows s s' := by
    refine hr.keeps (P := fun t => GoesOn pm s t ∧ Loops t ∧ Made t ∧ Grows s t)
      ⟨.refl pm s, hl, hm, .refl s⟩ fun t f u ⟨hgo, hlt, hmt, hgt⟩ _ hs => ?_
    have hst := step_cases hs
    have hne : (t.promises pm).state ≠ none := by simp [(hgt.settled pm side hpm).1]
    exact ⟨hgo.trans (.step hlt hst hne), hlt.step hmt hst, hmt.step hst, hgt.trans hst.grows⟩
  obtain ⟨hlist, cbs1, hmem, hsuf⟩ := hgoes side' cbs' hf'
  obtain ⟨rfl, rfl⟩ := loop_unique hl.nodup hmem hf
  refine ⟨rfl, hlist, hsuf, hl.rest pm side' cbs1 hf, ?_, fun other left hother =>
    loop_unique hl'.nodup hother hf'⟩
  rw [hl'.nodup.count, if_pos (mem_loops.mpr ⟨side', cbs', hf'⟩)]

/-- The first of two callbacks adds a third one, which runs at once and not in the loop. -/
theorem a_callback_is_not_added_to_the_loop :
    ∃ s s' : Machine ℕ ℕ, .fire 0 .fulfilled [⟨some (.user 7), 1⟩, ⟨some (.user 8), 2⟩] ∈ s.stack ∧
      Runs Machine.step Anything s s' ∧ s'.ran.length = 2 ∧
        (s'.promises 0).callbacks .fulfilled = (s.promises 0).callbacks .fulfilled ∧
        (s'.stack.filterMap Frame.loop).count 0 = 1 := by
  obtain ⟨s, hs, hf⟩ : ∃ s : Machine ℕ ℕ, play Machine.step Anything Machine.start
      [.promise_t, .then_ 0 (.fulfilled 7), .then_ 0 (.fulfilled 8),
        .settle 0 .fulfilled (some (.of 5))] = some s ∧
      .fire 0 .fulfilled [⟨some (.user 7), 1⟩, ⟨some (.user 8), 2⟩] ∈ s.stack :=
    ⟨_, rfl, List.mem_cons_self⟩
  obtain ⟨s', hs', hran, hf'⟩ : ∃ s', play Machine.step Anything s
      [.tick, .then_ 0 (.fulfilled 9)] = some s' ∧ s'.ran.length = 2 ∧
      .fire 0 .fulfilled [⟨some (.user 8), 2⟩] ∈ s'.stack := by
    cases hs
    exact ⟨_, rfl, rfl, List.mem_cons_of_mem _ (List.mem_cons_of_mem _ List.mem_cons_self)⟩
  have hr := Runs.of_play hs'
  obtain ⟨-, hlist, -, -, hcount, -⟩ :=
    a_list_that_is_looped_over_stays (Runs.of_play hs) hf hr hf'
  exact ⟨s, s', hf, hr, hran, hlist, hcount⟩

end general_hotstuff.promise
