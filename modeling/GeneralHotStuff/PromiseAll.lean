-- `all` waits for every one of its promises, and is settled with all their results or with
-- the reason of one.
import GeneralHotStuff.PromiseJoins

namespace general_hotstuff.promise

open transitions

variable {V F : Type} {s s' : Machine V F} {e : Event V F} {lost : Prop} {j npm : ℕ}
  {pms ids : List ℕ}

/-! ## The loop of `all` -/

/-- The calls of `all` with the join `j` that have not returned. -/
def allsOf (j : ℕ) (st : List (Frame V F)) : List (ℕ × List ℕ) :=
  st.filterMap fun
    | .all j' idx rest => if j' = j then some (idx, rest) else none
    | _ => none

@[simp] theorem allsOf_user (j : ℕ) (side : Side) (m : ℕ) (st : List (Frame V F)) :
    allsOf j (.user side m :: st) = allsOf j st := rfl

@[simp] theorem allsOf_settle (j q : ℕ) (side : Side) (v : Option (Any V))
    (st : List (Frame V F)) : allsOf j (.settle q side v :: st) = allsOf j st := rfl

@[simp] theorem allsOf_fire (j q : ℕ) (side : Side) (cbs : List (Callback F))
    (st : List (Frame V F)) : allsOf j (.fire q side cbs :: st) = allsOf j st := rfl

theorem allsOf_all (j j' idx : ℕ) (rest : List ℕ) (st : List (Frame V F)) :
    allsOf j (.all j' idx rest :: st) =
      if j' = j then (idx, rest) :: allsOf j st else allsOf j st := by
  by_cases hj : j' = j
  · simp [allsOf, hj]
  · simp [allsOf, hj]

theorem settle_allsOf (s : Machine V F) (q : ℕ) (side : Side) (v : Option (Any V)) :
    allsOf j (s.settle q side v).stack = allsOf j s.stack := by
  unfold Machine.settle
  simp only
  split
  · rfl
  · rfl

theorem run_allsOf (s : Machine V F) (cb : Callback F) (side : Side) (arg : Any V) :
    allsOf j (s.run cb side arg).stack = allsOf j s.stack := by
  simp only [Machine.run, Machine.frames]
  split
  · rfl
  · rfl
  · rfl
  · split <;> rfl

theorem register_allsOf (s : Machine V F) (q : ℕ) (on : Side → Option (Func F)) :
    allsOf j (s.register q on).stack = allsOf j s.stack := by
  unfold Machine.register
  simp only
  split
  · rfl
  · exact run_allsOf ..

theorem all_allsOf (hj : j < s.next_join) (pms' : List ℕ) :
    allsOf j (s.all pms').stack = allsOf j s.stack := by
  unfold Machine.all
  split
  · rfl
  · rw [allsOf_all, if_neg (Nat.ne_of_gt hj)]

/-- The call goes on, with the parts that are left, or all of them are registered; where `lost`
holds, an exception may have ended it. -/
def Looping (lost : Prop) (j : ℕ) (pms ids : List ℕ) (s : Machine V F) : Prop :=
  allsOf j s.stack = [(ids.length, pms.drop ids.length)] ∨
    allsOf j s.stack = [] ∧ (ids.length = pms.length ∨ lost)

theorem Looping.of_eq (h : Looping lost j pms ids s)
    (hs : allsOf j s'.stack = allsOf j s.stack) : Looping lost j pms ids s' := by
  unfold Looping
  rw [hs]
  exact h

/-- The loop has met its end. -/
theorem Looping.done (h : Looping lost j pms ids s) (hlen : ids.length ≤ pms.length) {j' idx : ℕ}
    {st : List (Frame V F)} (hst : s.stack = .all j' idx [] :: st) :
    Looping lost j pms ids { s with stack := st } := by
  unfold Looping at h
  rw [hst, allsOf_all] at h
  split at h
  · rcases h with hone | ⟨hnil, -⟩
    · obtain ⟨heq, hrest⟩ := List.cons.inj hone
      have hdrop : pms.drop ids.length = [] := (congrArg Prod.snd heq).symm
      exact Or.inr ⟨hrest, Or.inl (hlen.antisymm (List.drop_eq_nil_iff.mp hdrop))⟩
    · cases hnil
  · exact h

theorem Looping.thrown (h : Looping lost j pms ids s) (hlost : lost) {frame : Frame V F}
    {st : List (Frame V F)} (hst : s.stack = frame :: st) :
    Looping lost j pms ids ({ s with stack := st } : Machine V F).unwind := by
  have hsuf : allsOf j (st.dropWhile fun frame => !frame.isUser) <:+ allsOf j s.stack := by
    rw [hst]
    exact ((List.dropWhile_suffix _).trans (List.suffix_cons frame st)).filterMap _
  rcases h with hone | ⟨hnil, -⟩
  · rcases List.suffix_cons_iff.mp (hone ▸ hsuf) with hnow | hnow
    · exact Or.inl hnow
    · exact Or.inr ⟨List.suffix_nil.mp hnow, Or.inr hlost⟩
  · exact Or.inr ⟨List.suffix_nil.mp (hnil ▸ hsuf), Or.inr hlost⟩

/-! ## The outcome is reached -/

/-- With the last result, or the first reason, `npm` is settled or about to be. -/
def Reached (j npm : ℕ) (s : Machine V F) : Prop :=
  ((s.joins j).size = 0 ∨ ∃ r ∈ s.ran, ∃ side, r.callback.func = some (.settle npm side)) →
    (s.promises npm).state ≠ none ∨ ∃ side v, .settle npm side v ∈ s.stack

namespace Reached

/-- No callback runs, and the call that settles `npm` stays on the stack. -/
theorem of_grows (h : Reached j npm s) (hg : Grows s s') (hjoin : s'.joins j = s.joins j)
    (hran : s'.ran = s.ran) (hstack : ∀ side v, .settle npm side v ∈ s.stack →
      (s'.promises npm).state ≠ none ∨ .settle npm side v ∈ s'.stack) : Reached j npm s' := by
  unfold Reached
  rw [hjoin, hran]
  intro hdone
  rcases h hdone with hst | ⟨side, v, hf⟩
  · obtain ⟨side, hside⟩ := Option.ne_none_iff_exists'.mp hst
    exact Or.inl (by simp [(hg.settled npm side hside).1])
  · exact (hstack side v hf).imp_right fun hf => ⟨side, v, hf⟩

theorem of_run (h : Reached j npm s) (hjoin : (s.joins j).npm = npm) (cb : Callback F)
    (side : Side) (arg : Any V) : Reached j npm (s.run cb side arg) := by
  intro hdone
  by_cases hnow : ∃ side' v, Frame.settle npm side' v ∈ s.frames cb side arg
  · obtain ⟨side', v, hf⟩ := hnow
    exact Or.inr ⟨side', v, List.mem_append_left _ hf⟩
  · have hbefore : (s.joins j).size = 0 ∨
        ∃ r ∈ s.ran, ∃ side, r.callback.func = some (.settle npm side) := by
      rcases hdone with hzero | ⟨r, hr, side', hf⟩
      · by_cases hfill : ∃ idx, cb.func = some (.fill j idx)
        · obtain ⟨idx, hf⟩ := hfill
          simp only [Machine.run, hf, filled_self] at hzero
          refine (hnow ⟨.fulfilled, some (.values ((s.joins j).fill idx arg).results), ?_⟩).elim
          simp only [Machine.frames, hf, hzero, if_true]
          exact List.mem_cons.mpr (Or.inl (by rw [← hjoin]; rfl))
        · push Not at hfill
          have hself : (s.run cb side arg).joins j = s.joins j := filled_of_ne hfill s arg
          exact Or.inl (hself ▸ hzero)
      · rcases List.mem_append.mp hr with hr | hr
        · exact Or.inr ⟨r, hr, side', hf⟩
        · rw [List.mem_singleton.mp hr] at hf
          simp only at hf
          exact (hnow ⟨side', some arg, by simp [Machine.frames, hf]⟩).elim
    rcases h hbefore with hst | ⟨side', v, hf⟩
    · exact Or.inl hst
    · exact Or.inr ⟨side', v, List.mem_append_right _ hf⟩

theorem tail (h : Reached j npm s) {frame : Frame V F} {st : List (Frame V F)}
    (hst : s.stack = frame :: st) (hf : ∀ side v, frame ≠ .settle npm side v) :
    Reached j npm { s with stack := st } := by
  refine h.of_grows (.with_stack s st) rfl rfl fun side v hmem => Or.inr ?_
  rw [hst] at hmem
  exact (List.mem_cons.mp hmem).resolve_left fun heq => hf side v heq.symm

theorem of_settle (h : Reached j npm s) (q : ℕ) (side : Side) (v : Option (Any V)) :
    Reached j npm (s.settle q side v) := by
  have hg := Grows.of_settle s q side v
  revert hg
  unfold Machine.settle
  simp only
  split
  · exact fun hg => h.of_grows hg rfl rfl fun _ _ hf => Or.inr (List.mem_cons_of_mem _ hf)
  · exact fun _ => h

/-- The call that settles `npm` is made. -/
theorem of_settle_next (h : Reached j npm s) {q : ℕ} {side : Side} {v : Option (Any V)}
    {st : List (Frame V F)} (hst : s.stack = .settle q side v :: st) :
    Reached j npm ({ s with stack := st }.settle q side v) := by
  by_cases hq : q = npm
  · subst hq
    intro _
    refine Or.inl ?_
    unfold Machine.settle
    simp only
    split
    · simp
    · rename_i hset
      exact hset
  · exact of_settle (h.tail hst fun side' v' heq => hq (by cases heq; rfl)) q side v

theorem of_clear (h : Reached j npm s) (q : ℕ) (side : Side) : Reached j npm (s.clear q side) :=
  h.of_grows (.of_clear s q side) rfl rfl fun _ _ hf => Or.inr hf

theorem make (h : Reached j npm s) : Reached j npm { s with next := s.next + 1 } :=
  h.of_grows (.make s) rfl rfl fun _ _ hf => Or.inr hf

theorem of_register (h : Reached j npm s) (hjoin : (s.joins j).npm = npm) (q : ℕ)
    (on : Side → Option (Func F)) : Reached j npm (s.register q on) := by
  have hg := Grows.of_register s q on
  revert hg
  unfold Machine.register
  simp only
  split
  · exact fun hg => h.of_grows hg rfl rfl fun _ _ hf => Or.inr hf
  · exact fun _ => h.make.of_run hjoin _ _ _

theorem of_all (h : Reached j npm s) (hj : j < s.next_join) (pms' : List ℕ) :
    Reached j npm (s.all pms') := by
  have hg := Grows.of_all s pms'
  revert hg
  unfold Machine.all
  split
  · exact fun _ => h.make
  · exact fun hg => h.of_grows hg (Function.update_of_ne (Nat.ne_of_lt hj) ..) rfl
      fun _ _ hf => Or.inr (List.mem_cons_of_mem _ hf)

end Reached

/-! ## A call of `all` in a run -/

structure Running (lost : Prop) (j npm : ℕ) (pms ids : List ℕ) (s : Machine V F) : Prop where
  made : Made s
  slot : j < s.next_join
  joined : Joined j npm pms ids s
  parts : Parts lost j npm pms ids s
  looping : Looping lost j pms ids s
  reached : ¬lost → Reached j npm s

def Event.settled : Event V F → Option ℕ
  | .settle pm _ _ => some pm
  | _ => none

/-- The functions of the caller are none of the join's. -/
theorem ours_of_handlers (hm : npm < s.next) (handlers : Handlers F) (side : Side) :
    Ours j npm ids ⟨handlers.on side, s.next⟩ := by
  refine ⟨Nat.ne_of_gt hm, fun idx hf => ?_, fun side' hf => ?_⟩
  · cases handlers <;> cases side <;> simp [Handlers.on] at hf
  · cases handlers <;> cases side <;> simp [Handlers.on] at hf

theorem ours_of_hand_on (hm : npm < s.next) {m : ℕ} (hne : m ≠ npm) (side : Side) :
    Ours j npm ids (⟨Machine.hand_on m side, s.next⟩ : Callback F) := by
  refine ⟨Nat.ne_of_gt hm, fun idx hf => ?_, fun side' hf => ?_⟩
  · simp [Machine.hand_on] at hf
  · simp only [Machine.hand_on, Option.some.injEq, Func.settle.injEq] at hf
    exact (hne hf.1).elim

/-- A part of another call of `all`. -/
theorem ours_of_other_part (hm : npm < s.next) {j' idx m : ℕ} (hj : j' ≠ j) (hne : m ≠ npm)
    (side : Side) : Ours j npm ids (⟨Machine.part j' idx m side, s.next⟩ : Callback F) := by
  refine ⟨Nat.ne_of_gt hm, fun idx' hf => ?_, fun side' hf => ?_⟩
  · cases side with
    | fulfilled =>
      simp only [Machine.part, Option.some.injEq, Func.fill.injEq] at hf
      exact (hj hf.1).elim
    | rejected => simp [Machine.part] at hf
  · cases side with
    | fulfilled => simp [Machine.part] at hf
    | rejected =>
      simp only [Machine.part, Option.some.injEq, Func.settle.injEq] at hf
      exact (hne hf.1).elim

/-- The next part of this one. -/
theorem ours_of_part (hm : npm < s.next) (side : Side) :
    Ours j npm (ids ++ [s.next])
      (⟨Machine.part j ids.length npm side, s.next⟩ : Callback F) := by
  refine ⟨Nat.ne_of_gt hm, fun idx hf => ?_, fun side' hf => by simp⟩
  cases side with
  | fulfilled =>
    simp only [Machine.part, Option.some.injEq, Func.fill.injEq] at hf
    simp [← hf.2]
  | rejected => simp [Machine.part] at hf

namespace Running

/-- Another frame on top of the stack. -/
theorem reached_of_head (h : Reached j npm s) {frame : Frame V F} {st : List (Frame V F)}
    (hst : s.stack = frame :: st) (hf : ∀ side v, frame ≠ .settle npm side v)
    (frame' : Frame V F) : Reached j npm { s with stack := frame' :: st } := by
  refine h.of_grows (.with_stack s _) rfl rfl fun side v hmem => Or.inr ?_
  rw [hst] at hmem
  exact List.mem_cons_of_mem _ ((List.mem_cons.mp hmem).resolve_left fun heq => hf side v heq.symm)

theorem fire_next (h : Running lost j npm pms ids s) {q : ℕ} {side : Side} {cb : Callback F}
    {cbs : List (Callback F)} {st : List (Frame V F)}
    (hst : s.stack = .fire q side (cb :: cbs) :: st)
    (hm : Made ({ s with stack := .fire q side cbs :: st }.run cb side ((s.promises q).any side)))
    (hparts : Parts lost j npm pms ids
      ({ s with stack := .fire q side cbs :: st }.run cb side ((s.promises q).any side))) :
    Running lost j npm pms ids
      ({ s with stack := .fire q side cbs :: st }.run cb side ((s.promises q).any side)) := by
  have hframe : (Frame.fire q side (cb :: cbs)).Ours j npm pms ids s :=
    h.joined.stack _ (hst ▸ List.mem_cons_self)
  have hrest : Joined j npm pms ids { s with stack := .fire q side cbs :: st } := by
    refine h.joined.with_stack fun frame hf => ?_
    rcases List.mem_cons.mp hf with rfl | hf
    · exact fun c hc => hframe c (List.mem_cons_of_mem _ hc)
    · exact h.joined.stack frame (hst ▸ List.mem_cons_of_mem _ hf)
  have hcb := (h.made.head hst).2 cb List.mem_cons_self
  exact ⟨hm, h.slot,
    hrest.of_run (hframe cb List.mem_cons_self) (hcb.mono (.with_stack s _)) hparts, hparts,
    h.looping.of_eq (by rw [run_allsOf, hst]; rfl),
    fun hl => (reached_of_head (h.reached hl) hst nofun _).of_run h.joined.join _ _ _⟩

/-- The loop of a call of `all` registers the next part, of this call or another one. -/
theorem all_next (h : Running lost j npm pms ids s) {j' idx q : ℕ} {rest : List ℕ}
    {st : List (Frame V F)} (hst : s.stack = .all j' idx (q :: rest) :: st)
    (hm : Made ({ s with stack := .all j' (idx + 1) rest :: st }.register q
      (Machine.part j' idx (s.joins j').npm)))
    (hparts : Parts lost j npm pms ids ({ s with stack := .all j' (idx + 1) rest :: st }.register q
      (Machine.part j' idx (s.joins j').npm))) :
    ∃ ids', Running lost j npm pms ids' ({ s with stack := .all j' (idx + 1) rest :: st }.register q
      (Machine.part j' idx (s.joins j').npm)) := by
  have hj' := (h.made.head hst).1
  have hmade : ∀ side, ∀ func ∈ Machine.part j' idx (s.joins j').npm side,
      func.Made { s with stack := .all j' (idx + 1) rest :: st } :=
    fun side func hf => (h.made.part hj' idx side func hf).mono (.with_stack s _)
  have hrest : Joined j npm pms ids { s with stack := .all j' (idx + 1) rest :: st } := by
    refine h.joined.with_stack fun frame hf => ?_
    rcases List.mem_cons.mp hf with rfl | hf
    · trivial
    · exact h.joined.stack frame (hst ▸ List.mem_cons_of_mem _ hf)
  have hslot := Nat.lt_of_lt_of_le h.slot (Grows.of_register
    { s with stack := .all j' (idx + 1) rest :: st } q
      (Machine.part j' idx (s.joins j').npm)).next_join
  have hreached := fun hl =>
    (reached_of_head (h.reached hl) hst nofun (.all j' (idx + 1) rest)).of_register h.joined.join q
      (Machine.part j' idx (s.joins j').npm)
  by_cases hj : j' = j
  · subst hj
    have hjoin := h.joined.join
    have hloop := h.looping
    unfold Looping at hloop
    rw [hst, allsOf_all, if_pos rfl] at hloop
    obtain ⟨hidx, hdrop, hnil⟩ : idx = ids.length ∧ q :: rest = pms.drop ids.length ∧
        allsOf j' st = [] := by
      rcases hloop with hone | ⟨hnil, -⟩
      · obtain ⟨heq, hnil⟩ := List.cons.inj hone
        exact ⟨congrArg Prod.fst heq, congrArg Prod.snd heq, hnil⟩
      · cases hnil
    subst hidx
    have hlt : ids.length < pms.length := by
      by_contra hge
      rw [List.drop_eq_nil_of_le (Nat.le_of_not_lt hge)] at hdrop
      cases hdrop
    rw [List.drop_eq_getElem_cons hlt, List.cons.injEq] at hdrop
    obtain ⟨hq, hrest'⟩ := hdrop
    have hlen : (ids ++ [s.next]).length ≤ pms.length := by
      rw [List.length_append, List.length_singleton]
      exact hlt
    rw [hjoin] at hm hmade hparts hslot hreached ⊢
    have hparts' : Parts lost j' npm pms (ids ++ [s.next])
        (({ s with stack := .all j' (ids.length + 1) rest :: st } : Machine V F).register q
          (Machine.part j' ids.length npm)) := by
      intro idx pm id hpm hid
      rcases Nat.lt_trichotomy idx ids.length with hi | rfl | hi
      · rw [List.getElem?_append_left hi] at hid
        exact hparts idx pm id hpm hid
      · rw [List.getElem?_eq_getElem hlt, Option.some.injEq, ← hq] at hpm
        simp only [List.getElem?_concat_length, Option.some.injEq] at hid
        subst hpm hid
        exact .registered (h.made.next_part hst) q _
      · have hge : (ids ++ [s.next]).length ≤ idx := by
          rw [List.length_append, List.length_singleton]
          exact hi
        rw [List.getElem?_eq_none hge] at hid
        cases hid
    refine ⟨ids ++ [s.next], hm, hslot,
      (hrest.mono (List.prefix_append _ _) hlen).of_register (ours_of_part h.joined.made) hmade
        hparts', hparts', Or.inl ?_, hreached⟩
    rw [register_allsOf, allsOf_all, if_pos rfl, hnil, List.length_append, List.length_singleton,
      hrest']
  · refine ⟨ids, hm, hslot, hrest.of_register
        (ours_of_other_part h.joined.made hj (h.joined.others j' hj hj')) hmade hparts, hparts,
      h.looping.of_eq ?_, hreached⟩
    rw [register_allsOf, hst, allsOf_all, allsOf_all, if_neg hj, if_neg hj]

theorem step (h : Running lost j npm pms ids s) (he : e.settled ≠ some npm)
    (hlost : e = .throw → lost) (hs : Step s e s') :
    ∃ ids', Running lost j npm pms ids' s' := by
  have hm' := h.made.step hs
  have hslot := Nat.lt_of_lt_of_le h.slot hs.grows.next_join
  have hparts : Parts lost j npm pms ids s' := fun idx pm id hpm hid =>
    (h.parts idx pm id hpm hid).step h.made hlost hs
  have hjoin := h.joined.join
  cases hs with
  | @settle_next q side v st hst =>
    refine ⟨ids, hm', hslot, (h.joined.tail hst).of_settle fun hq => ?_, hparts,
      h.looping.of_eq (by rw [settle_allsOf, hst]; rfl),
      fun hl => (h.reached hl).of_settle_next hst⟩
    have hframe : (Frame.settle q side v).Ours j npm pms ids s :=
      h.joined.stack _ (hst ▸ List.mem_cons_self)
    obtain ⟨a, ha, ho⟩ := hframe hq
    exact ⟨a, ha, ho.mono (.with_stack s st)⟩
  | @fire_done q side st hst =>
    exact ⟨ids, hm', hslot, (h.joined.tail hst).of_clear q side, hparts,
      h.looping.of_eq (by rw [hst]; rfl),
      fun hl => ((h.reached hl).tail hst nofun).of_clear q side⟩
  | fire_next hst => exact ⟨ids, h.fire_next hst hm' hparts⟩
  | @all_done j' idx st hst =>
    exact ⟨ids, hm', hslot, h.joined.tail hst, hparts, h.looping.done h.joined.length hst,
      fun hl => (h.reached hl).tail hst nofun⟩
  | all_next hst => exact h.all_next hst hm' hparts
  | promise_t =>
    exact ⟨ids, hm', hslot, h.joined.make, hparts, h.looping, fun hl => (h.reached hl).make⟩
  | @settle q side v hq =>
    refine ⟨ids, hm', hslot, h.joined.of_settle fun hqn => (he (congrArg some hqn)).elim, hparts,
      h.looping.of_eq (settle_allsOf ..), fun hl => (h.reached hl).of_settle q side v⟩
  | @then_ q handlers hq =>
    exact ⟨ids, hm', hslot, h.joined.of_register (ours_of_handlers h.joined.made handlers)
      (Made.handlers s handlers) hparts, hparts, h.looping.of_eq (register_allsOf ..),
      fun hl => (h.reached hl).of_register hjoin _ _⟩
  | @all pms' hpms' =>
    exact ⟨ids, hm', hslot, h.joined.of_all h.slot pms', hparts,
      h.looping.of_eq (all_allsOf h.slot pms'), fun hl => (h.reached hl).of_all h.slot pms'⟩
  | @return_settle side m st ret v hst =>
    have hm : (Frame.user side m).Ours j npm pms ids s :=
      h.joined.stack _ (hst ▸ List.mem_cons_self)
    exact ⟨ids, hm', hslot, (h.joined.tail hst).of_settle fun heq => (hm heq).elim, hparts,
      h.looping.of_eq (by rw [settle_allsOf, hst]; rfl),
      fun hl => ((h.reached hl).tail hst nofun).of_settle _ _ _⟩
  | @return_pm side m q st hst hq =>
    have hm : (Frame.user side m).Ours j npm pms ids s :=
      h.joined.stack _ (hst ▸ List.mem_cons_self)
    have hmade : m < s.next := h.made.head hst
    exact ⟨ids, hm', hslot, (h.joined.tail hst).of_register (ours_of_hand_on h.joined.made hm)
      (fun _ func hf => Option.some.inj hf ▸ hmade) hparts, hparts,
      h.looping.of_eq (by rw [register_allsOf, hst]; rfl),
      fun hl => ((h.reached hl).tail hst nofun).of_register hjoin _ _⟩
  | @throw side m st hst =>
    refine ⟨ids, hm', hslot, h.joined.with_stack fun frame hf => h.joined.stack frame ?_, hparts,
      h.looping.thrown (hlost rfl) hst, fun hl => (hl (hlost rfl)).elim⟩
    rw [hst]
    exact List.mem_cons_of_mem _ ((List.dropWhile_sublist _).mem hf)

/-- What was there before the call has nothing to do with it. -/
theorem ours_of_made {cb : Callback F} (hcb : cb.Made s) :
    Ours s.next_join s.next [] cb := by
  refine ⟨Nat.ne_of_lt hcb.1, fun idx hf => ?_, fun side hf => ?_⟩
  · exact (lt_irrefl _ (hcb.2 _ hf)).elim
  · exact (lt_irrefl _ (hcb.2 _ hf)).elim

theorem called (hm : Made s) (hpms : ∀ pm ∈ pms, pm < s.next) (hne : pms ≠ []) :
    Running lost s.next_join s.next pms [] (s.all pms) := by
  have hmade := hm.of_all hpms
  have hnone : ∀ r ∈ s.ran, Ours s.next_join s.next [] r.callback :=
    fun r hr => ours_of_made (hm.ran r hr)
  have hfill : ∀ r ∈ s.ran, ∀ idx, r.callback.func ≠ some (.fill s.next_join idx) :=
    fun r hr idx hf => by simpa using (hnone r hr).fill idx hf
  have hsettle : ∀ r ∈ s.ran, ∀ side, r.callback.func ≠ some (.settle s.next side) :=
    fun r hr side hf => by simpa using (hnone r hr).settle side hf
  have halls : allsOf s.next_join s.stack = [] := by
    refine List.filterMap_eq_nil_iff.mpr fun frame hf => ?_
    have hframe := hm.stack frame hf
    cases frame with
    | all j' idx rest => exact if_neg (Nat.ne_of_lt hframe.1)
    | user => rfl
    | settle => rfl
    | fire => rfl
  revert hmade
  rw [Machine.all, if_neg hne]
  intro hmade
  refine ⟨hmade, Nat.lt_succ_self _, ?_, fun idx pm id _ hid => by simp at hid, Or.inl ?_,
    fun _ hdone => ?_⟩
  · refine ⟨Nat.lt_succ_self _, Nat.zero_le _, fun q side cb hcb => ?_, fun frame hf => ?_, hnone,
      by simp, fun j' hj hlt => ?_, ⟨by simp, fun r hr idx hf => (hfill r hr idx hf).elim, ∅, ?_⟩,
      fun side hs => ?_⟩
    · exact ours_of_made (hm.callbacks q side cb hcb)
    · rcases List.mem_cons.mp hf with rfl | hf
      · trivial
      · have hframe := hm.stack frame hf
        cases frame with
        | user side m => exact Nat.ne_of_lt hframe
        | settle m side v => exact fun heq => (Nat.ne_of_lt hframe heq).elim
        | fire q side cbs => exact fun cb hcb => ours_of_made (hframe.2 cb hcb)
        | all => trivial
    · simp only [Function.update_of_ne hj]
      exact Nat.ne_of_lt (hm.joins j' (by simp only at hlt; omega))
    · refine ⟨fun idx => ?_, by simp⟩
      simp only [Finset.notMem_empty, false_iff, not_exists, not_and]
      exact fun r hr => hfill r hr idx
    · simp [(hm.blank s.next le_rfl).1] at hs
  · rw [allsOf_all, if_pos rfl, halls]
    rfl
  · rcases hdone with hzero | ⟨r, hr, side, hf⟩
    · simp only [Function.update_self] at hzero
      exact (hne (List.length_eq_zero_iff.mp hzero)).elim
    · exact (hsettle r hr side hf).elim

theorem of_runs {ok : Machine V F → Event V F → Prop} (h : Running lost j npm pms ids s)
    (hr : Runs Machine.step ok s s')
    (hok : ∀ t f, ok t f → f.settled ≠ some npm ∧ (f = .throw → lost)) :
    ∃ ids', Running lost j npm pms ids' s' :=
  hr.keeps (P := fun t => ∃ ids', Running lost j npm pms ids' t) ⟨ids, h⟩
    fun t f _ ⟨_, ht⟩ hf hs => ht.step (hok t f hf).1 (hok t f hf).2 (step_cases hs)

/-- Nothing is left to run: every part that is settled has run its function. -/
theorem part_ran (h : Running False j npm pms ids s) (hidle : s.stack = []) {idx : ℕ} {pm : ℕ}
    (hpm : pms[idx]? = some pm) {side : Side} (hst : (s.promises pm).state = some side) :
    ∃ r ∈ s.ran, r.callback.func = Machine.part j idx npm side := by
  have hlen : ids.length = pms.length := by
    have hloop := h.looping
    unfold Looping at hloop
    rw [hidle] at hloop
    rcases hloop with hone | ⟨-, hlen | hfalse⟩
    · cases hone
    · exact hlen
    · exact hfalse.elim
  have hlt : idx < ids.length := hlen ▸ (List.getElem?_eq_some_iff.mp hpm).1
  have htracks := h.parts idx pm _ hpm (List.getElem?_eq_getElem hlt)
  rcases htracks.settled side hst with ⟨htodo, -⟩ | ⟨-, hran⟩ | ⟨hfalse, -⟩
  · rw [hidle] at htodo
    cases htodo
  · have hmem := hran ▸ List.mem_singleton_self
      (⟨⟨Machine.part j idx npm side, ids[idx]⟩, side, (s.promises pm).any side⟩ : Ran V F)
    exact ⟨_, (List.mem_filter.mp hmem).1, rfl⟩
  · exact hfalse.elim

theorem settled (h : Running False j npm pms ids s) (hidle : s.stack = [])
    (hdone : (∀ pm ∈ pms, (s.promises pm).state = some .fulfilled) ∨
      ∃ pm ∈ pms, (s.promises pm).state = some .rejected) :
    ∃ side, (s.promises npm).state = some side := by
  have hreached : (s.promises npm).state ≠ none ∨ ∃ side v, .settle npm side v ∈ s.stack := by
    apply h.reached id
    rcases hdone with hall | ⟨pm, hpm, hst⟩
    · refine Or.inl (h.joined.counts.zero_iff.mpr fun idx hlt => ?_)
      exact h.part_ran hidle (List.getElem?_eq_getElem hlt) (hall _ (List.getElem_mem hlt))
    · obtain ⟨idx, hlt, rfl⟩ := List.mem_iff_getElem.mp hpm
      obtain ⟨r, hr, hf⟩ := h.part_ran hidle (List.getElem?_eq_getElem hlt) hst
      exact Or.inr ⟨r, hr, _, hf⟩
  rcases hreached with hst | ⟨side, v, hf⟩
  · exact Option.ne_none_iff_exists'.mp hst
  · rw [hidle] at hf
    cases hf

end Running

/-- Whatever order its parts are settled in, `all` is only settled with all their results or with
the reason of one. Unless something throws it is settled, when nothing is left to run, as soon as
all are fulfilled or one is rejected. -/
theorem all_is_settled_with_its_parts {s1 s2 : Machine V F}
    (h : Runs Machine.step Anything Machine.start s) (hne : pms ≠ [])
    (hall : s.step (.all pms) = some s1)
    (hr : Runs Machine.step (fun _ e => e.settled ≠ some s.next) s1 s2) :
    (∀ side, (s2.promises s.next).state = some side →
      Outcome pms s2 side ((s2.promises s.next).any side)) ∧
    (Runs Machine.step (fun t e => e.settled ≠ some s.next ∧ Calm t e) s1 s2 → s2.stack = [] →
      ((s2.promises s.next).state = some .fulfilled ↔
        ∀ pm ∈ pms, (s2.promises pm).state = some .fulfilled) ∧
      ((s2.promises s.next).state = some .rejected ↔
        ∃ pm ∈ pms, (s2.promises pm).state = some .rejected)) := by
  have hm := Made.start.of_runs h
  have hcalled : ∀ lost, Running lost s.next_join s.next pms [] s1 := by
    intro lost
    cases step_cases hall with
    | all hpms => exact .called hm hpms hne
  obtain ⟨ids, hany⟩ := (hcalled True).of_runs hr fun t f hf => ⟨hf, fun _ => trivial⟩
  refine ⟨hany.joined.state, fun hcalm hidle => ?_⟩
  obtain ⟨ids', hall'⟩ := (hcalled False).of_runs hcalm fun t f hf =>
    ⟨hf.1, fun heq => absurd hf.2 (by simp [heq, Event.throws])⟩
  constructor
  · constructor
    · exact fun hst => (hall'.joined.state .fulfilled hst).1
    · intro hdone
      obtain ⟨side, hst⟩ := hall'.settled hidle (Or.inl hdone)
      cases side with
      | fulfilled => exact hst
      | rejected =>
        obtain ⟨pm, hpm, hrej, -⟩ := hall'.joined.state .rejected hst
        rw [hdone pm hpm] at hrej
        cases hrej
  · constructor
    · intro hst
      obtain ⟨pm, hpm, hrej, -⟩ := hall'.joined.state .rejected hst
      exact ⟨pm, hpm, hrej⟩
    · rintro ⟨pm, hpm, hrej⟩
      obtain ⟨side, hst⟩ := hall'.settled hidle (Or.inr ⟨pm, hpm, hrej⟩)
      cases side with
      | fulfilled =>
        rw [(hall'.joined.state .fulfilled hst).1 pm hpm] at hrej
        cases hrej
      | rejected => exact hst

/-- The second part is fulfilled first. -/
theorem the_results_come_in_the_order_of_the_parts :
    ∃ s1 s2 : Machine ℕ ℕ,
      Machine.step { Machine.start with next := 2 } (.all [0, 1]) = some s1 ∧
        Runs Machine.step Calm s1 s2 ∧ (s2.promises 2).state = some .fulfilled ∧
          Outcome [0, 1] s2 .fulfilled (.values [.of 10, .of 11]) := by
  obtain ⟨s2, hs2, hidle, h0, h1, hany⟩ : ∃ s2, play Machine.step
      (fun t e => e.settled ≠ some 2 ∧ Calm t e)
      (Machine.all [0, 1] ({ Machine.start with next := 2 } : Machine ℕ ℕ))
      [.tick, .tick, .tick, .settle 1 .fulfilled (some (.of 11)), .tick, .tick, .tick, .tick,
        .settle 0 .fulfilled (some (.of 10)), .tick, .tick, .tick, .tick, .tick, .tick] = some s2 ∧
      s2.stack = [] ∧ (s2.promises 0).state = some .fulfilled ∧
        (s2.promises 1).state = some .fulfilled ∧
          (s2.promises 2).any .fulfilled = .values [.of 10, .of 11] :=
    ⟨_, rfl, rfl, rfl, rfl, rfl⟩
  have hstart : Runs Machine.step Anything Machine.start
      ({ Machine.start with next := 2 } : Machine ℕ ℕ) :=
    .of_play
      (show play Machine.step Anything Machine.start [.promise_t, .promise_t] = some _ from rfl)
  have hrun := Runs.of_play hs2
  have hcalm := hrun.mono fun _ _ h => h.2
  obtain ⟨hout, hsettled⟩ := all_is_settled_with_its_parts hstart (List.cons_ne_nil 0 [1]) rfl
    (hrun.mono fun _ _ h => h.1)
  have hdone := (hsettled hrun hidle).1.mpr fun pm hpm => by
    rcases List.mem_cons.mp hpm with rfl | hpm
    · exact h0
    · exact List.mem_singleton.mp hpm ▸ h1
  exact ⟨_, s2, rfl, hcalm, hdone, hany ▸ hout _ hdone⟩

end general_hotstuff.promise
