-- Whatever the code around the promises does: a promise is settled once, and of the callbacks
-- that `then` was given one runs, once, with what its promise was settled with.
import Mathlib.Data.List.Infix
import GeneralHotStuff.Promises

namespace general_hotstuff.promise

open transitions

variable {V F : Type} {s s' : Machine V F} {e : Event V F}

/-! ## What a step does -/

/-- The steps by what is called. -/
inductive Step (s : Machine V F) : Event V F → Machine V F → Prop where
  | settle_next {pm : ℕ} {side : Side} {v : Option (Any V)} {st : List (Frame V F)}
      (hst : s.stack = .settle pm side v :: st) :
      Step s .tick ({ s with stack := st }.settle pm side v)
  | fire_done {pm : ℕ} {side : Side} {st : List (Frame V F)}
      (hst : s.stack = .fire pm side [] :: st) :
      Step s .tick ({ s with stack := st }.clear pm side)
  | fire_next {pm : ℕ} {side : Side} {cb : Callback F} {cbs : List (Callback F)}
      {st : List (Frame V F)} (hst : s.stack = .fire pm side (cb :: cbs) :: st) :
      Step s .tick
        ({ s with stack := .fire pm side cbs :: st }.run cb side ((s.promises pm).any side))
  | all_done {join idx : ℕ} {st : List (Frame V F)} (hst : s.stack = .all join idx [] :: st) :
      Step s .tick { s with stack := st }
  | all_next {join idx pm : ℕ} {pms : List ℕ} {st : List (Frame V F)}
      (hst : s.stack = .all join idx (pm :: pms) :: st) :
      Step s .tick ({ s with stack := .all join (idx + 1) pms :: st }.register pm
        (Machine.part join idx (s.joins join).npm))
  | promise_t : Step s .promise_t { s with next := s.next + 1 }
  | settle {pm : ℕ} {side : Side} {v : Option (Any V)} (hpm : pm < s.next) :
      Step s (.settle pm side v) (s.settle pm side v)
  | then_ {pm : ℕ} {handlers : Handlers F} (hpm : pm < s.next) :
      Step s (.then_ pm handlers) (s.register pm handlers.on)
  | all {pms : List ℕ} (hpms : ∀ pm ∈ pms, pm < s.next) : Step s (.all pms) (s.all pms)
  | return_settle {side : Side} {npm : ℕ} {st : List (Frame V F)} {ret : Ret V}
      {v : Option (Any V)} (hst : s.stack = .user side npm :: st) :
      Step s (.return_ ret) ({ s with stack := st }.settle npm side v)
  | return_pm {side : Side} {npm pm : ℕ} {st : List (Frame V F)}
      (hst : s.stack = .user side npm :: st) (hpm : pm < s.next) :
      Step s (.return_ (.pm pm)) ({ s with stack := st }.register pm (Machine.hand_on npm))
  | throw {side : Side} {npm : ℕ} {st : List (Frame V F)} (hst : s.stack = .user side npm :: st) :
      Step s .throw { s with stack := st }.unwind

theorem tick_cases (h : s.tick = some s') : Step s .tick s' := by
  unfold Machine.tick at h
  split at h
  case h_1 hst => exact Option.some.inj h ▸ .settle_next hst
  case h_2 hst => exact Option.some.inj h ▸ .fire_done hst
  case h_3 hst => exact Option.some.inj h ▸ .fire_next hst
  case h_4 hst => exact Option.some.inj h ▸ .all_done hst
  case h_5 hst => exact Option.some.inj h ▸ .all_next hst
  case h_6 => cases h

theorem act_cases (hg : s.Given e = true) (h : s.act e = some s') : Step s e s' := by
  unfold Machine.act at h
  split at h
  case h_1 => exact Option.some.inj h ▸ .promise_t
  case h_2 => exact Option.some.inj h ▸ .settle (of_decide_eq_true hg)
  case h_3 => exact Option.some.inj h ▸ .then_ (of_decide_eq_true hg)
  case h_4 =>
    refine Option.some.inj h ▸ .all fun pm hpm => ?_
    simpa using List.all_eq_true.mp hg pm hpm
  case h_5 ret side npm st hst =>
    cases ret with
    | void => exact Option.some.inj h ▸ .return_settle hst
    | any v => exact Option.some.inj h ▸ .return_settle hst
    | pm q => exact Option.some.inj h ▸ .return_pm hst (of_decide_eq_true hg)
  case h_6 hst => exact Option.some.inj h ▸ .throw hst
  case h_7 => cases h

theorem step_cases (h : s.step e = some s') : Step s e s' := by
  unfold Machine.step at h
  split at h
  · exact tick_cases h
  · split at h
    · rename_i hcg
      exact act_cases (Bool.and_eq_true _ _ ▸ hcg).2 h
    · cases h

/-! ## A promise is settled once -/

/-- The machine went on: what was made, settled or run still is. -/
structure Grows (s s' : Machine V F) : Prop where
  next : s.next ≤ s'.next
  next_join : s.next_join ≤ s'.next_join
  settled : ∀ pm side, (s.promises pm).state = some side →
    (s'.promises pm).state = some side ∧ (s'.promises pm).any = (s.promises pm).any
  ran : s.ran <+: s'.ran

namespace Grows

theorem refl (s : Machine V F) : Grows s s :=
  ⟨le_rfl, le_rfl, fun _ _ h => ⟨h, rfl⟩, List.prefix_rfl⟩

theorem trans {s'' : Machine V F} (h : Grows s s') (h' : Grows s' s'') : Grows s s'' := by
  refine ⟨h.next.trans h'.next, h.next_join.trans h'.next_join, fun pm side hs => ?_,
    h.ran.trans h'.ran⟩
  obtain ⟨hst, hany⟩ := h.settled pm side hs
  obtain ⟨hst', hany'⟩ := h'.settled pm side hst
  exact ⟨hst', hany'.trans hany⟩

theorem with_stack (s : Machine V F) (st : List (Frame V F)) : Grows s { s with stack := st } :=
  ⟨le_rfl, le_rfl, fun _ _ h => ⟨h, rfl⟩, List.prefix_rfl⟩

theorem of_settle (s : Machine V F) (pm : ℕ) (side : Side) (v : Option (Any V)) :
    Grows s (s.settle pm side v) := by
  unfold Machine.settle
  simp only
  split
  · rename_i hp
    refine ⟨le_rfl, le_rfl, fun q side' hq => ?_, List.prefix_rfl⟩
    have hne : q ≠ pm := by
      rintro rfl
      rw [hp] at hq
      cases hq
    simp [Function.update_of_ne hne, hq]
  · exact refl s

theorem of_clear (s : Machine V F) (pm : ℕ) (side : Side) : Grows s (s.clear pm side) := by
  refine ⟨le_rfl, le_rfl, fun q side' hq => ?_, List.prefix_rfl⟩
  by_cases hqp : q = pm
  · subst hqp
    simp [Machine.clear, hq]
  · simp [Machine.clear, Function.update_of_ne hqp, hq]

theorem of_run (s : Machine V F) (cb : Callback F) (side : Side) (arg : Any V) :
    Grows s (s.run cb side arg) :=
  ⟨le_rfl, le_rfl, fun _ _ h => ⟨h, rfl⟩, List.prefix_append ..⟩

theorem make (s : Machine V F) : Grows s { s with next := s.next + 1 } :=
  ⟨Nat.le_succ _, le_rfl, fun _ _ h => ⟨h, rfl⟩, List.prefix_rfl⟩

theorem of_register (s : Machine V F) (pm : ℕ) (on : Side → Option (Func F)) :
    Grows s (s.register pm on) := by
  unfold Machine.register
  simp only
  split
  · rename_i hp
    refine ⟨Nat.le_succ _, le_rfl, fun q side' hq => ?_, List.prefix_rfl⟩
    have hne : q ≠ pm := by
      rintro rfl
      rw [hp] at hq
      cases hq
    simp [Function.update_of_ne hne, hq]
  · exact (make s).trans (of_run ..)

theorem of_all (s : Machine V F) (pms : List ℕ) : Grows s (s.all pms) := by
  unfold Machine.all
  split
  · exact make s
  · exact ⟨Nat.le_succ _, Nat.le_succ _, fun _ _ h => ⟨h, rfl⟩, List.prefix_rfl⟩

end Grows

theorem Step.grows (h : Step s e s') : Grows s s' := by
  cases h with
  | settle_next => exact (Grows.with_stack s _).trans (.of_settle ..)
  | fire_done => exact (Grows.with_stack s _).trans (.of_clear ..)
  | fire_next => exact (Grows.with_stack s _).trans (.of_run ..)
  | all_done => exact .with_stack s _
  | all_next => exact (Grows.with_stack s _).trans (.of_register ..)
  | promise_t => exact .make s
  | settle => exact .of_settle ..
  | then_ => exact .of_register ..
  | all => exact .of_all ..
  | return_settle => exact (Grows.with_stack s _).trans (.of_settle ..)
  | return_pm => exact (Grows.with_stack s _).trans (.of_register ..)
  | throw => exact .with_stack s _

theorem Grows.of_runs {ok : Machine V F → Event V F → Prop}
    (h : Runs Machine.step ok s s') : Grows s s' :=
  h.keeps (.refl s) fun _ _ _ hg _ hs => hg.trans (step_cases hs).grows

/-! ## Nobody has a promise that is not made -/

/-- The promise or join that the function is about is made. -/
def Func.Made (s : Machine V F) : Func F → Prop
  | .user _ => True
  | .fill join _ => join < s.next_join
  | .settle npm _ => npm < s.next

def Callback.Made (s : Machine V F) (cb : Callback F) : Prop :=
  cb.npm < s.next ∧ ∀ func ∈ cb.func, func.Made s

/-- The loop over the callbacks of a promise is about a settled one. -/
def Frame.Made (s : Machine V F) : Frame V F → Prop
  | .user _ npm => npm < s.next
  | .settle pm _ _ => pm < s.next
  | .fire pm side cbs => (s.promises pm).state = some side ∧ ∀ cb ∈ cbs, cb.Made s
  | .all join _ pms => join < s.next_join ∧ ∀ pm ∈ pms, pm < s.next

structure Made (s : Machine V F) : Prop where
  blank : ∀ pm, s.next ≤ pm →
    (s.promises pm).state = none ∧ ∀ side, (s.promises pm).callbacks side = []
  callbacks : ∀ pm side, ∀ cb ∈ (s.promises pm).callbacks side, cb.Made s
  joins : ∀ join < s.next_join, (s.joins join).npm < s.next
  stack : ∀ frame ∈ s.stack, frame.Made s
  ran : ∀ r ∈ s.ran, r.callback.Made s

theorem Func.Made.mono {func : Func F} (h : func.Made s) (hg : Grows s s') : func.Made s' := by
  cases func with
  | user f => trivial
  | fill join idx => exact Nat.lt_of_lt_of_le h hg.next_join
  | settle npm side' => exact Nat.lt_of_lt_of_le h hg.next

theorem Callback.Made.mono {cb : Callback F} (h : cb.Made s) (hg : Grows s s') : cb.Made s' :=
  ⟨Nat.lt_of_lt_of_le h.1 hg.next, fun func hf => (h.2 func hf).mono hg⟩

theorem Frame.Made.mono {frame : Frame V F} (h : frame.Made s) (hg : Grows s s') :
    frame.Made s' := by
  cases frame with
  | user side npm => exact Nat.lt_of_lt_of_le h hg.next
  | settle pm side v => exact Nat.lt_of_lt_of_le h hg.next
  | fire pm side cbs => exact ⟨(hg.settled pm side h.1).1, fun cb hcb => (h.2 cb hcb).mono hg⟩
  | all join idx pms =>
    exact ⟨Nat.lt_of_lt_of_le h.1 hg.next_join,
      fun pm hpm => Nat.lt_of_lt_of_le (h.2 pm hpm) hg.next⟩

namespace Made

theorem with_stack (h : Made s) {st : List (Frame V F)} (hst : ∀ frame ∈ st, frame.Made s) :
    Made { s with stack := st } where
  blank := h.blank
  callbacks pm side cb hcb := (h.callbacks pm side cb hcb).mono (.with_stack s st)
  joins := h.joins
  stack frame hf := (hst frame hf).mono (.with_stack s st)
  ran r hr := (h.ran r hr).mono (.with_stack s st)

theorem tail (h : Made s) {frame : Frame V F} {st : List (Frame V F)}
    (hst : s.stack = frame :: st) : Made { s with stack := st } :=
  h.with_stack fun f hf => h.stack f (hst ▸ List.mem_cons_of_mem _ hf)

theorem head (h : Made s) {frame : Frame V F} {st : List (Frame V F)}
    (hst : s.stack = frame :: st) : frame.Made s := h.stack frame (hst ▸ List.mem_cons_self)

theorem of_settle (h : Made s) {pm : ℕ} (hpm : pm < s.next) (side : Side)
    (v : Option (Any V)) : Made (s.settle pm side v) := by
  have hg := Grows.of_settle s pm side v
  revert hg
  unfold Machine.settle
  simp only
  split
  · intro hg
    refine ⟨fun q hq => ?_, fun q side' cb hcb => ?_, h.joins, fun frame hf => ?_,
      fun r hr => (h.ran r hr).mono hg⟩
    · have hne : q ≠ pm := Nat.ne_of_gt (Nat.lt_of_lt_of_le hpm hq)
      simpa only [Function.update_of_ne hne] using h.blank q hq
    · refine Callback.Made.mono ?_ hg
      by_cases hqp : q = pm
      · subst hqp
        simp only [Function.update_self] at hcb
        exact h.callbacks q side' cb hcb
      · simp only [Function.update_of_ne hqp] at hcb
        exact h.callbacks q side' cb hcb
    · rcases List.mem_cons.mp hf with rfl | hf
      · exact ⟨by simp, fun cb hcb => (h.callbacks pm side cb hcb).mono hg⟩
      · exact (h.stack frame hf).mono hg
  · exact fun _ => h

theorem of_clear (h : Made s) (pm : ℕ) (side : Side) : Made (s.clear pm side) := by
  have hg := Grows.of_clear s pm side
  refine ⟨fun q hq => ?_, fun q side' cb hcb => ?_, h.joins,
    fun frame hf => (h.stack frame hf).mono hg, fun r hr => (h.ran r hr).mono hg⟩
  · obtain ⟨hst, hcbs⟩ := h.blank q hq
    by_cases hqp : q = pm
    · subst hqp
      refine ⟨by simpa [Machine.clear] using hst, fun side' => ?_⟩
      by_cases hside' : side' = side
      · simp [Machine.clear, hside']
      · simp [Machine.clear, Function.update_of_ne hside', hcbs]
    · simp [Machine.clear, Function.update_of_ne hqp, hst, hcbs]
  · refine Callback.Made.mono (h.callbacks q side' cb ?_) hg
    by_cases hqp : q = pm
    · subst hqp
      by_cases hside' : side' = side
      · simp [Machine.clear, hside'] at hcb
      · simpa [Machine.clear, Function.update_of_ne hside'] using hcb
    · simpa [Machine.clear, Function.update_of_ne hqp] using hcb

theorem filled_npm (s : Machine V F) (func : Option (Func F)) (arg : Any V) (join : ℕ) :
    (s.filled func arg join).npm = (s.joins join).npm := by
  unfold Machine.filled
  split
  · rename_i j idx
    by_cases hj : join = j
    · subst hj
      simp [Join.fill]
    · simp [Function.update_of_ne hj]
  · rfl

theorem of_run (h : Made s) {cb : Callback F} (hcb : cb.Made s) (side : Side) (arg : Any V) :
    Made (s.run cb side arg) := by
  have hg := Grows.of_run s cb side arg
  refine ⟨h.blank, fun q side' c hc => (h.callbacks q side' c hc).mono hg, fun join hj => ?_,
    fun frame hf => ?_, fun r hr => ?_⟩
  · simpa only [Machine.run, filled_npm] using h.joins join hj
  · rcases List.mem_append.mp hf with hf | hf
    · refine Frame.Made.mono ?_ hg
      obtain ⟨hnpm, hfunc⟩ := hcb
      unfold Machine.frames at hf
      split at hf
      · rw [List.mem_singleton.mp hf]
        exact hnpm
      · rw [List.mem_singleton.mp hf]
        exact hnpm
      · rename_i npm side' heq
        simp only [List.mem_cons, List.not_mem_nil, or_false] at hf
        rcases hf with rfl | rfl
        · exact hfunc _ heq
        · exact hnpm
      · rename_i join idx heq
        have hjoin : (s.joins join).npm < s.next := h.joins join (hfunc _ heq)
        simp only at hf
        split at hf
        · simp only [List.mem_cons, List.not_mem_nil, or_false] at hf
          rcases hf with rfl | rfl
          · exact hjoin
          · exact hnpm
        · rw [List.mem_singleton.mp hf]
          exact hnpm
    · exact (h.stack frame hf).mono hg
  · rcases List.mem_append.mp hr with hr | hr
    · exact (h.ran r hr).mono hg
    · rw [List.mem_singleton.mp hr]
      exact hcb.mono hg

theorem make (h : Made s) : Made { s with next := s.next + 1 } where
  blank pm hpm := h.blank pm (Nat.le_of_succ_le hpm)
  callbacks pm side cb hcb := (h.callbacks pm side cb hcb).mono (.make s)
  joins join hj := Nat.lt_succ_of_lt (h.joins join hj)
  stack frame hf := (h.stack frame hf).mono (.make s)
  ran r hr := (h.ran r hr).mono (.make s)

theorem of_register (h : Made s) {pm : ℕ} (hpm : pm < s.next) {on : Side → Option (Func F)}
    (hon : ∀ side, ∀ func ∈ on side, func.Made s) : Made (s.register pm on) := by
  have hg := Grows.of_register s pm on
  revert hg
  unfold Machine.register
  simp only
  split
  · intro hg
    refine ⟨fun q hq => ?_, fun q side' cb hcb => ?_,
      fun join hj => Nat.lt_succ_of_lt (h.joins join hj),
      fun frame hf => (h.stack frame hf).mono hg, fun r hr => (h.ran r hr).mono hg⟩
    · have hne : q ≠ pm := by
        rintro rfl
        exact absurd (Nat.lt_of_lt_of_le hpm (Nat.le_of_succ_le hq)) (lt_irrefl _)
      simpa only [Function.update_of_ne hne] using h.blank q (Nat.le_of_succ_le hq)
    · by_cases hqp : q = pm
      · subst hqp
        simp only [Function.update_self, List.mem_append, List.mem_singleton] at hcb
        rcases hcb with hcb | rfl
        · exact (h.callbacks q side' cb hcb).mono hg
        · exact ⟨Nat.lt_succ_self _, fun func hf => (hon side' func hf).mono hg⟩
      · simp only [Function.update_of_ne hqp] at hcb
        exact (h.callbacks q side' cb hcb).mono hg
  · intro _
    exact h.make.of_run ⟨Nat.lt_succ_self _, fun func hf => (hon _ func hf).mono (.make s)⟩ _ _

theorem of_all (h : Made s) {pms : List ℕ} (hpms : ∀ pm ∈ pms, pm < s.next) :
    Made (s.all pms) := by
  have hg := Grows.of_all s pms
  revert hg
  unfold Machine.all
  split
  · exact fun _ => h.make
  · intro hg
    refine ⟨fun q hq => h.blank q (Nat.le_of_succ_le hq),
      fun q side' cb hcb => (h.callbacks q side' cb hcb).mono hg, fun join hj => ?_,
      fun frame hf => ?_, fun r hr => (h.ran r hr).mono hg⟩
    · by_cases hj' : join = s.next_join
      · subst hj'
        simp
      · simp only [Function.update_of_ne hj']
        exact Nat.lt_succ_of_lt (h.joins join (by simp only at hj; omega))
    · rcases List.mem_cons.mp hf with rfl | hf
      · exact ⟨Nat.lt_succ_self _, fun pm hpm => Nat.lt_succ_of_lt (hpms pm hpm)⟩
      · exact (h.stack frame hf).mono hg

theorem handlers (s : Machine V F) (handlers : Handlers F) (side : Side) :
    ∀ func ∈ handlers.on side, func.Made s := by
  intro func hf
  cases handlers <;> cases side <;> cases hf <;> trivial

theorem part (h : Made s) {join : ℕ} (hjoin : join < s.next_join) (idx : ℕ) (side : Side) :
    ∀ func ∈ Machine.part join idx (s.joins join).npm side, func.Made s := by
  intro func hf
  cases side with
  | fulfilled => exact Option.some.inj hf ▸ hjoin
  | rejected => exact Option.some.inj hf ▸ h.joins join hjoin

theorem rest (h : Made s) {pm : ℕ} {side : Side} {cb : Callback F} {cbs : List (Callback F)}
    {st : List (Frame V F)} (hst : s.stack = .fire pm side (cb :: cbs) :: st) :
    Made { s with stack := .fire pm side cbs :: st } := by
  obtain ⟨hside, hcbs⟩ := h.head hst
  refine h.with_stack fun frame hf => ?_
  rcases List.mem_cons.mp hf with rfl | hf
  · exact ⟨hside, fun c hc => hcbs c (List.mem_cons_of_mem _ hc)⟩
  · exact h.stack frame (hst ▸ List.mem_cons_of_mem _ hf)

theorem next_part (h : Made s) {join idx pm : ℕ} {pms : List ℕ} {st : List (Frame V F)}
    (hst : s.stack = .all join idx (pm :: pms) :: st) :
    Made { s with stack := .all join (idx + 1) pms :: st } := by
  obtain ⟨hjoin, hpms⟩ := h.head hst
  refine h.with_stack fun frame hf => ?_
  rcases List.mem_cons.mp hf with rfl | hf
  · exact ⟨hjoin, fun q hq => hpms q (List.mem_cons_of_mem _ hq)⟩
  · exact h.stack frame (hst ▸ List.mem_cons_of_mem _ hf)

theorem step (h : Made s) (hs : Step s e s') : Made s' := by
  cases hs with
  | settle_next hst => exact (h.tail hst).of_settle (h.head hst) _ _
  | fire_done hst => exact (h.tail hst).of_clear _ _
  | fire_next hst =>
    have hcb := (h.head hst).2 _ List.mem_cons_self
    exact (h.rest hst).of_run (hcb.mono (.with_stack s _)) _ _
  | all_done hst => exact h.tail hst
  | @all_next join idx pm pms st hst =>
    obtain ⟨hjoin, hpms⟩ := h.head hst
    exact (h.next_part hst).of_register (hpms pm List.mem_cons_self)
      fun side func hf => (h.part hjoin idx side func hf).mono (.with_stack s _)
  | promise_t => exact h.make
  | settle hpm => exact h.of_settle hpm _ _
  | then_ hpm => exact h.of_register hpm (handlers s _)
  | all hpms => exact h.of_all hpms
  | return_settle hst => exact (h.tail hst).of_settle (h.head hst) _ _
  | return_pm hst hpm =>
    refine (h.tail hst).of_register hpm fun side func hf => ?_
    exact Option.some.inj hf ▸ h.head hst
  | throw hst =>
    refine h.with_stack fun frame hf => h.stack frame ?_
    rw [hst]
    exact List.mem_cons_of_mem _ ((List.dropWhile_sublist _).mem hf)

theorem start : Made (Machine.start : Machine V F) where
  blank _ _ := ⟨rfl, fun _ => rfl⟩
  callbacks _ _ cb hcb := by simp [Machine.start] at hcb
  joins _ hj := by simp [Machine.start] at hj
  stack _ hf := by simp [Machine.start] at hf
  ran _ hr := by simp [Machine.start] at hr

theorem of_runs {ok : Machine V F → Event V F → Prop} (h : Made s)
    (hr : Runs Machine.step ok s s') : Made s' :=
  hr.keeps h fun _ _ _ hm _ hs => hm.step (step_cases hs)

end Made

/-! ## One registration -/

/-- The callbacks that the loop has still to call. -/
def Frame.todo : Frame V F → List (ℕ × Side × Callback F)
  | .fire pm side cbs => cbs.map fun cb => (pm, side, cb)
  | _ => []

/-- What is to be called for the registration that returned `npm`. -/
def todo (npm : ℕ) (st : List (Frame V F)) : List (ℕ × Side × Callback F) :=
  (st.flatMap Frame.todo).filter fun x => x.2.2.npm = npm

/-- What has run for the registration that returned `npm`. -/
def ranFor (npm : ℕ) (ran : List (Ran V F)) : List (Ran V F) :=
  ran.filter fun r => r.callback.npm = npm

theorem todo_cons (npm : ℕ) (frame : Frame V F) (st : List (Frame V F)) :
    todo npm (frame :: st) = frame.todo.filter (fun x => x.2.2.npm = npm) ++ todo npm st := by
  simp [todo]

theorem todo_fire (npm pm : ℕ) (side : Side) (cbs : List (Callback F)) (st : List (Frame V F)) :
    todo npm (.fire pm side cbs :: st) =
      (cbs.filter fun cb => cb.npm = npm).map (fun cb => (pm, side, cb)) ++ todo npm st := by
  simp [todo_cons, Frame.todo, List.filter_map, Function.comp_def]

theorem todo_of_nil {frame : Frame V F} (hf : frame.todo = []) (npm : ℕ) (st : List (Frame V F)) :
    todo npm (frame :: st) = todo npm st := by
  simp [todo_cons, hf]

theorem todo_all (npm join idx : ℕ) (pms : List ℕ) (st : List (Frame V F)) :
    todo npm (.all join idx pms :: st) = todo npm st := todo_of_nil rfl npm st

theorem todo_frames (npm : ℕ) (s : Machine V F) (cb : Callback F) (side : Side) (arg : Any V)
    (st : List (Frame V F)) : todo npm (s.frames cb side arg ++ st) = todo npm st := by
  have hnil : (s.frames cb side arg).flatMap Frame.todo = [] := by
    unfold Machine.frames
    split
    · rfl
    · rfl
    · rfl
    · simp only
      split <;> rfl
  simp [todo, List.flatMap_append, hnil]

theorem mem_of_todo {npm pm : ℕ} {side : Side} {cb : Callback F} {st : List (Frame V F)}
    (h : (pm, side, cb) ∈ todo npm st) : ∃ cbs, .fire pm side cbs ∈ st := by
  obtain ⟨frame, hf, hx⟩ := List.mem_flatMap.mp (List.mem_filter.mp h).1
  cases frame with
  | fire q side' cbs =>
    obtain ⟨cb', -, heq⟩ := List.mem_map.mp hx
    cases heq
    exact ⟨cbs, hf⟩
  | user => cases hx
  | settle => cases hx
  | all => cases hx

/-- `then` was called on `pm` and returned `npm`. While `pm` is pending each of its lists has one of
the callbacks. After that the one for its side is to be called, or it has run; where `lost`
holds, an exception may have ended the loop before it. -/
structure Tracks (lost : Prop) (pm npm : ℕ) (on : Side → Option (Func F)) (s : Machine V F) :
    Prop where
  made : npm < s.next
  others : ∀ q ≠ pm, ∀ side, ∀ cb ∈ (s.promises q).callbacks side, cb.npm ≠ npm
  pending : (s.promises pm).state = none →
    (∀ side, ((s.promises pm).callbacks side).filter (fun cb => cb.npm = npm) = [⟨on side, npm⟩]) ∧
      todo npm s.stack = [] ∧ ranFor npm s.ran = []
  settled : ∀ side, (s.promises pm).state = some side →
    (todo npm s.stack = [(pm, side, ⟨on side, npm⟩)] ∧ ranFor npm s.ran = []) ∨
      (todo npm s.stack = [] ∧
        ranFor npm s.ran = [⟨⟨on side, npm⟩, side, (s.promises pm).any side⟩]) ∨
      lost ∧ todo npm s.stack = [] ∧ ranFor npm s.ran = []

namespace Tracks

variable {lost : Prop} {pm npm : ℕ} {on : Side → Option (Func F)}

/-- What only changes what else is to be called. -/
theorem with_stack (h : Tracks lost pm npm on s) {st : List (Frame V F)}
    (hst : todo npm st = todo npm s.stack) : Tracks lost pm npm on { s with stack := st } := by
  refine ⟨h.made, h.others, ?_, ?_⟩
  · simpa only [hst] using h.pending
  · simpa only [hst] using h.settled

theorem tail (h : Tracks lost pm npm on s) {frame : Frame V F} {st : List (Frame V F)}
    (hst : s.stack = frame :: st) (hf : frame.todo = []) :
    Tracks lost pm npm on { s with stack := st } :=
  h.with_stack (by rw [hst, todo_of_nil hf])

theorem of_settle (h : Tracks lost pm npm on s) (q : ℕ) (side : Side) (v : Option (Any V)) :
    Tracks lost pm npm on (s.settle q side v) := by
  unfold Machine.settle
  simp only
  split
  · rename_i hq
    by_cases hqp : q = pm
    · subst hqp
      obtain ⟨hcbs, htodo, hran⟩ := h.pending hq
      refine ⟨h.made, fun q' hq' => ?_, fun hnone => by simp at hnone,
        fun side' hside' => Or.inl ?_⟩
      · simpa only [Function.update_of_ne hq'] using h.others q' hq'
      · simp only [Function.update_self, Option.some.injEq] at hside'
        subst hside'
        exact ⟨by simp [todo_fire, hcbs, htodo], hran⟩
    · have hnone : ((s.promises q).callbacks side).filter (fun cb => cb.npm = npm) = [] := by
        simpa [List.filter_eq_nil_iff] using h.others q hqp side
      refine ⟨h.made, fun q' hq' side' cb hcb => ?_, ?_, ?_⟩
      · by_cases hqq : q' = q
        · subst hqq
          exact h.others q' hq' side' cb (by simpa only [Function.update_self] using hcb)
        · exact h.others q' hq' side' cb (by simpa only [Function.update_of_ne hqq] using hcb)
      · simpa [Function.update_of_ne (Ne.symm hqp), todo_fire, hnone] using h.pending
      · simpa [Function.update_of_ne (Ne.symm hqp), todo_fire, hnone] using h.settled
  · exact h

/-- The promise of a loop is settled. -/
theorem of_clear (h : Tracks lost pm npm on s) (q : ℕ) (side : Side)
    (hq : (s.promises q).state = some side) : Tracks lost pm npm on (s.clear q side) := by
  refine ⟨h.made, fun q' hq' side' cb hcb => h.others q' hq' side' cb ?_, fun hnone => ?_, ?_⟩
  · by_cases hqq : q' = q
    · subst hqq
      by_cases hside' : side' = side
      · simp [Machine.clear, hside'] at hcb
      · simpa [Machine.clear, Function.update_of_ne hside'] using hcb
    · simpa [Machine.clear, Function.update_of_ne hqq] using hcb
  · have hne : pm ≠ q := by
      rintro rfl
      simp [Machine.clear, hq] at hnone
    simp only [Machine.clear, Function.update_of_ne hne] at hnone ⊢
    exact h.pending hnone
  · by_cases hqp : pm = q
    · subst hqp
      simpa [Machine.clear, ranFor] using h.settled
    · simpa [Machine.clear, Function.update_of_ne hqp, ranFor] using h.settled

/-- Another registration's callback runs. -/
theorem of_run (h : Tracks lost pm npm on s) {cb : Callback F} (hne : cb.npm ≠ npm) (side : Side)
    (arg : Any V) : Tracks lost pm npm on (s.run cb side arg) := by
  have hran : ranFor npm (s.run cb side arg).ran = ranFor npm s.ran := by
    simp [ranFor, Machine.run, hne]
  refine ⟨h.made, h.others, ?_, ?_⟩
  · rw [hran]
    simpa only [Machine.run, todo_frames] using h.pending
  · rw [hran]
    simpa only [Machine.run, todo_frames] using h.settled

theorem make (h : Tracks lost pm npm on s) :
    Tracks lost pm npm on { s with next := s.next + 1 } :=
  ⟨Nat.lt_succ_of_lt h.made, h.others, h.pending, h.settled⟩

theorem of_register (h : Tracks lost pm npm on s) (q : ℕ) (on' : Side → Option (Func F)) :
    Tracks lost pm npm on (s.register q on') := by
  have hne : s.next ≠ npm := Nat.ne_of_gt h.made
  unfold Machine.register
  simp only
  split
  · refine ⟨Nat.lt_succ_of_lt h.made, fun q' hq' side' cb hcb => ?_, ?_, ?_⟩
    · by_cases hqq : q' = q
      · subst hqq
        simp only [Function.update_self, List.mem_append, List.mem_singleton] at hcb
        rcases hcb with hcb | rfl
        · exact h.others q' hq' side' cb hcb
        · exact hne
      · exact h.others q' hq' side' cb (by simpa only [Function.update_of_ne hqq] using hcb)
    · by_cases hqp : pm = q
      · subst hqp
        simpa [ranFor, hne] using h.pending
      · simpa [Function.update_of_ne hqp, ranFor] using h.pending
    · by_cases hqp : pm = q
      · subst hqp
        simpa [ranFor] using h.settled
      · simpa [Function.update_of_ne hqp, ranFor] using h.settled
  · exact h.make.of_run hne _ _

theorem of_all (h : Tracks lost pm npm on s) (pms : List ℕ) :
    Tracks lost pm npm on (s.all pms) := by
  unfold Machine.all
  split
  · exact h.make
  · refine ⟨Nat.lt_succ_of_lt h.made, h.others, ?_, ?_⟩
    · simpa only [todo_all] using h.pending
    · simpa only [todo_all] using h.settled

/-- The loop calls the next callback. -/
theorem of_fire (h : Tracks lost pm npm on s) {q : ℕ} {side : Side} {cb : Callback F}
    {cbs : List (Callback F)} {st : List (Frame V F)}
    (hst : s.stack = .fire q side (cb :: cbs) :: st) :
    Tracks lost pm npm on
      ({ s with stack := .fire q side cbs :: st }.run cb side ((s.promises q).any side)) := by
  have htodo : todo npm s.stack =
      ([cb].filter fun cb => cb.npm = npm).map (fun cb => (q, side, cb)) ++
        todo npm (Frame.fire (V := V) q side cbs :: st) := by
    rw [hst, todo_fire, todo_fire, ← List.append_assoc, ← List.map_append, ← List.filter_append]
    rfl
  by_cases hcb : cb.npm = npm
  · have hcons : todo npm s.stack = (q, side, cb) :: todo npm (.fire q side cbs :: st) := by
      simpa [hcb] using htodo
    refine ⟨h.made, h.others, fun hnone => ?_, fun side' hside' => Or.inr (Or.inl ?_)⟩
    · have hnil := (h.pending hnone).2.1
      rw [hcons] at hnil
      cases hnil
    · rcases h.settled side' hside' with ⟨htodo1, hran⟩ | ⟨hnil, -⟩ | ⟨-, hnil, -⟩
      · rw [hcons, List.cons.injEq] at htodo1
        obtain ⟨heq, hrest⟩ := htodo1
        cases heq
        refine ⟨by simpa only [Machine.run, todo_frames] using hrest, ?_⟩
        simpa [ranFor, Machine.run] using hran
      · rw [hcons] at hnil
        cases hnil
      · rw [hcons] at hnil
        cases hnil
  · refine (h.with_stack ?_).of_run hcb side _
    simp [htodo, hcb]

/-- The callbacks of the loops that an exception ends are not called. -/
theorem of_throw (h : Tracks lost pm npm on s) (hlost : lost) {frame : Frame V F}
    {st : List (Frame V F)} (hst : s.stack = frame :: st) :
    Tracks lost pm npm on ({ s with stack := st } : Machine V F).unwind := by
  have hsuf : todo npm (st.dropWhile fun frame => !frame.isUser) <:+ todo npm s.stack := by
    rw [hst]
    exact (((List.dropWhile_suffix _).trans (List.suffix_cons frame st)).flatMap _).filter _
  refine ⟨h.made, h.others, fun hnone => ?_, fun side' hside' => ?_⟩
  · obtain ⟨hcbs, hnil, hran⟩ := h.pending hnone
    exact ⟨hcbs, List.suffix_nil.mp (hnil ▸ hsuf), hran⟩
  · rcases h.settled side' hside' with ⟨hone, hran⟩ | ⟨hnil, hran⟩ | ⟨-, hnil, hran⟩
    · rcases List.suffix_cons_iff.mp (hone ▸ hsuf) with hnow | hnow
      · exact Or.inl ⟨hnow, hran⟩
      · exact Or.inr (Or.inr ⟨hlost, List.suffix_nil.mp hnow, hran⟩)
    · exact Or.inr (Or.inl ⟨List.suffix_nil.mp (hnil ▸ hsuf), hran⟩)
    · exact Or.inr (Or.inr ⟨hlost, List.suffix_nil.mp (hnil ▸ hsuf), hran⟩)

theorem step (h : Tracks lost pm npm on s) (hm : Made s) (hlost : e = .throw → lost)
    (hs : Step s e s') : Tracks lost pm npm on s' := by
  cases hs with
  | settle_next hst => exact (h.tail hst rfl).of_settle _ _ _
  | fire_done hst => exact (h.tail hst rfl).of_clear _ _ (hm.head hst).1
  | fire_next hst => exact h.of_fire hst
  | all_done hst => exact h.tail hst rfl
  | all_next hst =>
    exact (h.with_stack (by rw [hst, todo_all, todo_all])).of_register _ _
  | promise_t => exact h.make
  | settle => exact h.of_settle _ _ _
  | then_ => exact h.of_register _ _
  | all => exact h.of_all _
  | return_settle hst => exact (h.tail hst rfl).of_settle _ _ _
  | return_pm hst => exact (h.tail hst rfl).of_register _ _
  | throw hst => exact h.of_throw (hlost rfl) hst

/-- A new registration, on a promise that is pending or not. -/
theorem registered (hm : Made s) (pm : ℕ) (on : Side → Option (Func F)) :
    Tracks lost pm s.next on (s.register pm on) := by
  have hcbs : ∀ q side, ∀ cb ∈ (s.promises q).callbacks side, cb.npm ≠ s.next :=
    fun q side cb hcb => Nat.ne_of_lt (hm.callbacks q side cb hcb).1
  have htodo : todo s.next s.stack = [] := by
    unfold todo
    rw [List.filter_eq_nil_iff]
    intro x hx
    obtain ⟨frame, hf, hx⟩ := List.mem_flatMap.mp hx
    have hframe := hm.stack frame hf
    cases frame with
    | fire q side cbs =>
      obtain ⟨cb, hcb, rfl⟩ := List.mem_map.mp hx
      simpa using Nat.ne_of_lt (hframe.2 cb hcb).1
    | user => cases hx
    | settle => cases hx
    | all => cases hx
  have hran : ranFor s.next s.ran = [] := by
    simpa [ranFor, List.filter_eq_nil_iff] using fun r hr => Nat.ne_of_lt (hm.ran r hr).1
  unfold Machine.register
  simp only
  split
  · rename_i hp
    refine ⟨Nat.lt_succ_self _, fun q hq side cb hcb => ?_, fun _ => ⟨fun side => ?_, htodo, hran⟩,
      fun side hside => ?_⟩
    · exact hcbs q side cb (by simpa only [Function.update_of_ne hq] using hcb)
    · simpa [List.filter_append, List.filter_eq_nil_iff] using hcbs pm side
    · simp [hp] at hside
  · rename_i side hp
    refine ⟨Nat.lt_succ_self _, fun q _ => hcbs q, fun hnone => ?_,
      fun side' hside' => Or.inr (Or.inl ?_)⟩
    · simp [Machine.run, hp] at hnone
    · have heq : side = side' := by simpa [Machine.run, hp] using hside'
      subst heq
      refine ⟨by simpa only [Machine.run, todo_frames] using htodo, ?_⟩
      simp only [ranFor, Machine.run, List.filter_append] at hran ⊢
      simp [hran]

end Tracks

/-! ## Each registration runs one of its callbacks -/

def Event.throws : Event V F → Bool
  | .throw => true
  | _ => false

/-- No callback throws. -/
abbrev Calm (_ : Machine V F) (e : Event V F) : Prop := e.throws = false

theorem Tracks.of_runs {lost : Prop} {pm npm : ℕ} {on : Side → Option (Func F)}
    {ok : Machine V F → Event V F → Prop} (hok : ∀ t f, ok t f → f = .throw → lost)
    (h : Tracks lost pm npm on s) (hm : Made s) (hr : Runs Machine.step ok s s') :
    Tracks lost pm npm on s' :=
  (hr.keeps (P := fun t => Tracks lost pm npm on t ∧ Made t) ⟨h, hm⟩ fun t f _ ht hf hs =>
    ⟨ht.1.step ht.2 (hok t f hf) (step_cases hs), ht.2.step (step_cases hs)⟩).1

/-- `then` runs none of its callbacks before its promise is settled, and none twice or on the wrong
side after. Unless something throws, the right one has run when the loop is over. -/
theorem each_then_runs_one_of_its_callbacks {s1 s2 : Machine V F} {pm : ℕ}
    {handlers : Handlers F} (h : Runs Machine.step Anything Machine.start s)
    (hthen : s.step (.then_ pm handlers) = some s1) (hr : Runs Machine.step Anything s1 s2) :
    ((s2.promises pm).state = none → ranFor s.next s2.ran = []) ∧
      ∀ side, (s2.promises pm).state = some side →
        (ranFor s.next s2.ran).Sublist
          [⟨⟨handlers.on side, s.next⟩, side, (s2.promises pm).any side⟩] ∧
        (Runs Machine.step Calm s1 s2 → (∀ cbs, .fire pm side cbs ∉ s2.stack) →
          ranFor s.next s2.ran =
            [⟨⟨handlers.on side, s.next⟩, side, (s2.promises pm).any side⟩]) := by
  have hm := Made.start.of_runs h
  have hm1 := hm.step (step_cases hthen)
  have htracks : ∀ lost, Tracks lost pm s.next handlers.on s1 := by
    intro lost
    cases step_cases hthen with
    | then_ => exact .registered hm pm _
  have hany := (htracks True).of_runs (fun _ _ _ _ => trivial) hm1 hr
  refine ⟨fun hnone => (hany.pending hnone).2.2, fun side hside => ⟨?_, fun hcalm hover => ?_⟩⟩
  · rcases hany.settled side hside with ⟨-, hran⟩ | ⟨-, hran⟩ | ⟨-, -, hran⟩
    · simp [hran]
    · simp [hran]
    · simp [hran]
  · have hno := (htracks False).of_runs (fun _ _ hf heq => absurd hf (by simp [heq, Event.throws]))
      hm1 hcalm
    rcases hno.settled side hside with ⟨htodo, -⟩ | ⟨-, hran⟩ | ⟨hfalse, -⟩
    · obtain ⟨cbs, hmem⟩ := mem_of_todo (htodo ▸ List.mem_singleton_self _)
      exact (hover cbs hmem).elim
    · exact hran
    · exact hfalse.elim

theorem of_two_functions_one_is_called :
    ∃ s1 s2 : Machine ℕ ℕ,
      Machine.step { Machine.start with next := 1 } (.then_ 0 (.both 7 8)) = some s1 ∧
        Runs Machine.step Calm s1 s2 ∧
          ranFor 1 s2.ran = [⟨⟨some (.user 7), 1⟩, .fulfilled, .of 5⟩] := by
  obtain ⟨s2, hs2, hidle, hst, hany⟩ : ∃ s2, play Machine.step Calm
      (Machine.register 0 (Handlers.both 7 8).on
        ({ Machine.start with next := 1 } : Machine ℕ ℕ))
      [.settle 0 .fulfilled (some (.of 5)), .tick, .return_ .void, .tick, .tick] = some s2 ∧
      s2.stack = [] ∧ (s2.promises 0).state = some .fulfilled ∧
        (s2.promises 0).any .fulfilled = .of 5 := ⟨_, rfl, rfl, rfl, rfl⟩
  have hstart : Runs Machine.step Anything Machine.start
      ({ Machine.start with next := 1 } : Machine ℕ ℕ) :=
    .of_play (show play Machine.step Anything Machine.start [.promise_t] = some _ from rfl)
  have hcalm := Runs.of_play hs2
  have hone := ((each_then_runs_one_of_its_callbacks hstart rfl
    (hcalm.mono fun _ _ _ => trivial)).2 .fulfilled hst).2 hcalm (by simp [hidle])
  rw [hany] at hone
  exact ⟨_, s2, rfl, hcalm, hone⟩

end general_hotstuff.promise
