-- Runs of a transition system whose step may have no outcome. What a run is allowed to do
-- is a condition on the state before a step and on the event of the step. Loops are runs
-- over a list, and what they keep of it may be the highest element that they have met.
import Mathlib.Order.Lattice
import Mathlib.Order.Defs.Unbundled

namespace transitions

variable {σ ε : Type*}

/-- A state after any number of steps from `s`, each of which satisfies `ok`. -/
inductive Runs (step : σ → ε → Option σ) (ok : σ → ε → Prop) (s : σ) : σ → Prop where
  | refl : Runs step ok s s
  | tail {t u : σ} {e : ε} (hr : Runs step ok s t) (hok : ok t e) (he : step t e = some u) :
      Runs step ok s u

/-- Every step is allowed. -/
abbrev Anything (_ : σ) (_ : ε) : Prop := True

/-- The events one after the other, as long as each is allowed and has an outcome. -/
def play (step : σ → ε → Option σ) (ok : σ → ε → Prop) [∀ s e, Decidable (ok s e)] (s : σ) :
    List ε → Option σ
  | [] => some s
  | e :: es => if ok s e then (step s e).bind fun t => play step ok t es else none

variable {step : σ → ε → Option σ} {ok ok' : σ → ε → Prop} {s t u : σ}

namespace Runs

/-- What holds at the start and survives each step holds all along. -/
theorem keeps {P : σ → Prop} (h : Runs step ok s t) (hs : P s)
    (hstep : ∀ t e u, P t → ok t e → step t e = some u → P u) : P t := by
  induction h with
  | refl => exact hs
  | tail _ hok he ih => exact hstep _ _ _ ih hok he

theorem trans (h : Runs step ok s t) (h' : Runs step ok t u) : Runs step ok s u := by
  induction h' with
  | refl => exact h
  | tail _ hok he ih => exact ih.tail hok he

theorem mono (hok : ∀ s e, ok s e → ok' s e) (h : Runs step ok s t) : Runs step ok' s t := by
  induction h with
  | refl => exact .refl
  | tail _ he hs ih => exact ih.tail (hok _ _ he) hs

theorem of_play [∀ s e, Decidable (ok s e)] {es : List ε} (h : play step ok s es = some t) :
    Runs step ok s t := by
  induction es generalizing s with
  | nil => exact Option.some.inj h ▸ .refl
  | cons e es ih =>
    simp only [play] at h
    split at h
    · rename_i hok
      obtain ⟨s1, hs1, h⟩ := Option.bind_eq_some_iff.mp h
      exact (Runs.refl.tail hok hs1).trans (ih h)
    · cases h

/-- Events that are played make a run under `ok'` too when what holds after each number of them
implies it. -/
theorem of_play_keeping [∀ s e, Decidable (ok s e)] {P : ℕ → σ → Prop} {n k : ℕ}
    (hstep : ∀ k s e t, k < n → P k s → ok s e → step s e = some t → ok' s e ∧ P (k + 1) t)
    {es : List ε} (hk : k + es.length ≤ n) (hs : P k s) (h : play step ok s es = some t) :
    Runs step ok' s t ∧ P (k + es.length) t := by
  induction es generalizing s k with
  | nil => exact Option.some.inj h ▸ ⟨.refl, hs⟩
  | cons e es ih =>
    rw [List.length_cons] at hk ⊢
    simp only [play] at h
    split at h
    · rename_i hok
      obtain ⟨s1, hs1, h⟩ := Option.bind_eq_some_iff.mp h
      obtain ⟨hok', h1⟩ := hstep k s e s1 (by omega) hs hok hs1
      obtain ⟨hrun, hP⟩ := ih (by omega) h1 h
      refine ⟨(Runs.refl.tail hok' hs1).trans hrun, ?_⟩
      rw [Nat.add_left_comm, Nat.add_comm]
      exact hP
    · cases h

/-- One after the other: each element of a list gets what it waits for by a run that takes nothing
from the others. -/
theorem each {ι : Type*} (I : σ → Prop) (Todo Done : ι → σ → Prop) {l : List ι} (hl : l.Nodup)
    (hone : ∀ i ∈ l, ∀ t, I t → Todo i t → ∃ u, Runs step ok t u ∧ I u ∧ Done i u ∧
      ∀ j ≠ i, (Todo j t → Todo j u) ∧ (Done j t → Done j u))
    (hI : I s) (htodo : ∀ i ∈ l, Todo i s) :
    ∃ t, Runs step ok s t ∧ I t ∧ (∀ i ∈ l, Done i t) ∧ ∀ j ∉ l, Done j s → Done j t := by
  induction l generalizing s with
  | nil => exact ⟨s, .refl, hI, by simp, fun _ _ h => h⟩
  | cons i l ih =>
    rw [List.nodup_cons] at hl
    obtain ⟨u, hu, hIu, hdone, hothers⟩ := hone i List.mem_cons_self s hI
      (htodo i List.mem_cons_self)
    obtain ⟨t, ht, hIt, hall, hold⟩ := ih hl.2 (fun j hj => hone j (List.mem_cons_of_mem _ hj)) hIu
      fun j hj => (hothers j fun heq => hl.1 (heq ▸ hj)).1 (htodo j (List.mem_cons_of_mem _ hj))
    refine ⟨t, hu.trans ht, hIt, fun j hj => ?_, fun j hj hd => ?_⟩
    · rcases List.mem_cons.mp hj with rfl | hj
      · exact hold j hl.1 hdone
      · exact hall j hj
    · rw [List.mem_cons, not_or] at hj
      exact hold j hj.2 ((hothers j hj.1).2 hd)

end Runs

/-! ## Loops -/

/-- What every turn of a loop keeps, the loop keeps. -/
theorem foldlM_keeps {f : σ → ε → Option σ} {P : σ → Prop} {es : List ε}
    (hf : ∀ s e t, e ∈ es → P s → f s e = some t → P t) (hs : P s) (h : es.foldlM f s = some t) :
    P t := by
  induction es generalizing s with
  | nil => exact Option.some.inj h ▸ hs
  | cons e es ih =>
    rw [List.foldlM_cons] at h
    obtain ⟨s1, h1, h⟩ := Option.bind_eq_some_iff.mp h
    exact ih (fun s e t he => hf s e t (List.mem_cons_of_mem _ he))
      (hf s e s1 (List.mem_cons_self ..) hs h1) h

/-- A loop ends when each of its turns does. -/
theorem foldlM_isSome {f : σ → ε → Option σ} {P : σ → Prop} {es : List ε}
    (hf : ∀ s e, e ∈ es → P s → ∃ t, f s e = some t ∧ P t) (hs : P s) :
    ∃ t, es.foldlM f s = some t ∧ P t := by
  induction es generalizing s with
  | nil => exact ⟨s, rfl, hs⟩
  | cons e es ih =>
    obtain ⟨s1, h1, hs1⟩ := hf s e (List.mem_cons_self ..) hs
    obtain ⟨t, ht, hP⟩ := ih (fun s e he => hf s e (List.mem_cons_of_mem _ he)) hs1
    exact ⟨t, by rw [List.foldlM_cons, h1]; exact ht, hP⟩

/-! ## The highest element so far -/

section Highest

variable {α β : Type*} [LinearOrder β] {f : α → β} {P Q : α → Prop} {x y : α}

theorem le_of_maximalFor (h : MaximalFor P f x) (hy : P y) : f y ≤ f x :=
  (le_total (f y) (f x)).elim id (h.2 hy)

/-- Elements of one height are the same: then only one is the highest. -/
theorem maximalFor_unique (hinj : ∀ x y, P x → P y → f x = f y → x = y) (h : MaximalFor P f x)
    (h' : MaximalFor P f y) : x = y :=
  hinj x y h.1 h'.1 (le_antisymm (le_of_maximalFor h' h.1) (le_of_maximalFor h h'.1))

/-- What has come in is no higher than the highest element. -/
theorem maximalFor_stays (h : MaximalFor P f x) (hx : Q x)
    (hQ : ∀ z, Q z → P z ∨ f z ≤ f x) : MaximalFor Q f x :=
  ⟨hx, fun z hz _ => (hQ z hz).elim (le_of_maximalFor h) id⟩

/-- An element comes in, and the higher one of the two is kept. -/
theorem maximalFor_raise (h : MaximalFor P f x) (hP : ∀ z, P z → Q z) (hy : Q y)
    (hQ : ∀ z, Q z → P z ∨ z = y) : MaximalFor Q f (if f x < f y then y else x) := by
  split
  · rename_i hlt
    refine ⟨hy, fun z hz _ => ?_⟩
    rcases hQ z hz with hz | rfl
    · exact le_of_lt (lt_of_le_of_lt (le_of_maximalFor h hz) hlt)
    · exact le_rfl
  · rename_i hge
    refine maximalFor_stays h (hP x h.1) fun z hz => (hQ z hz).imp_right ?_
    rintro rfl
    exact not_lt.mp hge

end Highest

end transitions
