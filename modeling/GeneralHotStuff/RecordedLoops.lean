-- Loops whose turns record what they do. Where no turn disturbs another, what the
-- loop makes of each part of the state, and what it records, is what the turns make
-- of the first state one by one. A counting loop that can fail follows a plain one.
import Mathlib.Data.List.Nodup

namespace recorded_loops

variable {σ κ ε γ δ : Type*}

/-- A loop over a list: each turn gives the next state and what it records. -/
def run (turn : σ → κ → σ × List ε) (s : σ) : List κ → σ × List ε
  | [] => (s, [])
  | x :: xs =>
    ((run turn (turn s x).1 xs).1, (turn s x).2 ++ (run turn (turn s x).1 xs).2)

@[simp] theorem run_nil (turn : σ → κ → σ × List ε) (s : σ) : run turn s [] = (s, []) := rfl

theorem run_cons (turn : σ → κ → σ × List ε) (s : σ) (x : κ) (xs : List κ) :
    run turn s (x :: xs) =
      ((run turn (turn s x).1 xs).1, (turn s x).2 ++ (run turn (turn s x).1 xs).2) := rfl

/-- The turns do not disturb each other. Turn `x` writes only its own part of the state, and
what it writes and records comes from this part and from what no turn writes. -/
structure Independent (turn : σ → κ → σ × List ε) (xs : List κ) (part : σ → κ → γ)
    (shared : σ → δ) : Prop where
  nodup : xs.Nodup
  keeps : ∀ x ∈ xs, ∀ s, shared (turn s x).1 = shared s
  other : ∀ x ∈ xs, ∀ y, y ≠ x → ∀ s, part (turn s x).1 y = part s y
  reads : ∀ x ∈ xs, ∀ s s', shared s = shared s' → part s x = part s' x →
    part (turn s x).1 x = part (turn s' x).1 x ∧ (turn s x).2 = (turn s' x).2

variable {turn : σ → κ → σ × List ε} {xs : List κ} {part : σ → κ → γ} {shared : σ → δ}

theorem Independent.tail {x : κ} (h : Independent turn (x :: xs) part shared) :
    Independent turn xs part shared where
  nodup := (List.nodup_cons.mp h.nodup).2
  keeps y hy := h.keeps y (List.mem_cons_of_mem _ hy)
  other y hy := h.other y (List.mem_cons_of_mem _ hy)
  reads y hy := h.reads y (List.mem_cons_of_mem _ hy)

/-- A part that belongs to no turn is kept. -/
theorem Independent.part_of_not_mem (h : Independent turn xs part shared) {y : κ} (hy : y ∉ xs)
    (s : σ) : part (run turn s xs).1 y = part s y := by
  induction xs generalizing s with
  | nil => rfl
  | cons x xs ih =>
    obtain ⟨hyx, hy⟩ := not_or.mp (mt List.mem_cons.mpr hy)
    rw [run_cons, ih h.tail hy, h.other x List.mem_cons_self y hyx]

/-- The first turn leaves to the others what they had from the first state. -/
theorem Independent.after_first {x : κ} (h : Independent turn (x :: xs) part shared) {y : κ}
    (hy : y ∈ xs) (s : σ) :
    part (turn (turn s x).1 y).1 y = part (turn s y).1 y ∧
      (turn (turn s x).1 y).2 = (turn s y).2 := by
  have hyx : y ≠ x := fun he => (List.nodup_cons.mp h.nodup).1 (he ▸ hy)
  exact h.reads y (List.mem_cons_of_mem _ hy) _ _ (h.keeps x List.mem_cons_self s)
    (h.other x List.mem_cons_self y hyx s)

/-- The part of turn `y` is what this turn makes of the first state. -/
theorem Independent.part_of_mem (h : Independent turn xs part shared) {y : κ} (hy : y ∈ xs)
    (s : σ) : part (run turn s xs).1 y = part (turn s y).1 y := by
  induction xs generalizing s with
  | nil => cases hy
  | cons x xs ih =>
    rw [run_cons]
    rcases List.mem_cons.mp hy with rfl | hy
    · exact h.tail.part_of_not_mem (List.nodup_cons.mp h.nodup).1 _
    · rw [ih h.tail hy, (h.after_first hy s).1]

/-- The loop records what the turns record from the first state. -/
theorem Independent.records (h : Independent turn xs part shared) (s : σ) :
    (run turn s xs).2 = xs.flatMap fun x => (turn s x).2 := by
  induction xs generalizing s with
  | nil => rfl
  | cons x xs ih =>
    have hrest : xs.flatMap (fun y => (turn (turn s x).1 y).2) =
        xs.flatMap fun y => (turn s y).2 :=
      List.flatMap_congr fun y hy => (h.after_first hy s).2
    simp only [run_cons, List.flatMap_cons, ih h.tail, hrest]

/-! ## Loops that can fail -/

/-- The first `k` turns of a counting loop. -/
def loop (turn : ℕ → σ → Option (σ × List ε)) (s : σ) : ℕ → Option (σ × List ε)
  | 0 => some (s, [])
  | k + 1 => (loop turn s k).bind fun r =>
    (turn k r.1).map fun r' => (r'.1, r.2 ++ r'.2)

/-- Where each turn does what the turn of a plain loop does, keeps an invariant and records only
what is `Ok`, so does the whole loop. -/
theorem loop_of_plain {turn : ℕ → σ → Option (σ × List ε)} (step : ℕ → σ → Option σ)
    (plain : ℕ → Option σ) {s : σ} (Inv : σ → Prop) {Ok : ε → Prop} (hstart : plain 0 = some s)
    (hplain : ∀ k, plain (k + 1) = (plain k).bind (step k)) (hs : Inv s)
    (hturn : ∀ k s s', Inv s → step k s = some s' →
      ∃ es, turn k s = some (s', es) ∧ (∀ e ∈ es, Ok e) ∧ Inv s')
    (k : ℕ) {t : σ} (ht : plain k = some t) :
    ∃ es, loop turn s k = some (t, es) ∧ (∀ e ∈ es, Ok e) ∧ Inv t := by
  induction k generalizing t with
  | zero =>
    obtain rfl := Option.some.inj (hstart.symm.trans ht)
    exact ⟨[], rfl, by simp, hs⟩
  | succ k ih =>
    rw [hplain] at ht
    obtain ⟨u, hu, hstep⟩ := Option.bind_eq_some_iff.mp ht
    obtain ⟨es, hloop, hes, hinv⟩ := ih hu
    obtain ⟨more, hmore, hok, hinv'⟩ := hturn k u t hinv hstep
    refine ⟨es ++ more, ?_, ?_, hinv'⟩
    · simp only [loop, hloop, Option.bind_some, hmore, Option.map_some]
    · intro e he
      exact (List.mem_append.mp he).elim (hes e) (hok e)

end recorded_loops
