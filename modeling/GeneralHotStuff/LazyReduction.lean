-- The late reductions of `gauss` and `PLU`, entry by entry: both functions once
-- more with the loops of the source, each of which records what it stores in the
-- work matrix and what it hands to the modular functions of NTL. They compute what
-- the bulk definitions do, and everything recorded stays within the allocated size.
import GeneralHotStuff.GaussLaws
import GeneralHotStuff.RecordedLoops

namespace general_hotstuff.linalg

open row_echelon recorded_loops

/-! ## What is recorded -/

/-- A value stored in the work matrix, or the operands of a modular function. -/
inductive Event where
  | store (value : ℤ)
  | MulMod (a b : ℤ)
  | NegateMod (a : ℤ)
  | InvMod (a : ℤ)

def setEntry {α : Type} (M : ℕ → ℕ → α) (i j : ℕ) (value : α) : ℕ → ℕ → α := fun a b =>
  if a = i ∧ b = j then value else M a b

/-- The initial `M[i][j] = rep(M_in[i][j])`. -/
def initialStores (n m : ℕ) (M : ℕ → ℕ → ℤ) : List Event :=
  (List.range n).flatMap fun i => (List.range m).map fun j => .store (M i j)

/-! ## The inner loops -/

/-- One turn of the loop that reduces column `k` and looks for `pos`. -/
def reduceTurn (p k : ℕ) (s : (ℕ → ℕ → ℤ) × Option ℕ) (i : ℕ) :
    ((ℕ → ℕ → ℤ) × Option ℕ) × List Event :=
  let t1 := s.1 i k % p
  ((setEntry s.1 i k t1, if s.2 = none ∧ t1 ≠ 0 then some i else s.2), [.store t1])

/-- One turn of the loop that reduces the pivot row. -/
def reducePivotTurn (p l : ℕ) (M : ℕ → ℕ → ℤ) (j : ℕ) : (ℕ → ℕ → ℤ) × List Event :=
  let t1 := M l j % p
  (setEntry M l j t1, [.store t1])

/-- One turn of the innermost loop: `*x = *x + (*y)*t1`. -/
def addTurn (l i : ℕ) (t1 : ℤ) (M : ℕ → ℕ → ℤ) (j : ℕ) : (ℕ → ℕ → ℤ) × List Event :=
  let t2 := M l j * t1 + M i j
  (setEntry M i j t2, [.store t2])

/-- `clear(M[i][k])` and the innermost loop after it. -/
def addRow (m l k i : ℕ) (t1 : ℤ) (M : ℕ → ℕ → ℤ) : (ℕ → ℕ → ℤ) × List Event :=
  let r := run (addTurn l i t1) (setEntry M i k 0) (List.range' (k + 1) (m - (k + 1)))
  (r.1, .store 0 :: r.2)

/-- One turn of the elimination in `gauss`, for row `i`. -/
def gaussTurn (p m l k : ℕ) (piv : ℤ) (M : ℕ → ℕ → ℤ) (i : ℕ) : (ℕ → ℕ → ℤ) × List Event :=
  if M i k ≠ 0 then
    let r := addRow m l k i (MulMod (M i k) piv p) M
    (r.1, .MulMod (M i k) piv :: r.2)
  else (M, [])

/-- One turn of the elimination in `PLU`, for row `i`, with the factor recorded in `L`. -/
def pluTurn (p m l k : ℕ) (piv : ℤ) (s : (ℕ → ℕ → ℤ) × (ℕ → ℕ → ZMod p)) (i : ℕ) :
    ((ℕ → ℕ → ℤ) × (ℕ → ℕ → ZMod p)) × List Event :=
  let t1 := MulMod (s.1 i k) piv p
  let r := addRow m l k i t1 s.1
  ((r.1, setEntry s.2 i l (NegateMod t1 p : ZMod p)),
    .MulMod (s.1 i k) piv :: r.2 ++ [.NegateMod t1])

/-! ## gauss and PLU -/

/-- `gaussStep` with the loops of the source. -/
def gaussStepRecorded (p n m k : ℕ) (st : GaussState) : Option (GaussState × List Event) :=
  if st.l < n then
    let r := run (reduceTurn p k) (st.M, none) (List.range' st.l (n - st.l))
    match r.1.2 with
    | none => some ({ st with M := r.1.1 }, r.2)
    | some pos =>
      let M := swapRows pos st.l r.1.1
      (InvMod (M st.l k) p).map fun inverse =>
        let r1 := run (reducePivotTurn p st.l) M (List.range' (k + 1) (m - (k + 1)))
        let r2 := run (gaussTurn p m st.l k (NegateMod inverse p)) r1.1
          (List.range' (st.l + 1) (n - (st.l + 1)))
        ({ M := r2.1, l := st.l + 1, pivot_cols := st.pivot_cols ++ [k] },
          r.2 ++ .InvMod (M st.l k) :: .NegateMod inverse :: r1.2 ++ r2.2)
  else some (st, [])

/-- `gauss` with everything that it stores in its work matrix and computes modulo `p`. -/
def gaussRecorded {p : ℕ} (M_in : Mat (ZMod p)) :
    Option ((Mat (ZMod p) × List ℕ) × List Event) :=
  let n := M_in.NumRows
  let m := M_in.NumCols
  let M : ℕ → ℕ → ℤ := fun i j => rep (M_in.entry i j)
  (loop (gaussStepRecorded p n m) ⟨M, 0, []⟩ m).map fun (st, events) =>
    ((⟨n, m, fun i j => (st.M i j : ZMod p)⟩, st.pivot_cols), initialStores n m M ++ events)

/-- `pluStep` with the loops of the source. -/
def pluStepRecorded (p n m k : ℕ) (st : PluState p) : Option (PluState p × List Event) :=
  if st.l < n then
    let r := run (reduceTurn p k) (st.M, none) (List.range' st.l (n - st.l))
    match r.1.2 with
    | none => some ({ st with M := r.1.1 }, r.2)
    | some pos =>
      let M := if pos ≠ st.l then swapRows pos st.l r.1.1 else r.1.1
      let P := if pos ≠ st.l then swapRows pos st.l st.P else st.P
      let L := if pos ≠ st.l then swapCols pos st.l (swapRows pos st.l st.L) else st.L
      (InvMod (M st.l k) p).map fun inverse =>
        let r1 := run (reducePivotTurn p st.l) M (List.range' (k + 1) (m - (k + 1)))
        let r2 := run (pluTurn p m st.l k (NegateMod inverse p)) (r1.1, L)
          (List.range' (st.l + 1) (n - (st.l + 1)))
        ({ M := r2.1.1, l := st.l + 1, P := P, L := r2.1.2 },
          r.2 ++ .InvMod (M st.l k) :: .NegateMod inverse :: r1.2 ++ r2.2)
  else some (st, [])

/-- `PLU` with everything that it stores in its work matrix and computes modulo `p`. -/
def pluRecorded {p : ℕ} (M_in : Mat (ZMod p)) : Option (PluResult p × List Event) :=
  let n := M_in.NumRows
  let m := M_in.NumCols
  let M : ℕ → ℕ → ℤ := fun i j => rep (M_in.entry i j)
  (loop (pluStepRecorded p n m) ⟨M, 0, ident p, ident p⟩ m).map fun (st, events) =>
    ({ P := ⟨n, n, st.P⟩, L := ⟨n, n, st.L⟩, U := ⟨n, m, fun i j => (st.M i j : ZMod p)⟩ },
      initialStores n m M ++ events)

/-! ## The loops and the bulk definitions -/

theorem setEntry_of_row_ne {α : Type} (M : ℕ → ℕ → α) {i a : ℕ} (h : a ≠ i) (j : ℕ)
    (value : α) : setEntry M i j value a = M a := by
  funext b
  exact if_neg fun hab => h hab.1

theorem setEntry_of_col_ne {α : Type} (M : ℕ → ℕ → α) {j b : ℕ} (h : b ≠ j) (i : ℕ)
    (value : α) : (fun a => setEntry M i j value a b) = fun a => M a b := by
  funext a
  exact if_neg fun hab => h hab.2

theorem flatMap_store (xs : List ℕ) (f : ℕ → ℤ) :
    (xs.flatMap fun x => [Event.store (f x)]) = xs.map fun x => .store (f x) := by
  rw [List.map_eq_flatMap]

/-- Each turn reads and writes its own row. -/
theorem reduceTurn_independent (p k : ℕ) {xs : List ℕ} (hxs : xs.Nodup) :
    Independent (reduceTurn p k) xs (fun s i => s.1 i) fun _ => () where
  nodup := hxs
  keeps _ _ _ := rfl
  other x _ y hy s := setEntry_of_row_ne _ hy _ _
  reads x _ s s' _ hx := by
    simp only [reduceTurn, hx, and_true]
    funext b
    simp only [setEntry, hx]

/-- `pos` is the first row that is not zero modulo `p`. -/
theorem reduceTurn_pos (p k : ℕ) {xs : List ℕ} (hxs : xs.Nodup) (M : ℕ → ℕ → ℤ)
    (pos : Option ℕ) :
    (run (reduceTurn p k) (M, pos) xs).1.2 = pos.or (xs.find? fun i => M i k % p ≠ 0) := by
  induction xs generalizing M pos with
  | nil => simp
  | cons x xs ih =>
    obtain ⟨hx, hxs⟩ := List.nodup_cons.mp hxs
    have hrest : (xs.find? fun i => setEntry M x k (M x k % p) i k % p ≠ 0) =
        xs.find? fun i => M i k % p ≠ 0 := by
      apply List.find?_congr
      intro i hi
      have hix : i ≠ x := fun h => hx (h ▸ hi)
      rw [setEntry_of_row_ne M hix]
    rw [run_cons]
    simp only [reduceTurn]
    rw [ih hxs, hrest, List.find?_cons]
    cases pos with
    | some q => simp
    | none =>
      by_cases hz : M x k % p = 0
      · simp only [hz, ne_eq, not_true_eq_false, and_false, if_false, decide_false]
      · simp only [hz, ne_eq, not_false_eq_true, and_self, if_true, decide_true, Option.some_or,
          Option.none_or]

theorem run_reduceTurn (p n l k : ℕ) (M : ℕ → ℕ → ℤ) :
    run (reduceTurn p k) (M, none) (List.range' l (n - l)) =
      ((reduceColumn p n l k M, findPivot n l k (reduceColumn p n l k M)),
        (List.range' l (n - l)).map fun i => .store (M i k % p)) := by
  have hturns := reduceTurn_independent p k (List.nodup_range' (s := l) (n := n - l))
  refine Prod.ext (Prod.ext ?_ ?_) ?_
  · funext a
    by_cases ha : a ∈ List.range' l (n - l)
    · refine (hturns.part_of_mem ha _).trans ?_
      have := List.mem_range'_1.mp ha
      funext b
      simp only [reduceTurn, setEntry, reduceColumn, true_and, show l ≤ a by omega,
        show a < n by omega]
      split
      · subst_vars
        rfl
      · rfl
    · refine (hturns.part_of_not_mem ha _).trans ?_
      have : ¬ (l ≤ a ∧ a < n) := fun h => ha (List.mem_range'_1.mpr (by omega))
      funext b
      simp only [reduceColumn, ← and_assoc, this, false_and, if_false]
  · simp only
    rw [reduceTurn_pos p k List.nodup_range', Option.none_or]
    unfold findPivot
    apply List.find?_congr
    intro i hi
    have := List.mem_range'_1.mp hi
    rw [reduceColumn, if_pos ⟨by omega, by omega, rfl⟩]
  · exact (hturns.records _).trans (flatMap_store _ _)

/-- Each turn reads and writes its own column. -/
theorem reducePivotTurn_independent (p l : ℕ) {xs : List ℕ} (hxs : xs.Nodup) :
    Independent (reducePivotTurn p l) xs (fun M j a => M a j) fun _ => () where
  nodup := hxs
  keeps _ _ _ := rfl
  other x _ y hy M := setEntry_of_col_ne _ hy _ _
  reads x _ M M' _ hx := by
    simp only [reducePivotTurn, congrFun hx l, and_true]
    funext a
    simp only [setEntry, congrFun hx a]

theorem run_reducePivotTurn (p m l k : ℕ) (M : ℕ → ℕ → ℤ) :
    run (reducePivotTurn p l) M (List.range' (k + 1) (m - (k + 1))) =
      (reducePivotRow p m l k M,
        (List.range' (k + 1) (m - (k + 1))).map fun j => .store (M l j % p)) := by
  have hturns := reducePivotTurn_independent p l
    (List.nodup_range' (s := k + 1) (n := m - (k + 1)))
  refine Prod.ext ?_ ?_
  · funext a b
    by_cases hb : b ∈ List.range' (k + 1) (m - (k + 1))
    · refine (congrFun (hturns.part_of_mem hb M) a).trans ?_
      have := List.mem_range'_1.mp hb
      simp only [reducePivotTurn, setEntry, reducePivotRow, and_true, show k < b by omega,
        show b < m by omega]
      split
      · subst_vars
        rfl
      · rfl
    · refine (congrFun (hturns.part_of_not_mem hb M) a).trans ?_
      have : ¬ (k < b ∧ b < m) := fun h => hb (List.mem_range'_1.mpr (by omega))
      simp only [reducePivotRow, this, and_false, if_false]
  · exact (hturns.records M).trans (flatMap_store _ _)

theorem addTurn_independent (l i : ℕ) (t1 : ℤ) {xs : List ℕ} (hxs : xs.Nodup) :
    Independent (addTurn l i t1) xs (fun M j a => M a j) fun _ => () where
  nodup := hxs
  keeps _ _ _ := rfl
  other x _ y hy M := setEntry_of_col_ne _ hy _ _
  reads x _ M M' _ hx := by
    simp only [addTurn, congrFun hx l, congrFun hx i, and_true]
    funext a
    simp only [setEntry, congrFun hx a]

/-- The row `i` after a multiple of row `l` is added to it. -/
def addedRow (m l k i : ℕ) (t1 : ℤ) (M : ℕ → ℕ → ℤ) (j : ℕ) : ℤ :=
  if j = k then 0 else if k < j ∧ j < m then M l j * t1 + M i j else M i j

theorem addRow_eq (m l k i : ℕ) (t1 : ℤ) (M : ℕ → ℕ → ℤ) :
    addRow m l k i t1 M =
      (fun a b => if a = i then addedRow m l k i t1 M b else M a b,
        .store 0 :: (List.range' (k + 1) (m - (k + 1))).map fun j =>
          .store (M l j * t1 + M i j)) := by
  have hturns := addTurn_independent l i t1
    (List.nodup_range' (s := k + 1) (n := m - (k + 1)))
  have hcols : ∀ j ∈ List.range' (k + 1) (m - (k + 1)), k < j ∧ j < m := by
    intro j hj
    have := List.mem_range'_1.mp hj
    omega
  have hcleared : ∀ j ∈ List.range' (k + 1) (m - (k + 1)), ∀ a,
      setEntry M i k 0 a j = M a j := by
    intro j hj a
    have hjk : j ≠ k := by have := hcols j hj; omega
    exact congrFun (setEntry_of_col_ne M hjk i 0) a
  refine Prod.ext ?_ ?_
  · funext a b
    by_cases hb : b ∈ List.range' (k + 1) (m - (k + 1))
    · refine (congrFun (hturns.part_of_mem hb _) a).trans ?_
      have hbk : b ≠ k := by have := hcols b hb; omega
      simp only [addTurn, hcleared b hb]
      simp only [setEntry, addedRow, and_true, hcols b hb, hbk, and_false, if_true, if_false]
    · refine (congrFun (hturns.part_of_not_mem hb _) a).trans ?_
      have : ¬ (k < b ∧ b < m) := fun h => hb (List.mem_range'_1.mpr (by omega))
      simp only [setEntry, addedRow, this, if_false]
      by_cases ha : a = i
      · subst ha
        simp only [true_and, if_true]
      · simp only [ha, false_and, if_false]
  · simp only [addRow]
    rw [hturns.records, ← flatMap_store]
    congr 1
    apply List.flatMap_congr
    intro j hj
    simp only [addTurn, hcleared j hj]

theorem addedRow_congr {m l k i : ℕ} {t1 : ℤ} {M M' : ℕ → ℕ → ℤ} (hl : M l = M' l)
    (hi : M i = M' i) : addedRow m l k i t1 M = addedRow m l k i t1 M' := by
  funext j
  unfold addedRow
  rw [hl, hi]

theorem gaussTurn_writes (p m l k i : ℕ) (piv : ℤ) (M : ℕ → ℕ → ℤ) :
    (gaussTurn p m l k piv M i).1 = fun a b =>
      if a = i ∧ M i k ≠ 0 then addedRow m l k i (MulMod (M i k) piv p) M b else M a b := by
  unfold gaussTurn
  split
  · rename_i hz
    simp only [addRow_eq, hz, ne_eq, not_false_eq_true, and_true]
  · rename_i hz
    simp only [hz, and_false, if_false]

/-- Each turn writes its own row and reads the pivot row, which is above. -/
theorem gaussTurn_independent (p m k : ℕ) (piv : ℤ) {l : ℕ} {xs : List ℕ} (hxs : xs.Nodup)
    (hl : l ∉ xs) : Independent (gaussTurn p m l k piv) xs (fun M i => M i) fun M => M l where
  nodup := hxs
  keeps x hx M := by
    have hlx : l ≠ x := fun h => hl (h ▸ hx)
    simp only [gaussTurn_writes, hlx, false_and, if_false]
  other x _ y hy M := by
    simp only [gaussTurn_writes, hy, false_and, if_false]
  reads x _ M M' hM hx := by
    refine ⟨?_, ?_⟩
    · simp only [gaussTurn_writes, hx, addedRow_congr hM hx]
    · unfold gaussTurn
      simp only [addRow_eq, hM, hx]
      split <;> rfl

theorem mem_rows_below {n l i : ℕ} : i ∈ List.range' (l + 1) (n - (l + 1)) ↔ l < i ∧ i < n := by
  rw [List.mem_range'_1]
  omega

theorem run_gaussTurn (p n m l k : ℕ) (piv : ℤ) (M : ℕ → ℕ → ℤ) :
    run (gaussTurn p m l k piv) M (List.range' (l + 1) (n - (l + 1))) =
      (gaussEliminate p n m l k piv M, (List.range' (l + 1) (n - (l + 1))).flatMap fun i =>
        (gaussTurn p m l k piv M i).2) := by
  have hturns := gaussTurn_independent p m k piv (l := l)
    (List.nodup_range' (s := l + 1) (n := n - (l + 1))) (by simp)
  refine Prod.ext ?_ (hturns.records M)
  funext a
  by_cases ha : a ∈ List.range' (l + 1) (n - (l + 1))
  · refine (hturns.part_of_mem ha M).trans ?_
    funext b
    simp only [gaussTurn_writes, gaussEliminate, addedRow, mem_rows_below.mp ha, true_and]
  · refine (hturns.part_of_not_mem ha M).trans ?_
    funext b
    simp only [gaussEliminate, ← and_assoc, mt mem_rows_below.mpr ha, false_and, if_false]

theorem pluTurn_writes {p : ℕ} (m l k i : ℕ) (piv : ℤ)
    (s : (ℕ → ℕ → ℤ) × (ℕ → ℕ → ZMod p)) :
    (pluTurn p m l k piv s i).1 =
      (fun a b => if a = i then addedRow m l k i (MulMod (s.1 i k) piv p) s.1 b else s.1 a b,
        setEntry s.2 i l (NegateMod (MulMod (s.1 i k) piv p) p : ZMod p)) := by
  simp only [pluTurn, addRow_eq]

/-- As for `gauss`, with the row of `L` as a part of the turn too. -/
theorem pluTurn_independent (p m k : ℕ) (piv : ℤ) {l : ℕ} {xs : List ℕ} (hxs : xs.Nodup)
    (hl : l ∉ xs) :
    Independent (pluTurn p m l k piv) xs (fun s i => (s.1 i, s.2 i)) fun s => s.1 l where
  nodup := hxs
  keeps x hx s := by
    have hlx : l ≠ x := fun h => hl (h ▸ hx)
    simp only [pluTurn_writes, hlx, if_false]
  other x _ y hy s := by
    simp only [pluTurn_writes, hy, if_false, setEntry_of_row_ne _ hy]
  reads x _ s s' hM hx := by
    obtain ⟨hx, hL⟩ := Prod.mk.inj hx
    refine ⟨?_, ?_⟩
    · simp only [pluTurn_writes, hx, addedRow_congr hM hx]
      congr 1
      funext b
      simp only [setEntry, hL]
    · unfold pluTurn
      simp only [addRow_eq, hM, hx]

theorem run_pluTurn (p n m l k : ℕ) (piv : ℤ) (M : ℕ → ℕ → ℤ) (L : ℕ → ℕ → ZMod p) :
    run (pluTurn p m l k piv) (M, L) (List.range' (l + 1) (n - (l + 1))) =
      ((pluEliminate p n m l k piv M, recordFactors n l k piv M L),
        (List.range' (l + 1) (n - (l + 1))).flatMap fun i =>
          (pluTurn p m l k piv (M, L) i).2) := by
  have hturns := pluTurn_independent p m k piv (l := l)
    (List.nodup_range' (s := l + 1) (n := n - (l + 1))) (by simp)
  have hrow : ∀ a, ((run (pluTurn p m l k piv) (M, L) (List.range' (l + 1) (n - (l + 1)))).1.1 a,
      (run (pluTurn p m l k piv) (M, L) (List.range' (l + 1) (n - (l + 1)))).1.2 a) =
        (pluEliminate p n m l k piv M a, recordFactors n l k piv M L a) := by
    intro a
    by_cases ha : a ∈ List.range' (l + 1) (n - (l + 1))
    · refine (hturns.part_of_mem ha (M, L)).trans ?_
      refine Prod.ext ?_ ?_
      · funext b
        simp only [pluTurn_writes, pluEliminate, addedRow, mem_rows_below.mp ha, and_self, if_true]
      · funext b
        simp only [pluTurn_writes, setEntry, recordFactors, mem_rows_below.mp ha, true_and]
    · refine (hturns.part_of_not_mem ha (M, L)).trans ?_
      have hout := mt mem_rows_below.mpr ha
      refine Prod.ext ?_ ?_
      · funext b
        simp only [pluEliminate, hout, if_false]
      · funext b
        simp only [recordFactors, ← and_assoc, hout, false_and, if_false]
  refine Prod.ext (Prod.ext ?_ ?_) (hturns.records (M, L))
  · funext a
    exact (Prod.mk.inj (hrow a)).1
  · funext a
    exact (Prod.mk.inj (hrow a)).2

/-! ## The bounds -/

/-- In `[0, p)`. -/
def Reduced (p : ℕ) (a : ℤ) : Prop := 0 ≤ a ∧ a < p

/-- What is stored fits in the rows that are allocated for `n * p * p`, the operands of the
modular functions are reduced, and the one that is inverted is not zero. -/
def Event.InBounds (p n : ℕ) : Event → Prop
  | .store value => 0 ≤ value ∧ value ≤ n * p * p
  | .MulMod a b => Reduced p a ∧ Reduced p b
  | .NegateMod a => Reduced p a
  | .InvMod a => Reduced p a ∧ a ≠ 0

/-- The most that an entry has grown to after `l` pivots. -/
def grown (p l : ℕ) : ℤ := (p - 1) + l * ((p - 1) * (p - 1))

/-- The entries are not negative and at most `B`. -/
def Bounded (n m : ℕ) (B : ℤ) (M : ℕ → ℕ → ℤ) : Prop :=
  ∀ i < n, ∀ j < m, 0 ≤ M i j ∧ M i j ≤ B

/-- What holds of the work matrix and the number of pivots between two turns. -/
def Within (p n m l : ℕ) (M : ℕ → ℕ → ℤ) : Prop := l ≤ n ∧ Bounded n m (grown p l) M

theorem grown_le {p n l : ℕ} (hp : 0 < p) (hn : 0 < n) (hl : l ≤ n) :
    grown p l ≤ (n : ℤ) * p * p := by
  unfold grown
  have hq : (0 : ℤ) ≤ p - 1 := by omega
  have hln : (l : ℤ) * ((p - 1) * (p - 1)) ≤ n * ((p - 1) * (p - 1)) :=
    mul_le_mul_of_nonneg_right (by exact_mod_cast hl) (mul_nonneg hq hq)
  have hsquare : (n : ℤ) * p * p = n * ((p - 1) * (p - 1)) + n * (2 * (p - 1)) + n := by ring
  have hlin : (p : ℤ) - 1 ≤ n * (2 * (p - 1)) := by
    have : (1 : ℤ) ≤ n := by exact_mod_cast hn
    nlinarith
  rw [hsquare]
  linarith [Int.natCast_nonneg n]

theorem grown_succ (p l : ℕ) : grown p (l + 1) = grown p l + (p - 1) * (p - 1) := by
  unfold grown
  push_cast
  ring

theorem reduced_emod {p : ℕ} (hp : 0 < p) (a : ℤ) : Reduced p (a % p) :=
  ⟨Int.emod_nonneg _ (by omega), Int.emod_lt_of_pos _ (by omega)⟩

theorem Reduced.le_grown {p : ℕ} {a : ℤ} (h : Reduced p a) (l : ℕ) : a ≤ grown p l := by
  obtain ⟨h0, hlt⟩ := h
  have hq : (0 : ℤ) ≤ p - 1 := by omega
  have := mul_nonneg (Int.natCast_nonneg l) (mul_nonneg hq hq)
  unfold grown
  omega

/-- One more product of reduced numbers. -/
theorem add_product_le {p l : ℕ} {x y t : ℤ} (hx : 0 ≤ x ∧ x ≤ grown p l) (hy : Reduced p y)
    (ht : Reduced p t) : 0 ≤ y * t + x ∧ y * t + x ≤ grown p (l + 1) := by
  have hprod : y * t ≤ (p - 1) * (p - 1) :=
    mul_le_mul (by have := hy.2; omega) (by have := ht.2; omega) ht.1
      (by have := hy.1; have := hy.2; omega)
  rw [grown_succ]
  exact ⟨add_nonneg (mul_nonneg hy.1 ht.1) hx.1, by linarith [hx.2]⟩

theorem emod_le_self {p : ℕ} {a : ℤ} (h : 0 ≤ a) : a % p ≤ a := by
  have := Int.mul_nonneg (Int.natCast_nonneg p) (Int.ediv_nonneg h (Int.natCast_nonneg p))
  have := Int.emod_add_mul_ediv a p
  omega

theorem Bounded.emod {n m p : ℕ} (hp : 0 < p) {B : ℤ} {M N : ℕ → ℕ → ℤ} (h : Bounded n m B M)
    (hN : ∀ i j, N i j = M i j ∨ N i j = M i j % p) : Bounded n m B N := by
  intro i hi j hj
  obtain ⟨h0, hB⟩ := h i hi j hj
  rcases hN i j with he | he
  · rw [he]
    exact ⟨h0, hB⟩
  · rw [he]
    exact ⟨(reduced_emod hp _).1, (emod_le_self h0).trans hB⟩

theorem Bounded.reduceColumn {n m p l k : ℕ} (hp : 0 < p) {B : ℤ} {M : ℕ → ℕ → ℤ}
    (h : Bounded n m B M) : Bounded n m B (reduceColumn p n l k M) := by
  refine h.emod hp ?_
  intro i j
  unfold linalg.reduceColumn
  split
  · exact Or.inr rfl
  · exact Or.inl rfl

theorem Bounded.reducePivotRow {n m p l k : ℕ} (hp : 0 < p) {B : ℤ} {M : ℕ → ℕ → ℤ}
    (h : Bounded n m B M) : Bounded n m B (reducePivotRow p m l k M) := by
  refine h.emod hp ?_
  intro i j
  unfold linalg.reducePivotRow
  split
  · exact Or.inr rfl
  · exact Or.inl rfl

theorem Bounded.swapRows {n m a b : ℕ} {B : ℤ} {M : ℕ → ℕ → ℤ} (h : Bounded n m B M)
    (ha : a < n) (hb : b < n) : Bounded n m B (swapRows a b M) :=
  fun _ hi j hj => h _ (swap_lt ha hb hi) j hj

theorem InvMod_reduced {p : ℕ} {a x : ℤ} (h : InvMod a p = some x) : Reduced p x := by
  unfold InvMod at h
  split at h
  · obtain ⟨y, hy, rfl⟩ := Option.map_eq_some_iff.mp h
    have := List.mem_range.mp (List.mem_of_find?_eq_some hy)
    exact ⟨Int.natCast_nonneg y, Int.ofNat_lt.mpr this⟩
  · cases h

/-- The work matrix when the elimination for the pivot of column `k` starts: the column and the
pivot row are reduced. -/
structure AtPivot (p n m l k : ℕ) (W : ℕ → ℕ → ℤ) : Prop where
  bounded : Bounded n m (grown p l) W
  column : ∀ i, l ≤ i → i < n → Reduced p (W i k)
  row : ∀ j, k < j → j < m → Reduced p (W l j)

/-- The pivot that is found is reduced and not zero, and the two reductions leave the matrix
ready for the elimination. -/
theorem atPivot {p n m l k pos : ℕ} (hp : 0 < p) {M : ℕ → ℕ → ℤ}
    (h : Bounded n m (grown p l) M) (hl : l < n)
    (hf : findPivot n l k (reduceColumn p n l k M) = some pos) :
    let W := swapRows pos l (reduceColumn p n l k M)
    (Reduced p (W l k) ∧ W l k ≠ 0) ∧ AtPivot p n m l k (reducePivotRow p m l k W) := by
  intro W
  obtain ⟨hlp, hpn, hne⟩ := findPivot_some hf
  have hcol : ∀ i, l ≤ i → i < n → Reduced p (W i k) := by
    intro i hli hin
    have hli' := le_swap hlp (Nat.le_refl l) hli
    have hin' := swap_lt hpn hl hin
    simp only [W, row_echelon.swapRows, reduceColumn, hli', hin', and_self, if_true]
    exact reduced_emod hp _
  refine ⟨⟨hcol l (Nat.le_refl l) hl, by simpa [W, row_echelon.swapRows] using hne⟩, ?_, ?_, ?_⟩
  · exact ((h.reduceColumn hp).swapRows hpn hl).reducePivotRow hp
  · intro i hli hin
    unfold reducePivotRow
    rw [if_neg (by omega)]
    exact hcol i hli hin
  · intro j hkj hjm
    unfold reducePivotRow
    rw [if_pos ⟨rfl, hkj, hjm⟩]
    exact reduced_emod hp _

theorem AtPivot.bounded_pluEliminate {p n m l k : ℕ} (hp : 0 < p) {W : ℕ → ℕ → ℤ}
    (h : AtPivot p n m l k W) (piv : ℤ) :
    Bounded n m (grown p (l + 1)) (pluEliminate p n m l k piv W) := by
  have hgrown : grown p l ≤ grown p (l + 1) := by
    rw [grown_succ]
    exact le_add_of_nonneg_right (mul_nonneg (by omega) (by omega))
  intro i hi j hj
  obtain ⟨h0, hB⟩ := h.bounded i hi j hj
  unfold pluEliminate
  split
  · split
    · exact ⟨le_refl 0, h0.trans (hB.trans hgrown)⟩
    · split
      · rename_i hkj
        exact add_product_le ⟨h0, hB⟩ (h.row j hkj.1 hkj.2) (reduced_emod hp _)
      · exact ⟨h0, hB.trans hgrown⟩
  · exact ⟨h0, hB.trans hgrown⟩

/-! ## What is recorded is in bounds -/

theorem Reduced.store {p n : ℕ} {a : ℤ} (h : Reduced p a) (hn : 0 < n) :
    (Event.store a).InBounds p n :=
  ⟨h.1, (h.le_grown 0).trans (grown_le (by have := h.1; have := h.2; omega) hn (Nat.zero_le n))⟩

theorem stores_inBounds {p n : ℕ} (hp : 0 < p) (hn : 0 < n) (xs : List ℕ) (f : ℕ → ℤ) :
    ∀ e ∈ xs.map fun x => Event.store (f x % p), e.InBounds p n := by
  intro e he
  obtain ⟨x, -, rfl⟩ := List.mem_map.mp he
  exact (reduced_emod hp _).store hn

theorem AtPivot.addRow_inBounds {p n m l k i : ℕ} (hp : 0 < p) {W : ℕ → ℕ → ℤ}
    (h : AtPivot p n m l k W) (hi : i < n) (hl : l < n) {t1 : ℤ} (ht : Reduced p t1) :
    ∀ e ∈ (addRow m l k i t1 W).2, e.InBounds p n := by
  have hn : 0 < n := Nat.zero_lt_of_lt hl
  intro e he
  rw [addRow_eq] at he
  rcases List.mem_cons.mp he with rfl | he
  · exact Reduced.store ⟨le_refl 0, by exact_mod_cast hp⟩ hn
  · obtain ⟨j, hj, rfl⟩ := List.mem_map.mp he
    have := List.mem_range'_1.mp hj
    have hjm : j < m := by omega
    obtain ⟨h0, hB⟩ := add_product_le (h.bounded i hi j hjm) (h.row j (by omega) hjm) ht
    exact ⟨h0, hB.trans (grown_le hp hn hl)⟩

theorem AtPivot.gaussTurn_inBounds {p n m l k i : ℕ} (hp : 0 < p) {W : ℕ → ℕ → ℤ}
    (h : AtPivot p n m l k W) (hli : l < i) (hi : i < n) {piv : ℤ} (hpiv : Reduced p piv) :
    ∀ e ∈ (gaussTurn p m l k piv W i).2, e.InBounds p n := by
  intro e he
  unfold gaussTurn at he
  split at he
  · rcases List.mem_cons.mp he with rfl | he
    · exact ⟨h.column i hli.le hi, hpiv⟩
    · exact h.addRow_inBounds hp hi (hli.trans hi) (reduced_emod hp _) e he
  · cases he

theorem AtPivot.pluTurn_inBounds {p n m l k i : ℕ} (hp : 0 < p) {W : ℕ → ℕ → ℤ}
    (h : AtPivot p n m l k W) (hli : l < i) (hi : i < n) {piv : ℤ} (hpiv : Reduced p piv)
    (L : ℕ → ℕ → ZMod p) : ∀ e ∈ (pluTurn p m l k piv (W, L) i).2, e.InBounds p n := by
  intro e he
  unfold pluTurn at he
  simp only [List.cons_append, List.mem_cons, List.mem_append, List.not_mem_nil, or_false] at he
  rcases he with rfl | he | rfl
  · exact ⟨h.column i hli.le hi, hpiv⟩
  · exact h.addRow_inBounds hp hi (hli.trans hi) (reduced_emod hp _) e he
  · exact reduced_emod hp _

/-- What both functions record for a pivot: the reduced column, the operands for its inverse, the
reduced row, and what the turns of the elimination record. -/
theorem pivot_inBounds {p n m l k : ℕ} {M W : ℕ → ℕ → ℤ} {inverse : ℤ} {rows : List Event}
    (hp : 0 < p) (hn : 0 < n) (hW : Reduced p (W l k) ∧ W l k ≠ 0)
    (hinv : InvMod (W l k) p = some inverse) (hrows : ∀ e ∈ rows, e.InBounds p n) :
    ∀ e ∈ (List.range' l (n - l)).map (fun i => Event.store (M i k % p)) ++
        .InvMod (W l k) :: .NegateMod inverse ::
          (List.range' (k + 1) (m - (k + 1))).map (fun j => .store (W l j % p)) ++ rows,
      e.InBounds p n := by
  intro e he
  simp only [List.mem_append, List.mem_cons] at he
  rcases he with (he | rfl | rfl | he) | he
  · exact stores_inBounds hp hn _ _ e he
  · exact hW
  · exact InvMod_reduced hinv
  · exact stores_inBounds hp hn _ _ e he
  · exact hrows e he

/-- A turn of `gauss` does with its loops what it does in bulk, and keeps the bounds. -/
theorem gaussStepRecorded_spec {p n m k : ℕ} (hp : 0 < p) {st st' : GaussState}
    (hwithin : Within p n m st.l st.M) (hst : gaussStep p n m k st = some st') :
    ∃ events, gaussStepRecorded p n m k st = some (st', events) ∧
      (∀ e ∈ events, e.InBounds p n) ∧ Within p n m st'.l st'.M := by
  obtain ⟨hl, h⟩ := hwithin
  unfold gaussStep at hst
  unfold gaussStepRecorded
  by_cases hln : st.l < n
  · have hn : 0 < n := Nat.zero_lt_of_lt hln
    simp only [hln, if_true] at hst ⊢
    simp only [run_reduceTurn]
    rcases hf : findPivot n st.l k (reduceColumn p n st.l k st.M) with _ | pos
    · rw [hf] at hst
      obtain rfl := Option.some.inj hst
      exact ⟨_, rfl, stores_inBounds hp hn _ _, hl, h.reduceColumn hp⟩
    · rw [hf] at hst
      obtain ⟨hpivot, hat⟩ := atPivot hp h hln hf
      obtain ⟨inverse, hinv, rfl⟩ := Option.map_eq_some_iff.mp hst
      simp only [hinv, Option.map_some, run_reducePivotTurn, run_gaussTurn]
      refine ⟨_, rfl, ?_, hln, ?_⟩
      · apply pivot_inBounds hp hn hpivot hinv
        intro e he
        obtain ⟨i, hi, he⟩ := List.mem_flatMap.mp he
        obtain ⟨hli, hin⟩ := mem_rows_below.mp hi
        exact hat.gaussTurn_inBounds hp hli hin (reduced_emod hp _) e he
      · simp only [gaussEliminate_eq]
        exact hat.bounded_pluEliminate hp _
  · simp only [hln, if_false] at hst ⊢
    obtain rfl := Option.some.inj hst
    exact ⟨[], rfl, by simp, hl, h⟩

/-- As `gaussStepRecorded_spec`, for a turn of `PLU`. -/
theorem pluStepRecorded_spec {p n m k : ℕ} (hp : 0 < p) {st st' : PluState p}
    (hwithin : Within p n m st.l st.M) (hst : pluStep p n m k st = some st') :
    ∃ events, pluStepRecorded p n m k st = some (st', events) ∧
      (∀ e ∈ events, e.InBounds p n) ∧ Within p n m st'.l st'.M := by
  obtain ⟨hl, h⟩ := hwithin
  unfold pluStep at hst
  unfold pluStepRecorded
  by_cases hln : st.l < n
  · have hn : 0 < n := Nat.zero_lt_of_lt hln
    simp only [hln, if_true] at hst ⊢
    simp only [run_reduceTurn]
    rcases hf : findPivot n st.l k (reduceColumn p n st.l k st.M) with _ | pos
    · rw [hf] at hst
      obtain rfl := Option.some.inj hst
      exact ⟨_, rfl, stores_inBounds hp hn _ _, hl, h.reduceColumn hp⟩
    · rw [hf] at hst
      simp only [ite_swapRows] at hst ⊢
      obtain ⟨hpivot, hat⟩ := atPivot hp h hln hf
      obtain ⟨inverse, hinv, rfl⟩ := Option.map_eq_some_iff.mp hst
      simp only [hinv, Option.map_some, run_reducePivotTurn, run_pluTurn]
      refine ⟨_, rfl, ?_, hln, hat.bounded_pluEliminate hp _⟩
      apply pivot_inBounds hp hn hpivot hinv
      intro e he
      obtain ⟨i, hi, he⟩ := List.mem_flatMap.mp he
      obtain ⟨hli, hin⟩ := mem_rows_below.mp hi
      exact hat.pluTurn_inBounds hp hli hin (reduced_emod hp _) _ e he
  · simp only [hln, if_false] at hst ⊢
    obtain rfl := Option.some.inj hst
    exact ⟨[], rfl, by simp, hl, h⟩

theorem initialStores_inBounds {p n m : ℕ} {M : ℕ → ℕ → ℤ}
    (h : ∀ i < n, ∀ j < m, Reduced p (M i j)) :
    (∀ e ∈ initialStores n m M, e.InBounds p n) ∧ Within p n m 0 M := by
  refine ⟨?_, Nat.zero_le n, fun i hi j hj => ⟨(h i hi j hj).1, (h i hi j hj).le_grown 0⟩⟩
  intro e he
  obtain ⟨i, hi, he⟩ := List.mem_flatMap.mp he
  obtain ⟨j, hj, rfl⟩ := List.mem_map.mp he
  have hin := List.mem_range.mp hi
  exact (h i hin j (List.mem_range.mp hj)).store (Nat.zero_lt_of_lt hin)

variable {p : ℕ}

theorem rep_reduced (hp : 0 < p) (x : ZMod p) : Reduced p (rep x) := by
  have : NeZero p := ⟨hp.ne'⟩
  exact ⟨Int.natCast_nonneg _, Int.ofNat_lt.mpr (ZMod.val_lt x)⟩

theorem gaussRecorded_spec [Fact p.Prime] (A : Mat (ZMod p)) :
    ∃ r events, gauss A = some r ∧ gaussRecorded A = some (r, events) ∧
      ∀ e ∈ events, e.InBounds p A.NumRows := by
  have hp : 0 < p := (Fact.out : p.Prime).pos
  obtain ⟨hstores, hwithin⟩ := initialStores_inBounds (n := A.NumRows) (m := A.NumCols)
    fun i _ j _ => rep_reduced hp (A.entry i j)
  obtain ⟨st, hst, -⟩ := gaussLoop_inv (p := p) A.NumRows A.NumCols
    (fun i j => rep (A.entry i j)) A.NumCols (Nat.le_refl _)
  obtain ⟨events, hloop, hevents, -⟩ := loop_of_plain (gaussStep p A.NumRows A.NumCols) _
    (fun st => Within p A.NumRows A.NumCols st.l st.M) rfl (fun _ => rfl) hwithin
    (fun _ _ _ => gaussStepRecorded_spec hp) A.NumCols hst
  refine ⟨(⟨A.NumRows, A.NumCols, fun i j => (st.M i j : ZMod p)⟩, st.pivot_cols),
    initialStores A.NumRows A.NumCols (fun i j => rep (A.entry i j)) ++ events, ?_, ?_, ?_⟩
  · rw [gauss, hst, Option.map_some]
  · rw [gaussRecorded, hloop, Option.map_some]
  · intro e he
    exact (List.mem_append.mp he).elim (hstores e) (hevents e)

theorem pluRecorded_spec [Fact p.Prime] (A : Mat (ZMod p)) :
    ∃ f events, PLU A = some f ∧ pluRecorded A = some (f, events) ∧
      ∀ e ∈ events, e.InBounds p A.NumRows := by
  have hp : 0 < p := (Fact.out : p.Prime).pos
  obtain ⟨hstores, hwithin⟩ := initialStores_inBounds (n := A.NumRows) (m := A.NumCols)
    fun i _ j _ => rep_reduced hp (A.entry i j)
  obtain ⟨st, hst, -⟩ := pluLoop_inv (p := p) A.NumRows A.NumCols
    (fun i j => rep (A.entry i j)) A.NumCols (Nat.le_refl _)
  obtain ⟨events, hloop, hevents, -⟩ := loop_of_plain (pluStep p A.NumRows A.NumCols) _
    (fun st => Within p A.NumRows A.NumCols st.l st.M) rfl (fun _ => rfl) hwithin
    (fun _ _ _ => pluStepRecorded_spec hp) A.NumCols hst
  refine ⟨⟨⟨A.NumRows, A.NumRows, st.P⟩, ⟨A.NumRows, A.NumRows, st.L⟩,
    ⟨A.NumRows, A.NumCols, fun i j => (st.M i j : ZMod p)⟩⟩,
    initialStores A.NumRows A.NumCols (fun i j => rep (A.entry i j)) ++ events, ?_, ?_, ?_⟩
  · rw [PLU, hst, Option.map_some]
  · rw [pluRecorded, hloop, Option.map_some]
  · intro e he
    exact (List.mem_append.mp he).elim (hstores e) (hevents e)

/-- With the loops of the source `gauss` and `PLU` give what they give in bulk. Whatever they
store in their work matrices, reduced or not, is at least zero and at most `n * p * p`, every
operand of a modular function is in `[0, p)`, and what is inverted is not zero. -/
theorem what_is_stored_fits_in_the_allocated_size {p : ℕ} (hp : p.Prime) (A : Mat (ZMod p)) :
    (∃ r events, gauss A = some r ∧ gaussRecorded A = some (r, events) ∧
      ∀ e ∈ events, e.InBounds p A.NumRows) ∧
    ∃ f events, PLU A = some f ∧ pluRecorded A = some (f, events) ∧
      ∀ e ∈ events, e.InBounds p A.NumRows := by
  have : Fact p.Prime := ⟨hp⟩
  exact ⟨gaussRecorded_spec A, pluRecorded_spec A⟩

/-- Three rows that need a swap and two pivots. -/
def twoPivots : Mat (ZMod 5) := ⟨3, 3, fun i j => if i = 0 then 0 else ((i + j : ℕ) : ZMod 5)⟩

theorem what_is_stored_for_two_pivots_fits :
    (∃ r events, gauss twoPivots = some r ∧ gaussRecorded twoPivots = some (r, events) ∧
      ∀ e ∈ events, e.InBounds 5 3) ∧
    ∃ f events, PLU twoPivots = some f ∧ pluRecorded twoPivots = some (f, events) ∧
      ∀ e ∈ events, e.InBounds 5 3 :=
  what_is_stored_fits_in_the_allocated_size (by decide) twoPivots

end general_hotstuff.linalg
