-- The laws of the two substitutions: on what `PLU` and `gauss` hand to them they
-- never fail, and what they give solves the system.
import GeneralHotStuff.GaussLaws
import Mathlib.LinearAlgebra.Matrix.Block

namespace general_hotstuff.linalg

open row_echelon

variable {p : ℕ}

/-! ## Forward substitution -/

/-- The first `i` turns settle the first `i` rows. -/
theorem forwardLoop_spec [Fact p.Prime] {n : ℕ} {L : Mat (ZMod p)} (b : Vec (ZMod p))
    (hL : UnitLower n n L.entry) (i : ℕ) (hi : i ≤ n) :
    ∃ x, forwardLoop L b i = some x ∧
      ∀ r < i, ∑ j ∈ Finset.range (r + 1), L.entry r j * x j = b.entry r := by
  induction i with
  | zero => exact ⟨_, rfl, fun r hr => absurd hr (Nat.not_lt_zero r)⟩
  | succ i ih =>
    obtain ⟨x, hx, hrows⟩ := ih (by omega)
    have hone : L.entry i i = 1 := hL.diag i (by omega)
    refine ⟨Function.update x i ((b.entry i -
      ∑ j ∈ Finset.range i, L.entry i j * x j) * (L.entry i i)⁻¹), ?_, ?_⟩
    · rw [forwardLoop, hx, Option.bind_some, inv_spec (by rw [hone]; exact one_ne_zero)]
      rfl
    · intro r hr
      have hsame : ∀ j ∈ Finset.range i, Function.update x i ((b.entry i -
          ∑ j ∈ Finset.range i, L.entry i j * x j) * (L.entry i i)⁻¹) j = x j := by
        intro j hj
        exact Function.update_of_ne (Nat.ne_of_lt (Finset.mem_range.mp hj)) _ _
      rcases Nat.lt_succ_iff_lt_or_eq.mp hr with hr | rfl
      · rw [← hrows r hr]
        apply Finset.sum_congr rfl
        intro j hj
        rw [hsame j (Finset.mem_range.mpr (by have := Finset.mem_range.mp hj; omega))]
      · rw [Finset.sum_range_succ, Finset.sum_congr rfl fun j hj => by rw [hsame j hj],
          Function.update_self, hone]
        simp

/-- Forward substitution solves every unit lower triangular system. -/
theorem forward_spec [Fact p.Prime] {n : ℕ} {L : Mat (ZMod p)} (b : Vec (ZMod p))
    (hn : L.NumCols = n) (hL : UnitLower n n L.entry) :
    ∃ x, solveByForwardSubstitution L b = some x ∧ x.length = n ∧
      (window n n L.entry).mulVec (fun j => x.entry j) = fun i : Fin n => b.entry i := by
  obtain ⟨x, hx, hrows⟩ := forwardLoop_spec b hL n (Nat.le_refl n)
  refine ⟨⟨n, x⟩, ?_, rfl, ?_⟩
  · rw [solveByForwardSubstitution, hn, hx]
    rfl
  · funext i
    rw [← hrows i i.isLt, Matrix.mulVec, dotProduct]
    simp only [window_apply]
    rw [← Finset.sum_range fun j => L.entry i j * x j]
    symm
    apply Finset.sum_subset
    · exact Finset.range_subset_range.mpr i.isLt
    · intro j hj hij
      have hjn := Finset.mem_range.mp hj
      rw [hL.upper i i.isLt j hjn (by simp at hij; omega), zero_mul]

/-- A unit lower triangular matrix can be undone. -/
theorem UnitLower.isUnit_det [Fact p.Prime] {n : ℕ} {L : ℕ → ℕ → ZMod p}
    (hL : UnitLower n n L) : IsUnit (window n n L).det := by
  rw [Matrix.det_of_isLowerTriangular (window n n L) fun i j hij => hL.upper i i.isLt j j.isLt hij]
  simp [hL.diag]

/-! ## Systems through the factors -/

theorem Mat.mulVec_eq_window [Fact p.Prime] {n m : ℕ} {A : Mat (ZMod p)} (hm : A.NumCols = m)
    (x : Vec (ZMod p)) (i : Fin n) :
    (A.mulVec x).entry i = (window n m A.entry).mulVec (fun j => x.entry j) i := by
  unfold Mat.mulVec
  simp only [hm, Matrix.mulVec, dotProduct, Finset.sum_range, window_apply]

theorem Mat.mulVec_eq_iff [Fact p.Prime] {n m : ℕ} {A : Mat (ZMod p)} (hm : A.NumCols = m)
    (x b : Vec (ZMod p)) :
    (∀ i < n, (A.mulVec x).entry i = b.entry i) ↔
      (window n m A.entry).mulVec (fun j => x.entry j) = fun i : Fin n => b.entry i := by
  constructor
  · intro h
    funext i
    rw [← Mat.mulVec_eq_window hm, h i i.isLt]
  · intro h i hi
    rw [← congrFun h ⟨i, hi⟩, ← Mat.mulVec_eq_window hm x ⟨i, hi⟩]

/-- A matrix that can be undone takes different vectors to different ones. -/
theorem mulVec_inj [Fact p.Prime] {n : ℕ} {E : Matrix (Fin n) (Fin n) (ZMod p)}
    (hE : IsUnit E.det) {u v : Fin n → ZMod p} : E.mulVec u = E.mulVec v ↔ u = v := by
  constructor
  · intro h
    have := congrArg (E⁻¹).mulVec h
    rwa [Matrix.mulVec_mulVec, Matrix.mulVec_mulVec, Matrix.nonsing_inv_mul E hE,
      Matrix.one_mulVec, Matrix.one_mulVec] at this
  · intro h
    rw [h]

theorem Factors.isUnit_P [Fact p.Prime] {A : Mat (ZMod p)} {f : PluResult p}
    (h : Factors A f) : IsUnit (window A.NumRows A.NumRows f.P.entry).det := by
  obtain ⟨σ, hσ⟩ := h.perm
  rw [hσ, Matrix.det_permutation]
  exact (Equiv.Perm.sign σ).isUnit.map (Int.castRingHom (ZMod p))

/-- Forward substitution and the factor `U` are one change of basis, of the right-hand side and of
the matrix. -/
theorem Factors.forward [Fact p.Prime] {A : Mat (ZMod p)} {f : PluResult p} (h : Factors A f)
    (b : Vec (ZMod p)) :
    ∃ y, solveByForwardSubstitution f.L (f.P.mulVec b) = some y ∧ y.length = A.NumRows ∧
      ∃ E : Matrix (Fin A.NumRows) (Fin A.NumRows) (ZMod p), IsUnit E.det ∧
        window A.NumRows A.NumCols f.U.entry = E * window A.NumRows A.NumCols A.entry ∧
        (fun i : Fin A.NumRows => y.entry i) = E.mulVec fun i => b.entry i := by
  obtain ⟨y, hy, hlen, hsol⟩ := forward_spec (f.P.mulVec b) h.L_cols h.lower
  have hPb : (window A.NumRows A.NumRows f.L.entry).mulVec (fun i => y.entry i) =
      (window A.NumRows A.NumRows f.P.entry).mulVec fun i => b.entry i := by
    rw [hsol]
    funext i
    exact Mat.mulVec_eq_window h.P_cols b i
  have hL := h.lower.isUnit_det
  refine ⟨y, hy, hlen, (window A.NumRows A.NumRows f.L.entry)⁻¹ *
    window A.NumRows A.NumRows f.P.entry, ?_, ?_, ?_⟩
  · rw [Matrix.det_mul]
    exact (Matrix.isUnit_nonsing_inv_det _ hL).mul h.isUnit_P
  · rw [Matrix.mul_assoc, h.product, ← Matrix.mul_assoc, Matrix.nonsing_inv_mul _ hL,
      Matrix.one_mul]
  · rw [← Matrix.mulVec_mulVec, ← hPb, Matrix.mulVec_mulVec, Matrix.nonsing_inv_mul _ hL,
      Matrix.one_mulVec]

/-- For every matrix `PLU` gives a permutation matrix `P`, a unit lower triangular `L` and a row
echelon `U` with `P * A = L * U`. Forward substitution then takes every right-hand side `b` to
the `y` for which `U * x = y` has the solutions of `A * x = b`. -/
theorem the_factors_keep_the_solutions [Fact p.Prime] (A : Mat (ZMod p)) :
    ∃ f, PLU A = some f ∧ Factors A f ∧ ∀ b : Vec (ZMod p), b.length = A.NumRows →
      ∃ y, solveByForwardSubstitution f.L (f.P.mulVec b) = some y ∧ y.length = A.NumRows ∧
        ∀ x : Vec (ZMod p), x.length = A.NumCols →
          ((∀ i < A.NumRows, (A.mulVec x).entry i = b.entry i) ↔
            ∀ i < A.NumRows, (f.U.mulVec x).entry i = y.entry i) := by
  obtain ⟨f, hf, hfac⟩ := PLU_spec A
  refine ⟨f, hf, hfac, ?_⟩
  intro b _
  obtain ⟨y, hy, hlen, E, hE, hU, hyb⟩ := hfac.forward b
  refine ⟨y, hy, hlen, ?_⟩
  intro x _
  rw [Mat.mulVec_eq_iff rfl, Mat.mulVec_eq_iff hfac.U_cols, hU, hyb, ← Matrix.mulVec_mulVec,
    mulVec_inj hE]

/-- Its first column has no pivot, and the only pivot is in its last row. -/
def lateRow : Mat (ZMod 3) := ⟨2, 3, fun i j => if i = 1 then j else 0⟩

theorem the_factors_of_a_late_row :
    ∃ f, PLU lateRow = some f ∧ Factors lateRow f ∧ ∀ b : Vec (ZMod 3), b.length = 2 →
      ∃ y, solveByForwardSubstitution f.L (f.P.mulVec b) = some y ∧ y.length = 2 ∧
        ∀ x : Vec (ZMod 3), x.length = 3 →
          ((∀ i < 2, (lateRow.mulVec x).entry i = b.entry i) ↔
            ∀ i < 2, (f.U.mulVec x).entry i = y.entry i) :=
  the_factors_keep_the_solutions lateRow

/-! ## Backward substitution -/

/-- Going up from the last pivot, each turn settles one more row and leaves the rows
below it, which have no entry in its pivot column. Nothing but the pivots is set. -/
theorem backward_suffix [Fact p.Prime] {n m : ℕ} {B : Mat (ZMod p)} {piv : List ℕ}
    (hB : Echelon B.entry n (m + 1) piv) (hpiv : ∀ c ∈ piv, c < m) (ps : List ℕ) :
    ∀ t, piv.drop t = ps →
      ∃ x, (ps.zipIdx t).foldrM (fun q x => backwardStep B m x q) (fun _ => 0) = some x ∧
        (∀ j, j ∉ ps → x j = 0) ∧ ∀ s < piv.length, t ≤ s →
          ∑ k ∈ Finset.range m, B.entry s k * x k = B.entry s m := by
  induction ps with
  | nil =>
    intro t ht
    refine ⟨_, rfl, fun _ _ => rfl, ?_⟩
    intro s hs hts
    have := List.drop_eq_nil_iff.mp ht
    omega
  | cons j ps ih =>
    intro t ht
    have htlen : t < piv.length := by
      have := congrArg List.length ht
      simp at this
      omega
    rw [List.drop_eq_getElem_cons htlen, List.cons.injEq] at ht
    obtain ⟨hj, hps⟩ := ht
    obtain ⟨x, hx, hfree, hrows⟩ := ih (t + 1) hps
    have hjm : j < m := by
      rw [← hj]
      exact hpiv _ (List.getElem_mem htlen)
    have hne : B.entry t j ≠ 0 := by
      rw [← hj]
      exact hB.pivot t htlen
    refine ⟨Function.update x j ((B.entry t m -
      ∑ k ∈ Finset.Ico (j + 1) m, B.entry t k * x k) * (B.entry t j)⁻¹), ?_, ?_, ?_⟩
    · rw [List.zipIdx_cons, List.foldrM_cons, hx]
      simp only [Option.bind_eq_bind, Option.bind_some, backwardStep, hjm, if_true,
        inv_spec hne, Option.map_some]
    · intro i hi
      obtain ⟨hij, hi⟩ := not_or.mp (mt List.mem_cons.mpr hi)
      rw [Function.update_of_ne hij]
      exact hfree i hi
    · intro s hs hts
      by_cases hst : s = t
      · subst hst
        generalize hsum : ∑ k ∈ Finset.Ico (j + 1) m, B.entry s k * x k = sum
        have hleft : ∑ k ∈ Finset.range j, B.entry s k *
            Function.update x j ((B.entry s m - sum) * (B.entry s j)⁻¹) k = 0 := by
          apply Finset.sum_eq_zero
          intro k hk
          rw [hB.left s htlen k (by rw [hj]; exact Finset.mem_range.mp hk), zero_mul]
        have hright : ∑ k ∈ Finset.Ico (j + 1) m, B.entry s k *
            Function.update x j ((B.entry s m - sum) * (B.entry s j)⁻¹) k = sum := by
          rw [← hsum]
          apply Finset.sum_congr rfl
          intro k hk
          have hkj := (Finset.mem_Ico.mp hk).1
          rw [Function.update_of_ne (by omega)]
        rw [← Finset.sum_range_add_sum_Ico _ (Nat.succ_le_of_lt hjm), Finset.sum_range_succ,
          hleft, hright, zero_add, Function.update_self, mul_comm, inv_mul_cancel_right₀ hne,
          sub_add_cancel]
      · rw [← hrows s hs (by omega)]
        apply Finset.sum_congr rfl
        intro k hk
        by_cases hkj : k = j
        · have : B.entry s k = 0 := by
            apply hB.left s hs k
            rw [hkj, ← hj]
            exact hB.getElem_lt (by omega) hs
          rw [this, zero_mul, zero_mul]
        · rw [Function.update_of_ne hkj]

/-- Backward substitution solves every system in echelon form whose last column has no pivot,
with zero for the free variables. -/
theorem backward_spec [Fact p.Prime] {n m : ℕ} {B : Mat (ZMod p)} {piv : List ℕ}
    (hm : B.NumCols = m + 1) (hB : Echelon B.entry n (m + 1) piv) (hpiv : ∀ c ∈ piv, c < m) :
    ∃ x, solveByBackwardSubstitution B piv = some x ∧ x.length = m ∧
      Solves n m B.entry x.entry ∧ ∀ j, j ∉ piv → x.entry j = 0 := by
  obtain ⟨x, hx, hfree, hrows⟩ := backward_suffix hB hpiv piv 0 rfl
  refine ⟨⟨m, x⟩, ?_, rfl, ?_, hfree⟩
  · unfold solveByBackwardSubstitution
    have hfold : piv.zipIdx.reverse.foldlM (backwardStep B m) (fun _ => 0) = some x := by
      rw [List.foldlM_reverse]
      exact hx
    rw [hm, if_pos (Nat.succ_pos m)]
    simp only [Nat.add_sub_cancel, hfold, Option.map_some]
  · intro i hi
    by_cases hl : i < piv.length
    · exact hrows i hl (Nat.zero_le i)
    · rw [hB.below i m (by omega) hi (Nat.lt_succ_self m)]
      apply Finset.sum_eq_zero
      intro k hk
      rw [hB.below i k (by omega) hi (Nat.lt_succ_of_lt (Finset.mem_range.mp hk)), zero_mul]

/-- Each turn `(j, i)` of the backward substitution stays inside of the matrix and of the vector,
and inverts an entry that is not zero. -/
theorem backward_turns [Fact p.Prime] {n m : ℕ} {B : Mat (ZMod p)} {piv : List ℕ}
    (hn : B.NumRows = n) (hB : Echelon B.entry n (m + 1) piv) (hpiv : ∀ c ∈ piv, c < m) :
    ∀ q ∈ piv.zipIdx, q.2 < B.NumRows ∧ q.1 < m ∧ B.entry q.2 q.1 ≠ 0 := by
  rintro ⟨j, i⟩ hq
  obtain ⟨hi, hj⟩ := List.mem_zipIdx' hq
  simp only [hj, hn]
  exact ⟨hi.trans_le hB.len, hpiv _ (List.getElem_mem hi), hB.pivot i hi⟩

/-- `gauss` and backward substitution solve every system that has a solution. -/
theorem gauss_backward_spec [Fact p.Prime] {m : ℕ} {A : Mat (ZMod p)} {x : ℕ → ZMod p}
    (hm : A.NumCols = m + 1) (hx : Solves A.NumRows m A.entry x) :
    ∃ B piv y, gauss A = some (B, piv) ∧
      (∀ q ∈ piv.zipIdx, q.2 < B.NumRows ∧ q.1 < m ∧ B.entry q.2 q.1 ≠ 0) ∧
      solveByBackwardSubstitution B piv = some y ∧ y.length = m ∧
      Solves A.NumRows m A.entry y.entry ∧ ∀ j, j ∉ piv → y.entry j = 0 := by
  obtain ⟨B, piv, hg, hrows, hcols, hech, heq⟩ := gauss_spec A
  rw [hm] at hcols hech heq
  have hpiv := hech.lt_of_solves ((heq.solves_iff x).mpr hx)
  obtain ⟨y, hy, hlen, hsol, hfree⟩ := backward_spec hcols hech hpiv
  exact ⟨B, piv, y, hg, backward_turns hrows hech hpiv, hy, hlen, (heq.solves_iff y.entry).mp hsol,
    hfree⟩

/-- `gauss` takes every matrix to a row equivalent one in row echelon form and returns its pivot
columns from left to right, as many as the rank. Where the matrix is an augmented one whose
system has a solution, each turn `(j, i)` of the backward substitution stays inside of the
matrix and of the vector and inverts an entry that is not zero, and the result is a solution
with zero at every column with no pivot. -/
theorem elimination_and_back_substitution_solve [Fact p.Prime] (A : Mat (ZMod p)) :
    ∃ B piv, gauss A = some (B, piv) ∧ B.NumRows = A.NumRows ∧ B.NumCols = A.NumCols ∧
      RowEquiv A.NumRows A.NumCols A.entry B.entry ∧
      Echelon B.entry A.NumRows A.NumCols piv ∧ piv.Pairwise (· < ·) ∧
      piv.length = (window A.NumRows A.NumCols A.entry).rank ∧
      ∀ m, A.NumCols = m + 1 → (∃ x, Solves A.NumRows m A.entry x) →
        (∀ q ∈ piv.zipIdx, q.2 < B.NumRows ∧ q.1 < m ∧ B.entry q.2 q.1 ≠ 0) ∧
        ∃ x, solveByBackwardSubstitution B piv = some x ∧ x.length = m ∧
          Solves A.NumRows m A.entry x.entry ∧ ∀ j, j ∉ piv → x.entry j = 0 := by
  obtain ⟨B, piv, hg, hrows, hcols, hech, heq⟩ := gauss_spec A
  refine ⟨B, piv, hg, hrows, hcols, heq, hech, hech.incr, gauss_rank hg, ?_⟩
  rintro m hm ⟨x, hx⟩
  obtain ⟨B', piv', y, hg', hturns, hy⟩ := gauss_backward_spec hm hx
  rw [hg] at hg'
  cases hg'
  exact ⟨hturns, y, hy⟩

theorem elimination_and_back_substitution_solve_a_late_row :
    ∃ B piv, gauss lateRow = some (B, piv) ∧ RowEquiv 2 3 lateRow.entry B.entry ∧
      Echelon B.entry 2 3 piv ∧ piv.length = (window 2 3 lateRow.entry).rank ∧
      (∀ q ∈ piv.zipIdx, q.2 < B.NumRows ∧ q.1 < 2 ∧ B.entry q.2 q.1 ≠ 0) ∧
      ∃ x, solveByBackwardSubstitution B piv = some x ∧ x.length = 2 ∧
        Solves 2 2 lateRow.entry x.entry ∧ ∀ j, j ∉ piv → x.entry j = 0 := by
  obtain ⟨B, piv, hg, -, -, heq, hech, -, hrank, hsolve⟩ :=
    elimination_and_back_substitution_solve lateRow
  have hsol : Solves 2 2 lateRow.entry fun _ => 2 := by
    unfold Solves
    decide
  exact ⟨B, piv, hg, heq, hech, hrank, hsolve 2 rfl ⟨_, hsol⟩⟩

end general_hotstuff.linalg
