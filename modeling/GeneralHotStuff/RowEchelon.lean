-- Row echelon form over a field, for matrices given as functions on row and
-- column numbers: its rank, the one pivot step that reaches it, and the
-- systems that it solves. Nothing here knows what the matrices are for.
import Mathlib.LinearAlgebra.Matrix.Rank
import Mathlib.LinearAlgebra.Matrix.NonsingularInverse
import Mathlib.LinearAlgebra.Matrix.Permutation

namespace row_echelon

/-! ## Windows -/

/-- The first `n` rows and `m` columns of `A`. -/
def window {α : Type*} (n m : ℕ) (A : ℕ → ℕ → α) : Matrix (Fin n) (Fin m) α := fun i j => A i j

@[simp] theorem window_apply {α : Type*} (n m : ℕ) (A : ℕ → ℕ → α) (i : Fin n) (j : Fin m) :
    window n m A i j = A i j := rfl

theorem window_congr {α : Type*} {n m : ℕ} {A B : ℕ → ℕ → α}
    (h : ∀ i < n, ∀ j < m, A i j = B i j) : window n m A = window n m B := by
  ext i j
  exact h i i.isLt j j.isLt

/-- `A` with its rows `a` and `b` exchanged. -/
def swapRows {α : Type*} (a b : ℕ) (A : ℕ → ℕ → α) : ℕ → ℕ → α :=
  fun i j => A (Equiv.swap a b i) j

variable {K : Type*} [Field K]

/-- `B` comes from `A` by row operations that can be undone. -/
def RowEquiv (n m : ℕ) (A B : ℕ → ℕ → K) : Prop :=
  ∃ E : Matrix (Fin n) (Fin n) K, IsUnit E.det ∧ window n m B = E * window n m A

theorem RowEquiv.refl (n m : ℕ) (A : ℕ → ℕ → K) : RowEquiv n m A A :=
  ⟨1, by simp, by simp⟩

theorem RowEquiv.trans {n m : ℕ} {A B C : ℕ → ℕ → K} (h1 : RowEquiv n m A B)
    (h2 : RowEquiv n m B C) : RowEquiv n m A C := by
  obtain ⟨E, hE, hB⟩ := h1
  obtain ⟨F, hF, hC⟩ := h2
  refine ⟨F * E, ?_, ?_⟩
  · rw [Matrix.det_mul]
    exact hF.mul hE
  · rw [hC, hB, Matrix.mul_assoc]

theorem RowEquiv.rank_eq {n m : ℕ} {A B : ℕ → ℕ → K} (h : RowEquiv n m A B) :
    (window n m B).rank = (window n m A).rank := by
  obtain ⟨E, hE, hB⟩ := h
  rw [hB, Matrix.rank_mul_eq_right_of_isUnit_det E _ hE]

/-- Row operations keep the kernel. -/
theorem RowEquiv.mulVec_eq_zero {n m : ℕ} {A B : ℕ → ℕ → K} (h : RowEquiv n m A B)
    (x : Fin m → K) : (window n m B).mulVec x = 0 ↔ (window n m A).mulVec x = 0 := by
  obtain ⟨E, hE, hB⟩ := h
  rw [hB, ← Matrix.mulVec_mulVec]
  constructor
  · intro h0
    have := congrArg (E⁻¹).mulVec h0
    rwa [Matrix.mulVec_mulVec, Matrix.nonsing_inv_mul E hE, Matrix.one_mulVec,
      Matrix.mulVec_zero] at this
  · intro h0
    rw [h0, Matrix.mulVec_zero]

/-! ## Echelon form -/

/-- The first `k` columns of the `n` rows of `A` are in row echelon form. Row `t`
has its first nonzero entry in column `piv[t]`, and the rows past the pivots
are zero. -/
structure Echelon (A : ℕ → ℕ → K) (n k : ℕ) (piv : List ℕ) : Prop where
  len : piv.length ≤ n
  lt : ∀ c ∈ piv, c < k
  incr : piv.Pairwise (· < ·)
  pivot : ∀ t (h : t < piv.length), A t piv[t] ≠ 0
  left : ∀ t (h : t < piv.length) j, j < piv[t] → A t j = 0
  below : ∀ i j, piv.length ≤ i → i < n → j < k → A i j = 0

theorem Echelon.nil (A : ℕ → ℕ → K) (n : ℕ) : Echelon A n 0 [] where
  len := Nat.zero_le n
  lt := by simp
  incr := List.Pairwise.nil
  pivot := by simp
  left := by simp
  below := by simp

theorem Echelon.getElem_lt {A : ℕ → ℕ → K} {n k : ℕ} {piv : List ℕ} (h : Echelon A n k piv)
    {s t : ℕ} (hst : s < t) (ht : t < piv.length) : piv[s] < piv[t] :=
  List.pairwise_iff_getElem.mp h.incr s t (hst.trans ht) ht hst

theorem Echelon.congr {A B : ℕ → ℕ → K} {n k : ℕ} {piv : List ℕ} (h : Echelon A n k piv)
    (hAB : ∀ i < n, ∀ j < k, A i j = B i j) : Echelon B n k piv where
  len := h.len
  lt := h.lt
  incr := h.incr
  pivot t ht := by
    rw [← hAB t (ht.trans_le h.len) _ (h.lt _ (List.getElem_mem ht))]
    exact h.pivot t ht
  left t ht j hj := by
    rw [← hAB t (ht.trans_le h.len) j (hj.trans (h.lt _ (List.getElem_mem ht)))]
    exact h.left t ht j hj
  below i j hi hin hj := by
    rw [← hAB i hin j hj]
    exact h.below i j hi hin hj

/-- A column with no pivot below the rows done so far keeps the form. -/
theorem Echelon.skip {A : ℕ → ℕ → K} {n k : ℕ} {piv : List ℕ} (h : Echelon A n k piv)
    (hz : ∀ i, piv.length ≤ i → i < n → A i k = 0) : Echelon A n (k + 1) piv where
  len := h.len
  lt c hc := Nat.lt_succ_of_lt (h.lt c hc)
  incr := h.incr
  pivot := h.pivot
  left := h.left
  below i j hi hin hj := by
    rcases Nat.lt_succ_iff_lt_or_eq.mp hj with hj | rfl
    · exact h.below i j hi hin hj
    · exact hz i hi hin

/-- The rows with a pivot are linearly independent: the first nonzero coefficient
shows at its own pivot column. -/
theorem Echelon.coeff_eq_zero {A : ℕ → ℕ → K} {n m : ℕ} {piv : List ℕ} (h : Echelon A n m piv)
    (c : ℕ → K) (hc : ∀ j < m, ∑ t ∈ Finset.range piv.length, c t * A t j = 0) :
    ∀ t < piv.length, c t = 0 := by
  intro t
  induction t using Nat.strong_induction_on with
  | _ t ih =>
    intro ht
    have hsum := hc piv[t] (h.lt _ (List.getElem_mem ht))
    rw [Finset.sum_eq_single t] at hsum
    · exact (mul_eq_zero.mp hsum).resolve_right (h.pivot t ht)
    · intro s hs hst
      rcases Nat.lt_or_gt_of_ne hst with hlt | hgt
      · rw [ih s hlt (hlt.trans ht), zero_mul]
      · have hs' := Finset.mem_range.mp hs
        rw [h.left s hs' _ (h.getElem_lt hgt hs'), mul_zero]
    · intro hnot
      exact absurd (Finset.mem_range.mpr ht) hnot

/-- The rank of a matrix in echelon form is its number of pivots. -/
theorem Echelon.rank_eq {A : ℕ → ℕ → K} {n m : ℕ} {piv : List ℕ} (h : Echelon A n m piv) :
    (window n m A).rank = piv.length := by
  let rows : Fin piv.length → Fin m → K := fun t j => A t j
  have hind : LinearIndependent K rows := by
    rw [Fintype.linearIndependent_iff]
    intro g hg t
    let c : ℕ → K := fun s => if hs : s < piv.length then g ⟨s, hs⟩ else 0
    have hc : ∀ j < m, ∑ s ∈ Finset.range piv.length, c s * A s j = 0 := by
      intro j hj
      have := congrFun hg ⟨j, hj⟩
      rw [Finset.sum_range]
      simpa [c, rows] using this
    have := h.coeff_eq_zero c hc t t.isLt
    simpa [c] using this
  have hspan : Submodule.span K (Set.range (window n m A).row) =
      Submodule.span K (Set.range rows) := by
    apply le_antisymm
    · rw [Submodule.span_le]
      rintro _ ⟨i, rfl⟩
      by_cases hi : i.val < piv.length
      · exact Submodule.subset_span ⟨⟨i, hi⟩, rfl⟩
      · have hz : (window n m A).row i = 0 := by
          ext j
          exact h.below i j (by omega) i.isLt j.isLt
        rw [hz]
        exact Submodule.zero_mem _
    · rw [Submodule.span_le]
      rintro _ ⟨t, rfl⟩
      exact Submodule.subset_span ⟨⟨t, t.isLt.trans_le h.len⟩, rfl⟩
  rw [Matrix.rank_eq_finrank_span_row, hspan, finrank_span_eq_card hind, Fintype.card_fin]

/-! ## One pivot step -/

theorem swap_lt {n a b i : ℕ} (ha : a < n) (hb : b < n) (hi : i < n) :
    Equiv.swap a b i < n := by
  rw [Equiv.swap_apply_def]
  split_ifs <;> assumption

theorem le_swap {l a b i : ℕ} (ha : l ≤ a) (hb : l ≤ b) (hi : l ≤ i) :
    l ≤ Equiv.swap a b i := by
  rw [Equiv.swap_apply_def]
  split_ifs <;> assumption

theorem swap_of_lt {l a b i : ℕ} (ha : l ≤ a) (hb : l ≤ b) (hi : i < l) :
    Equiv.swap a b i = i :=
  Equiv.swap_apply_of_ne_of_ne (by omega) (by omega)

/-- The exchange of two rows below `n`, as a permutation of the rows. -/
def swapPerm {n a b : ℕ} (ha : a < n) (hb : b < n) : Equiv.Perm (Fin n) :=
  Equiv.swap ⟨a, ha⟩ ⟨b, hb⟩

theorem swapPerm_val {n a b : ℕ} (ha : a < n) (hb : b < n) (i : Fin n) :
    (swapPerm ha hb i).val = Equiv.swap a b i.val := by
  unfold swapPerm
  rw [Equiv.swap_apply_def, Equiv.swap_apply_def]
  simp only [Fin.ext_iff]
  split_ifs <;> rfl

theorem window_swapRows {n m a b : ℕ} (ha : a < n) (hb : b < n) (A : ℕ → ℕ → K) :
    window n m (swapRows a b A) = (swapPerm ha hb).permMatrix K * window n m A := by
  ext i j
  rw [Equiv.Perm.permMatrix, PEquiv.toMatrix_toPEquiv_mul, Matrix.submatrix_apply]
  simp only [window_apply, swapRows, swapPerm_val, id_eq]

theorem rowEquiv_swapRows {n m a b : ℕ} (ha : a < n) (hb : b < n) (A : ℕ → ℕ → K) :
    RowEquiv n m A (swapRows a b A) := by
  refine ⟨(swapPerm ha hb).permMatrix K, ?_, window_swapRows ha hb A⟩
  rw [Matrix.det_permutation]
  exact ((Equiv.Perm.sign (swapPerm ha hb)).isUnit.map (Int.castRingHom K))

/-- `A` with multiples of row `l` taken off the rows after it, so that their
entries in column `k` vanish. -/
def clearBelow (n l k : ℕ) (A : ℕ → ℕ → K) : ℕ → ℕ → K := fun i j =>
  if l < i ∧ i < n then A i j - A i k / A l k * A l j else A i j

/-- The matrix with the entries of `c` in column `l` below row `l`, and zeros. -/
def lowerColumn (n l : ℕ) (c : ℕ → K) : Matrix (Fin n) (Fin n) K :=
  fun i j => if l < i.val ∧ j.val = l then c i else 0

theorem lowerColumn_mul {n m l : ℕ} (hl : l < n) (c : ℕ → K) (B : Matrix (Fin n) (Fin m) K)
    (i : Fin n) (j : Fin m) :
    (lowerColumn n l c * B) i j = if l < i.val then c i * B ⟨l, hl⟩ j else 0 := by
  rw [Matrix.mul_apply, Finset.sum_eq_single ⟨l, hl⟩]
  · simp [lowerColumn]
  · intro s _ hs
    have : s.val ≠ l := fun h => hs (Fin.ext h)
    simp [lowerColumn, this]
  · simp

theorem lowerColumn_mul_self {n l : ℕ} (hl : l < n) (c d : ℕ → K) :
    lowerColumn n l c * lowerColumn n l d = 0 := by
  ext i j
  rw [lowerColumn_mul hl]
  simp [lowerColumn]

theorem window_clearBelow {n m l k : ℕ} (hl : l < n) (A : ℕ → ℕ → K) :
    window n m (clearBelow n l k A) =
      (1 - lowerColumn n l (fun i => A i k / A l k)) * window n m A := by
  ext i j
  rw [Matrix.sub_mul, Matrix.one_mul, Matrix.sub_apply, lowerColumn_mul hl]
  simp only [window_apply, clearBelow, i.isLt, and_true]
  split_ifs <;> simp

theorem one_sub_mul_one_add {n l : ℕ} (hl : l < n) (c : ℕ → K) :
    (1 - lowerColumn n l c) * (1 + lowerColumn n l c) = 1 := by
  rw [Matrix.sub_mul, Matrix.mul_add, Matrix.one_mul, Matrix.mul_add,
    lowerColumn_mul_self hl, Matrix.mul_one]
  simp

theorem rowEquiv_clearBelow {n m l k : ℕ} (hl : l < n) (A : ℕ → ℕ → K) :
    RowEquiv n m A (clearBelow n l k A) :=
  ⟨_, Matrix.isUnit_det_of_right_inverse (one_sub_mul_one_add hl _), window_clearBelow hl A⟩

theorem Echelon.swap {A : ℕ → ℕ → K} {n k a b : ℕ} {piv : List ℕ} (h : Echelon A n k piv)
    (ha : piv.length ≤ a) (hb : piv.length ≤ b) (han : a < n) (hbn : b < n) :
    Echelon (swapRows a b A) n k piv where
  len := h.len
  lt := h.lt
  incr := h.incr
  pivot t ht := by
    rw [swapRows, swap_of_lt ha hb ht]
    exact h.pivot t ht
  left t ht j hj := by
    rw [swapRows, swap_of_lt ha hb ht]
    exact h.left t ht j hj
  below i j hi hin hj := h.below _ j (le_swap ha hb hi) (swap_lt han hbn hin) hj

/-- Clearing below a nonzero entry of the next row adds its column to the pivots. -/
theorem Echelon.clear {A : ℕ → ℕ → K} {n k : ℕ} {piv : List ℕ} (h : Echelon A n k piv)
    (hl : piv.length < n) (hp : A piv.length k ≠ 0) :
    Echelon (clearBelow n piv.length k A) n (k + 1) (piv ++ [k]) := by
  have hup : ∀ t ≤ piv.length, ∀ j, clearBelow n piv.length k A t j = A t j := by
    intro t ht j
    rw [clearBelow, if_neg (by omega)]
  refine ⟨by simpa using hl, ?_, ?_, ?_, ?_, ?_⟩
  · intro c hc
    rcases List.mem_append.mp hc with hc | hc
    · exact Nat.lt_succ_of_lt (h.lt c hc)
    · rw [List.mem_singleton.mp hc]
      exact Nat.lt_succ_self k
  · rw [List.pairwise_append]
    refine ⟨h.incr, List.pairwise_singleton _ _, ?_⟩
    intro c hc d hd
    rw [List.mem_singleton.mp hd]
    exact h.lt c hc
  · intro t ht
    rw [List.length_append, List.length_singleton] at ht
    rw [hup t (by omega), List.getElem_append]
    split
    · exact h.pivot t ‹_›
    · rw [List.getElem_singleton, show t = piv.length by omega]
      exact hp
  · intro t ht j hj
    rw [List.length_append, List.length_singleton] at ht
    rw [List.getElem_append] at hj
    rw [hup t (by omega)]
    split at hj
    · exact h.left t ‹_› j hj
    · rw [List.getElem_singleton] at hj
      exact h.below t j (by omega) (by omega) hj
  · intro i j hi hin hj
    rw [List.length_append, List.length_singleton] at hi
    rw [clearBelow, if_pos ⟨by omega, hin⟩]
    rcases Nat.lt_succ_iff_lt_or_eq.mp hj with hj | rfl
    · rw [h.below i j (by omega) hin hj, h.below piv.length j (Nat.le_refl _) hl hj]
      simp
    · rw [div_mul_cancel₀ _ hp, sub_self]

/-! ## Systems of equations -/

/-- `A` with the column `b` after its first `m` columns. -/
def augment (m : ℕ) (A : ℕ → ℕ → K) (b : ℕ → K) : ℕ → ℕ → K :=
  fun i j => if j < m then A i j else b i

/-- The first `n` rows of the augmented matrix `A`, with `m` unknowns, hold of `x`. -/
def Solves (n m : ℕ) (A : ℕ → ℕ → K) (x : ℕ → K) : Prop :=
  ∀ i < n, ∑ j ∈ Finset.range m, A i j * x j = A i m

theorem solves_augment {n m : ℕ} {A : ℕ → ℕ → K} {b x : ℕ → K} :
    Solves n m (augment m A b) x ↔ ∀ i < n, ∑ j ∈ Finset.range m, A i j * x j = b i := by
  unfold Solves
  simp only [augment, lt_self_iff_false, if_false]
  refine forall₂_congr fun i _ => ?_
  rw [Finset.sum_congr rfl]
  intro j hj
  rw [if_pos (Finset.mem_range.mp hj)]

/-- The solutions of a system are its kernel vectors with last entry `-1`. -/
theorem solves_iff_mulVec {n m : ℕ} {A : ℕ → ℕ → K} {x : ℕ → K} :
    Solves n m A x ↔
      (window n (m + 1) A).mulVec (fun j => if j.val < m then x j else -1) = 0 := by
  have hrow : ∀ i : Fin n,
      (window n (m + 1) A).mulVec (fun j => if j.val < m then x j else -1) i =
        ∑ j ∈ Finset.range m, A i j * x j - A i m := by
    intro i
    rw [Matrix.mulVec, dotProduct, Fin.sum_univ_castSucc, Finset.sum_range]
    simp [sub_eq_add_neg]
  constructor
  · intro h
    ext i
    rw [hrow i, h i i.isLt, sub_self]
    rfl
  · intro h i hi
    have := congrFun h ⟨i, hi⟩
    rw [hrow ⟨i, hi⟩] at this
    exact sub_eq_zero.mp this

theorem RowEquiv.solves_iff {n m : ℕ} {A B : ℕ → ℕ → K} (h : RowEquiv n (m + 1) A B)
    (x : ℕ → K) : Solves n m B x ↔ Solves n m A x := by
  rw [solves_iff_mulVec, solves_iff_mulVec, h.mulVec_eq_zero]

/-- A system with a solution has no pivot in its last column. -/
theorem Echelon.lt_of_solves {B : ℕ → ℕ → K} {n m : ℕ} {piv : List ℕ} {x : ℕ → K}
    (h : Echelon B n (m + 1) piv) (hx : Solves n m B x) : ∀ c ∈ piv, c < m := by
  intro c hc
  obtain ⟨t, ht, rfl⟩ := List.getElem_of_mem hc
  refine lt_of_le_of_ne (Nat.lt_succ_iff.mp (h.lt _ hc)) fun hm => ?_
  have hrow := hx t (ht.trans_le h.len)
  rw [Finset.sum_eq_zero] at hrow
  · exact h.pivot t ht (by rw [hm]; exact hrow.symm)
  · intro j hj
    rw [h.left t ht j (by rw [hm]; exact Finset.mem_range.mp hj), zero_mul]

/-- A system has a solution exactly when its last column adds nothing to the rank. -/
theorem rank_augment_eq_iff (n m : ℕ) (A : ℕ → ℕ → K) (b : ℕ → K) :
    (window n m A).rank = (window n (m + 1) (augment m A b)).rank ↔
      ∃ x, Solves n m (augment m A b) x := by
  have hcol : ∀ j : Fin m, (window n (m + 1) (augment m A b)).col j.castSucc =
      (window n m A).col j := by
    intro j
    ext i
    simp [augment, Matrix.col]
  have hlast : (window n (m + 1) (augment m A b)).col (Fin.last m) =
      fun i : Fin n => b i := by
    ext i
    simp [augment, Matrix.col]
  have hle : Submodule.span K (Set.range (window n m A).col) ≤
      Submodule.span K (Set.range (window n (m + 1) (augment m A b)).col) := by
    apply Submodule.span_mono
    rintro _ ⟨j, rfl⟩
    exact ⟨j.castSucc, hcol j⟩
  have hmem : (fun i : Fin n => b i) ∈ Submodule.span K (Set.range (window n m A).col) ↔
      ∃ x, Solves n m (augment m A b) x := by
    rw [← Matrix.range_mulVecLin]
    constructor
    · rintro ⟨v, hv⟩
      refine ⟨fun j => if hj : j < m then v ⟨j, hj⟩ else 0, solves_augment.mpr ?_⟩
      intro i hi
      rw [Finset.sum_range, ← congrFun hv ⟨i, hi⟩]
      simp [Matrix.mulVec, dotProduct]
    · rintro ⟨x, hx⟩
      refine ⟨fun j => x j, ?_⟩
      ext i
      rw [← solves_augment.mp hx i i.isLt, Finset.sum_range]
      simp [Matrix.mulVec, dotProduct]
  rw [Matrix.rank_eq_finrank_span_cols, Matrix.rank_eq_finrank_span_cols, ← hmem]
  constructor
  · intro heq
    rw [Submodule.eq_of_le_of_finrank_eq hle heq, ← hlast]
    exact Submodule.subset_span ⟨Fin.last m, rfl⟩
  · intro hb
    have hge : Submodule.span K (Set.range (window n (m + 1) (augment m A b)).col) ≤
        Submodule.span K (Set.range (window n m A).col) := ?_
    · rw [le_antisymm hle hge]
    rw [Submodule.span_le]
    rintro _ ⟨j, rfl⟩
    refine Fin.lastCases ?_ (fun j => ?_) j
    · rw [hlast]
      exact hb
    · rw [hcol j]
      exact Submodule.subset_span ⟨j, rfl⟩

end row_echelon
