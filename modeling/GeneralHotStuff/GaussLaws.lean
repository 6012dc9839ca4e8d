-- The laws of `gauss` and `PLU`: the late reductions never change a value modulo
-- `p`, so each turn of either loop is one pivot step over the field. Both loops
-- end in row echelon form, and `PLU` keeps `P * M = L * U` on the way.
import GeneralHotStuff.LinalgUtil

namespace general_hotstuff.linalg

open row_echelon

variable {p : ℕ}

/-- The value modulo `p` of an integer work matrix. -/
def residues (p : ℕ) (M : ℕ → ℕ → ℤ) : ℕ → ℕ → ZMod p := fun i j => (M i j : ZMod p)

/-! ## Modular arithmetic -/

theorem cast_rep [NeZero p] (x : ZMod p) : ((rep x : ℤ) : ZMod p) = x := by
  simp [rep]

theorem cast_MulMod (a b : ℤ) : (MulMod a b p : ZMod p) = a * b := by
  unfold MulMod
  rw [ZMod.intCast_mod, Int.cast_mul]

theorem cast_NegateMod (a : ℤ) : (NegateMod a p : ZMod p) = -a := by
  unfold NegateMod
  rw [ZMod.intCast_mod, Int.cast_neg]

theorem cast_eq_zero_of_reduced {a : ℤ} (h0 : 0 ≤ a) (hp : a < p) (h : (a : ZMod p) = 0) :
    a = 0 := by
  rw [ZMod.intCast_zmod_eq_zero_iff_dvd] at h
  exact Int.eq_zero_of_dvd_of_nonneg_of_lt h0 hp h

/-- A nonzero operand in `[0, p)` has an inverse. -/
theorem InvMod_spec [Fact p.Prime] {a : ℤ} (h0 : 0 ≤ a) (hp : a < p) (ha : (a : ZMod p) ≠ 0) :
    ∃ x, InvMod a p = some x ∧ (x : ZMod p) = (a : ZMod p)⁻¹ := by
  have hp2 : 1 < p := (Fact.out : p.Prime).one_lt
  have hmod : ∀ x : ℕ, a * x % p = 1 ↔ (a : ZMod p) * x = 1 := by
    intro x
    have h1 : (1 : ℤ) % p = 1 := Int.emod_eq_of_lt (by omega) (by omega)
    rw [← h1, ← ZMod.intCast_eq_intCast_iff' (a * x) 1 p]
    push_cast
    rfl
  unfold InvMod
  rw [if_pos ⟨h0, hp⟩]
  rcases hf : (List.range p).find? fun x : ℕ => a * x % p = 1 with _ | x
  · exfalso
    rw [List.find?_eq_none] at hf
    have hv : ((a : ZMod p)⁻¹).val < p := ZMod.val_lt _
    apply hf _ (List.mem_range.mpr hv)
    rw [decide_eq_true_eq, hmod, ZMod.natCast_zmod_val]
    exact mul_inv_cancel₀ ha
  · refine ⟨x, rfl, ?_⟩
    have hx := List.find?_some hf
    rw [decide_eq_true_eq, hmod] at hx
    simpa using eq_inv_of_mul_eq_one_right hx

theorem inv_spec [Fact p.Prime] {a : ZMod p} (h : a ≠ 0) : inv a = some a⁻¹ := by
  unfold inv
  rw [if_neg h]

/-! ## The loop bodies, modulo `p` -/

theorem residues_reduceColumn (n l k : ℕ) (M : ℕ → ℕ → ℤ) :
    residues p (reduceColumn p n l k M) = residues p M := by
  funext i j
  unfold residues reduceColumn
  split
  · rw [ZMod.intCast_mod]
  · rfl

theorem residues_reducePivotRow (m l k : ℕ) (M : ℕ → ℕ → ℤ) :
    residues p (reducePivotRow p m l k M) = residues p M := by
  funext i j
  unfold residues reducePivotRow
  split
  · rw [ZMod.intCast_mod]
  · rfl

theorem residues_swapRows (a b : ℕ) (M : ℕ → ℕ → ℤ) :
    residues p (swapRows a b M) = swapRows a b (residues p M) := rfl

theorem findPivot_none {n l k : ℕ} {M : ℕ → ℕ → ℤ} (h : findPivot n l k M = none) :
    ∀ i, l ≤ i → i < n → M i k = 0 := by
  intro i hl hn
  unfold findPivot at h
  rw [List.find?_eq_none] at h
  have := h i (List.mem_range'_1.mpr ⟨hl, by omega⟩)
  simpa using this

theorem findPivot_some {n l k pos : ℕ} {M : ℕ → ℕ → ℤ} (h : findPivot n l k M = some pos) :
    l ≤ pos ∧ pos < n ∧ M pos k ≠ 0 := by
  unfold findPivot at h
  have hmem := List.mem_range'_1.mp (List.mem_of_find?_eq_some h)
  have hne := List.find?_some h
  exact ⟨hmem.1, by omega, by simpa using hne⟩

/-- `gauss` skips the rows that `PLU` adds zero to. -/
theorem gaussEliminate_eq (n m l k : ℕ) (piv : ℤ) (M : ℕ → ℕ → ℤ) :
    gaussEliminate p n m l k piv M = pluEliminate p n m l k piv M := by
  funext i j
  unfold gaussEliminate pluEliminate
  by_cases hi : l < i ∧ i < n
  · by_cases hz : M i k = 0
    · simp only [hi, hz, ne_eq, not_true_eq_false, and_false, if_false, MulMod, zero_mul,
        Int.zero_emod, mul_zero, zero_add, and_self, if_true]
      split
      · subst_vars
        exact hz
      · split <;> rfl
    · simp [hi, hz]
  · simp [hi]
    intro h1 h2
    exact absurd ⟨h1, h2⟩ hi

/-- One elimination is one clearing step over the field. The columns before `k` are already
zero in the rows from `l` on, so it does not matter that the C++ code leaves them alone. -/
theorem residues_pluEliminate [Fact p.Prime] {n m l k : ℕ} {M : ℕ → ℕ → ℤ} {inverse : ℤ}
    (hz : ∀ i j, l ≤ i → i < n → j < k → (M i j : ZMod p) = 0) (hl : l < n)
    (hk : (M l k : ZMod p) ≠ 0) (hinv : (inverse : ZMod p) = (M l k : ZMod p)⁻¹) :
    ∀ i < n, ∀ j < m, residues p (pluEliminate p n m l k (NegateMod inverse p) M) i j =
      clearBelow n l k (residues p M) i j := by
  intro i hi j hj
  simp only [residues, pluEliminate, clearBelow]
  split
  · rename_i hli
    split
    · subst_vars
      rw [Int.cast_zero, div_mul_cancel₀ _ hk, sub_self]
    · split
      · rw [Int.cast_add, Int.cast_mul, cast_MulMod, cast_NegateMod, hinv]
        rw [div_eq_mul_inv]
        ring
      · have hjk : j < k := by omega
        rw [hz i j (by omega) hi hjk, hz l j (Nat.le_refl l) hl hjk, mul_zero, sub_zero]
  · rfl

/-- What the pivot of column `k` gives both loops. The row found has an inverse, and the
elimination is one swap and one clearing step over the field. -/
theorem pivot_turn [Fact p.Prime] {n m k pos : ℕ} {M : ℕ → ℕ → ℤ} {piv : List ℕ}
    (h : Echelon (residues p M) n k piv) (hl : piv.length < n)
    (hf : findPivot n piv.length k (reduceColumn p n piv.length k M) = some pos) :
    let W := swapRows pos piv.length (reduceColumn p n piv.length k M)
    piv.length ≤ pos ∧ pos < n ∧ residues p M pos k ≠ 0 ∧
      ∃ inverse, InvMod (W piv.length k) p = some inverse ∧
        (inverse : ZMod p) = (residues p M pos k)⁻¹ ∧
        ∀ i < n, ∀ j < m, residues p (pluEliminate p n m piv.length k (NegateMod inverse p)
            (reducePivotRow p m piv.length k W)) i j =
          clearBelow n piv.length k (swapRows pos piv.length (residues p M)) i j := by
  intro W
  obtain ⟨hlp, hpn, hne⟩ := findPivot_some hf
  have hp0 : (p : ℤ) ≠ 0 := by exact_mod_cast (Fact.out : p.Prime).ne_zero
  have hWl : W piv.length k = M pos k % p := by
    simp [W, swapRows, reduceColumn, hlp, hpn]
  have hcast : (W piv.length k : ZMod p) = residues p M pos k := by
    rw [hWl, ZMod.intCast_mod]
    rfl
  have h0 : 0 ≤ W piv.length k := by
    rw [hWl]
    exact Int.emod_nonneg _ hp0
  have hlt : W piv.length k < p := by
    rw [hWl]
    exact Int.emod_lt_of_pos _ (by have := (Fact.out : p.Prime).pos; omega)
  have hnz : residues p M pos k ≠ 0 := by
    intro hz
    apply hne
    have := cast_eq_zero_of_reduced h0 hlt (hcast.trans hz)
    simpa [hWl, reduceColumn, hlp, hpn] using this
  obtain ⟨inverse, hinv, hval⟩ := InvMod_spec h0 hlt (by rw [hcast]; exact hnz)
  rw [hcast] at hval
  refine ⟨hlp, hpn, hnz, inverse, hinv, hval, ?_⟩
  have hres : residues p (reducePivotRow p m piv.length k W) =
      swapRows pos piv.length (residues p M) := by
    rw [residues_reducePivotRow, residues_swapRows, residues_reduceColumn]
  have hpivot : swapRows pos piv.length (residues p M) piv.length k = residues p M pos k := by
    simp [swapRows]
  intro i hi j hj
  rw [← hres]
  apply residues_pluEliminate _ hl _ _ i hi j hj
  · intro i j hli hin hjk
    rw [show ((reducePivotRow p m piv.length k W i j : ℤ) : ZMod p) =
      swapRows pos piv.length (residues p M) i j from congrFun (congrFun hres i) j]
    exact (h.swap hlp (Nat.le_refl _) hpn hl).below i j hli hin hjk
  · rw [show ((reducePivotRow p m piv.length k W piv.length k : ℤ) : ZMod p) =
      residues p M pos k from (congrFun (congrFun hres _) k).trans hpivot]
    exact hnz
  · rw [show ((reducePivotRow p m piv.length k W piv.length k : ℤ) : ZMod p) =
      residues p M pos k from (congrFun (congrFun hres _) k).trans hpivot]
    exact hval

/-- A turn with no pivot leaves the form as it is, one column further. -/
theorem echelon_no_pivot [Fact p.Prime] {n k : ℕ} {M : ℕ → ℕ → ℤ} {piv : List ℕ}
    (h : Echelon (residues p M) n k piv)
    (hf : findPivot n piv.length k (reduceColumn p n piv.length k M) = none) :
    Echelon (residues p (reduceColumn p n piv.length k M)) n (k + 1) piv := by
  rw [residues_reduceColumn]
  apply h.skip
  intro i hli hin
  rw [← residues_reduceColumn n piv.length k M]
  unfold residues
  rw [findPivot_none hf i hli hin, Int.cast_zero]

/-! ## gauss -/

/-- What holds of the variables of `gauss` after `k` turns, for the input `A`. -/
structure GaussInv [Fact p.Prime] (n m k : ℕ) (A : ℕ → ℕ → ZMod p) (st : GaussState) : Prop where
  l_eq : st.l = st.pivot_cols.length
  echelon : Echelon (residues p st.M) n k st.pivot_cols
  equiv : RowEquiv n m A (residues p st.M)

theorem gaussStep_inv [Fact p.Prime] {n m k : ℕ} {A : ℕ → ℕ → ZMod p} {st : GaussState}
    (h : GaussInv n m k A st) (hk : k < m) :
    ∃ st', gaussStep p n m k st = some st' ∧ GaussInv n m (k + 1) A st' := by
  obtain ⟨M, l, piv⟩ := st
  obtain ⟨hlen, hech, heq⟩ := h
  simp only at hlen hech heq
  subst hlen
  unfold gaussStep
  by_cases hl : piv.length < n
  · simp only [hl, if_true]
    rcases hf : findPivot n piv.length k (reduceColumn p n piv.length k M) with _ | pos
    · refine ⟨_, rfl, rfl, echelon_no_pivot hech hf, ?_⟩
      simp only [residues_reduceColumn]
      exact heq
    · obtain ⟨hlp, hpn, hne, inverse, hinv, -, hclear⟩ := pivot_turn (m := m) hech hl hf
      simp only [hinv, Option.map_some, gaussEliminate_eq]
      refine ⟨_, rfl, by simp, ?_, ?_⟩
      · have hpiv : swapRows pos piv.length (residues p M) piv.length k ≠ 0 := by
          simpa [swapRows] using hne
        apply ((hech.swap hlp (Nat.le_refl _) hpn hl).clear hl hpiv).congr
        intro i hi j hj
        exact (hclear i hi j (by omega)).symm
      · have h1 := (heq.trans (rowEquiv_swapRows hpn hl (residues p M))).trans
          (rowEquiv_clearBelow (k := k) hl _)
        obtain ⟨E, hE, hw⟩ := h1
        exact ⟨E, hE, (window_congr hclear).trans hw⟩
  · simp only [hl, if_false]
    refine ⟨_, rfl, rfl, ?_, heq⟩
    exact hech.skip fun i hi hin => absurd hin (by omega)

theorem gaussLoop_inv [Fact p.Prime] (n m : ℕ) (M : ℕ → ℕ → ℤ) (k : ℕ) (hk : k ≤ m) :
    ∃ st, gaussLoop p n m M k = some st ∧ GaussInv n m k (residues p M) st := by
  induction k with
  | zero => exact ⟨_, rfl, rfl, Echelon.nil _ n, RowEquiv.refl n m _⟩
  | succ k ih =>
    obtain ⟨st, hst, hinv⟩ := ih (by omega)
    obtain ⟨st', hst', hinv'⟩ := gaussStep_inv hinv (by omega)
    refine ⟨st', ?_, hinv'⟩
    rw [gaussLoop, hst, Option.bind_some, hst']

/-- `gauss` never fails. It gives a row echelon form of its input and the pivot columns. -/
theorem gauss_spec [Fact p.Prime] (A : Mat (ZMod p)) :
    ∃ B piv, gauss A = some (B, piv) ∧ B.NumRows = A.NumRows ∧ B.NumCols = A.NumCols ∧
      Echelon B.entry A.NumRows A.NumCols piv ∧
      RowEquiv A.NumRows A.NumCols A.entry B.entry := by
  obtain ⟨st, hst, -, hech, heq⟩ := gaussLoop_inv (p := p) A.NumRows A.NumCols
    (fun i j => rep (A.entry i j)) A.NumCols (Nat.le_refl _)
  refine ⟨⟨A.NumRows, A.NumCols, residues p st.M⟩, st.pivot_cols, ?_, rfl, rfl, hech, ?_⟩
  · rw [gauss, hst]
    rfl
  have hA : residues p (fun i j => rep (A.entry i j)) = A.entry := by
    funext i j
    exact cast_rep _
  rwa [hA] at heq

/-- The number of pivots is the rank. -/
theorem gauss_rank [Fact p.Prime] {A B : Mat (ZMod p)} {piv : List ℕ}
    (h : gauss A = some (B, piv)) :
    piv.length = (window A.NumRows A.NumCols A.entry).rank := by
  obtain ⟨B', piv', hg, -, -, hech, heq⟩ := gauss_spec A
  rw [h] at hg
  cases hg
  rw [← heq.rank_eq, hech.rank_eq]

/-! ## PLU -/

/-- `L` is unit lower triangular, and its columns from `l` on are those of the identity. -/
structure UnitLower (n l : ℕ) (L : ℕ → ℕ → ZMod p) : Prop where
  diag : ∀ i < n, L i i = 1
  upper : ∀ i < n, ∀ j < n, i < j → L i j = 0
  rest : ∀ i < n, ∀ j < n, l ≤ j → i ≠ j → L i j = 0

/-- What holds of the variables of `PLU` after `k` turns, for the input `A`. -/
structure PluInv [Fact p.Prime] (n m k : ℕ) (A : ℕ → ℕ → ZMod p) (st : PluState p) : Prop where
  echelon : ∃ piv, st.l = piv.length ∧ Echelon (residues p st.M) n k piv
  perm : ∃ σ : Equiv.Perm (Fin n), window n n st.P = σ.permMatrix (ZMod p)
  lower : UnitLower n st.l st.L
  factors : window n n st.P * window n m A = window n n st.L * window n m (residues p st.M)

theorem swapCols_window {n a b : ℕ} (ha : a < n) (hb : b < n) (L : ℕ → ℕ → ZMod p) :
    window n n (swapCols a b L) = window n n L * (swapPerm ha hb).permMatrix (ZMod p) := by
  ext i j
  rw [Equiv.Perm.permMatrix, PEquiv.mul_toMatrix_toPEquiv, Matrix.submatrix_apply]
  simp only [window_apply, swapCols, id_eq]
  rw [← swapPerm_val ha hb, swapPerm, Equiv.symm_swap]

theorem swapPerm_mul_self [Fact p.Prime] {n a b : ℕ} (ha : a < n) (hb : b < n) :
    (swapPerm ha hb).permMatrix (ZMod p) * (swapPerm ha hb).permMatrix (ZMod p) = 1 := by
  rw [← Matrix.permMatrix_mul, swapPerm, Equiv.swap_mul_self, Matrix.permMatrix_one]

/-- A swap of two rows from `l` on, and of the same columns, keeps the shape of `L`. -/
theorem UnitLower.swap {n l a b : ℕ} {L : ℕ → ℕ → ZMod p} (h : UnitLower n l L)
    (ha : l ≤ a) (hb : l ≤ b) (han : a < n) (hbn : b < n) :
    UnitLower n l (swapCols a b (swapRows a b L)) where
  diag i hi := h.diag _ (swap_lt han hbn hi)
  upper i hi j hj hij := by
    simp only [swapCols, swapRows]
    have hne : Equiv.swap a b i ≠ Equiv.swap a b j := fun he =>
      absurd ((Equiv.swap a b).injective he) (by omega)
    by_cases hjl : j < l
    · rw [swap_of_lt ha hb hjl, swap_of_lt ha hb (hij.trans hjl)]
      exact h.upper i hi j hj hij
    · exact h.rest _ (swap_lt han hbn hi) _ (swap_lt han hbn hj) (le_swap ha hb (by omega)) hne
  rest i hi j hj hlj hij := by
    simp only [swapCols, swapRows]
    exact h.rest _ (swap_lt han hbn hi) _ (swap_lt han hbn hj) (le_swap ha hb hlj)
      fun he => hij ((Equiv.swap a b).injective he)

theorem swapRows_self {α : Type} (a : ℕ) (A : ℕ → ℕ → α) : swapRows a a A = A := by
  unfold swapRows
  simp

theorem swapCols_self {α : Type} (a : ℕ) (A : ℕ → ℕ → α) : swapCols a a A = A := by
  unfold swapCols
  simp

/-- The test for `pos != l` only saves a swap that changes nothing. -/
theorem ite_swapRows {α : Type} (a b : ℕ) (A : ℕ → ℕ → α) :
    (if a ≠ b then swapRows a b A else A) = swapRows a b A := by
  split
  · rfl
  · rename_i h
    rw [not_not.mp h, swapRows_self]

theorem ite_swapBoth {α : Type} (a b : ℕ) (A : ℕ → ℕ → α) :
    (if a ≠ b then swapCols a b (swapRows a b A) else A) = swapCols a b (swapRows a b A) := by
  split
  · rfl
  · rename_i h
    rw [not_not.mp h, swapRows_self, swapCols_self]

/-- The factors recorded in column `l` add one column below the diagonal to `L`. -/
theorem window_recordFactors [Fact p.Prime] {n l k : ℕ} {L : ℕ → ℕ → ZMod p}
    {W : ℕ → ℕ → ℤ} {inverse : ℤ} (hL : UnitLower n l L)
    (hinv : (inverse : ZMod p) = (residues p W l k)⁻¹) :
    window n n (recordFactors n l k (NegateMod inverse p) W L) =
      window n n L + lowerColumn n l (fun i => residues p W i k / residues p W l k) := by
  ext i j
  rw [Matrix.add_apply]
  simp only [window_apply, recordFactors, lowerColumn, i.isLt, true_and]
  split
  · rename_i h
    have hij : i.val ≠ j.val := by omega
    rw [hL.rest i i.isLt j j.isLt (by omega) hij, zero_add, cast_NegateMod, cast_MulMod,
      cast_NegateMod, hinv, div_eq_mul_inv]
    simp [residues]
  · rw [add_zero]

/-- The columns of `L` from `l` on are those of the identity, so they leave a column below
row `l` alone. -/
theorem UnitLower.mul_lowerColumn [Fact p.Prime] {n l : ℕ} {L : ℕ → ℕ → ZMod p}
    (h : UnitLower n l L) (c : ℕ → ZMod p) :
    window n n L * lowerColumn n l c = lowerColumn n l c := by
  ext i j
  rw [Matrix.mul_apply, Finset.sum_eq_single i]
  · rw [window_apply, h.diag i i.isLt, one_mul]
  · intro s _ hs
    unfold lowerColumn
    split
    · rename_i hc
      rw [window_apply, h.rest i i.isLt s s.isLt (by omega) fun he => hs (Fin.ext he.symm),
        zero_mul]
    · rw [mul_zero]
  · simp

theorem UnitLower.record {n l k : ℕ} {L : ℕ → ℕ → ZMod p} (h : UnitLower n l L)
    (piv : ℤ) (W : ℕ → ℕ → ℤ) : UnitLower n (l + 1) (recordFactors n l k piv W L) where
  diag i hi := by
    unfold recordFactors
    rw [if_neg (by omega)]
    exact h.diag i hi
  upper i hi j hj hij := by
    unfold recordFactors
    rw [if_neg (by omega)]
    exact h.upper i hi j hj hij
  rest i hi j hj hlj hij := by
    unfold recordFactors
    rw [if_neg (by omega)]
    exact h.rest i hi j hj (by omega) hij

/-- A swap on all three matrices and a clearing step that `L` records keep the product. -/
theorem factors_step [Fact p.Prime] {n m l pos : ℕ} {A R P L : ℕ → ℕ → ZMod p}
    (hpos : pos < n) (hl : l < n) (hL : UnitLower n l (swapCols pos l (swapRows pos l L)))
    (h : window n n P * window n m A = window n n L * window n m R) (c : ℕ → ZMod p) :
    window n n (swapRows pos l P) * window n m A =
      (window n n (swapCols pos l (swapRows pos l L)) + lowerColumn n l c) *
        ((1 - lowerColumn n l c) * window n m (swapRows pos l R)) := by
  have hN : (1 + lowerColumn n l c) * (1 - lowerColumn n l c) = 1 :=
    mul_eq_one_comm.mp (one_sub_mul_one_add hl c)
  have hfactor : window n n (swapCols pos l (swapRows pos l L)) + lowerColumn n l c =
      window n n (swapCols pos l (swapRows pos l L)) * (1 + lowerColumn n l c) := by
    rw [Matrix.mul_add, Matrix.mul_one, hL.mul_lowerColumn]
  rw [hfactor, Matrix.mul_assoc, ← Matrix.mul_assoc (1 + _), hN, Matrix.one_mul,
    swapCols_window hpos hl, window_swapRows hpos hl, window_swapRows hpos hl,
    window_swapRows hpos hl]
  have hS := swapPerm_mul_self (p := p) hpos hl
  generalize (swapPerm hpos hl).permMatrix (ZMod p) = S at hS ⊢
  calc S * window n n P * window n m A
      = S * (window n n L * window n m R) := by rw [Matrix.mul_assoc, h]
    _ = S * window n n L * (S * S) * window n m R := by
      rw [hS, Matrix.mul_one, Matrix.mul_assoc]
    _ = S * window n n L * S * (S * window n m R) := by
      simp only [Matrix.mul_assoc]

theorem pluStep_inv [Fact p.Prime] {n m k : ℕ} {A : ℕ → ℕ → ZMod p} {st : PluState p}
    (h : PluInv n m k A st) (hk : k < m) :
    ∃ st', pluStep p n m k st = some st' ∧ PluInv n m (k + 1) A st' := by
  obtain ⟨M, l, P, L⟩ := st
  obtain ⟨⟨piv, hlen, hech⟩, ⟨σ, hσ⟩, hlow, hfac⟩ := h
  simp only at hlen hech hσ hlow hfac
  subst hlen
  unfold pluStep
  by_cases hl : piv.length < n
  · simp only [hl, if_true]
    rcases hf : findPivot n piv.length k (reduceColumn p n piv.length k M) with _ | pos
    · refine ⟨_, rfl, ⟨piv, rfl, echelon_no_pivot hech hf⟩, ⟨σ, hσ⟩, hlow, ?_⟩
      simp only [residues_reduceColumn]
      exact hfac
    · obtain ⟨hlp, hpn, hne, inverse, hinv, hval, hclear⟩ := pivot_turn (m := m) hech hl hf
      simp only [ite_swapRows, ite_swapBoth, hinv, Option.map_some]
      have hres : residues p (reducePivotRow p m piv.length k (swapRows pos piv.length
          (reduceColumn p n piv.length k M))) = swapRows pos piv.length (residues p M) := by
        rw [residues_reducePivotRow, residues_swapRows, residues_reduceColumn]
      have hpiv : swapRows pos piv.length (residues p M) piv.length k = residues p M pos k := by
        simp [swapRows]
      have hlow' := hlow.swap hlp (Nat.le_refl _) hpn hl
      refine ⟨_, rfl, ⟨piv ++ [k], by simp, ?_⟩, ?_, hlow'.record _ _, ?_⟩
      · have hnz : swapRows pos piv.length (residues p M) piv.length k ≠ 0 := by
          rw [hpiv]
          exact hne
        apply ((hech.swap hlp (Nat.le_refl _) hpn hl).clear hl hnz).congr
        intro i hi j hj
        exact (hclear i hi j (by omega)).symm
      · refine ⟨σ * swapPerm hpn hl, ?_⟩
        simp only
        rw [window_swapRows hpn hl, hσ, Matrix.permMatrix_mul]
      · simp only
        rw [window_recordFactors hlow' (by rw [hres, hpiv]; exact hval), hres]
        rw [window_congr hclear, window_clearBelow hl]
        exact factors_step hpn hl hlow' hfac _
  · simp only [hl, if_false]
    refine ⟨_, rfl, ⟨piv, rfl, ?_⟩, ⟨σ, hσ⟩, hlow, hfac⟩
    exact hech.skip fun i hi hin => absurd hin (by omega)

theorem pluLoop_inv [Fact p.Prime] (n m : ℕ) (M : ℕ → ℕ → ℤ) (k : ℕ) (hk : k ≤ m) :
    ∃ st, pluLoop p n m M k = some st ∧ PluInv n m k (residues p M) st := by
  induction k with
  | zero =>
    have hid : window n n (ident p) = 1 := by
      ext i j
      simp [ident, Matrix.one_apply, Fin.ext_iff]
    refine ⟨_, rfl, ⟨[], rfl, Echelon.nil _ n⟩, ⟨1, ?_⟩, ⟨?_, ?_, ?_⟩, rfl⟩
    · rw [hid, Matrix.permMatrix_one]
    · intro i _
      simp [ident]
    · intro i _ j _ hij
      simp [ident, Nat.ne_of_lt hij]
    · intro i _ j _ _ hij
      simp [ident, hij]
  | succ k ih =>
    obtain ⟨st, hst, hinv⟩ := ih (by omega)
    obtain ⟨st', hst', hinv'⟩ := pluStep_inv hinv (by omega)
    refine ⟨st', ?_, hinv'⟩
    rw [pluLoop, hst, Option.bind_some, hst']

/-- What `PLU` gives for the input `A`: a permutation matrix `P`, a unit lower triangular `L`
and a row echelon `U` with `P * A = L * U`. -/
structure Factors [Fact p.Prime] (A : Mat (ZMod p)) (f : PluResult p) : Prop where
  P_rows : f.P.NumRows = A.NumRows
  P_cols : f.P.NumCols = A.NumRows
  L_rows : f.L.NumRows = A.NumRows
  L_cols : f.L.NumCols = A.NumRows
  U_rows : f.U.NumRows = A.NumRows
  U_cols : f.U.NumCols = A.NumCols
  perm : ∃ σ : Equiv.Perm (Fin A.NumRows),
    window A.NumRows A.NumRows f.P.entry = σ.permMatrix (ZMod p)
  lower : UnitLower A.NumRows A.NumRows f.L.entry
  echelon : ∃ piv, Echelon f.U.entry A.NumRows A.NumCols piv
  product : window A.NumRows A.NumRows f.P.entry * window A.NumRows A.NumCols A.entry =
    window A.NumRows A.NumRows f.L.entry * window A.NumRows A.NumCols f.U.entry

/-- `PLU` never fails, for any shape and rank. -/
theorem PLU_spec [Fact p.Prime] (A : Mat (ZMod p)) : ∃ f, PLU A = some f ∧ Factors A f := by
  obtain ⟨st, hst, ⟨piv, -, hech⟩, hperm, hlow, hfac⟩ := pluLoop_inv (p := p) A.NumRows A.NumCols
    (fun i j => rep (A.entry i j)) A.NumCols (Nat.le_refl _)
  have hA : residues p (fun i j => rep (A.entry i j)) = A.entry := by
    funext i j
    exact cast_rep _
  rw [hA] at hfac
  refine ⟨_, by rw [PLU, hst]; rfl, rfl, rfl, rfl, rfl, rfl, rfl, hperm, ?_, ⟨piv, hech⟩, hfac⟩
  exact ⟨hlow.diag, hlow.upper, fun i hi j hj hj' => absurd hj (by omega)⟩

end general_hotstuff.linalg
