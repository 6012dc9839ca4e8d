-- When do some rows of a matrix span the first unit vector? This is what decides
-- whether shares that come from a linear map determine the first entry of the
-- dealt vector. Nothing here knows where the matrix comes from.
import Mathlib.Algebra.BigOperators.Field
import Mathlib.Data.List.GetD
import Mathlib.LinearAlgebra.Basis.VectorSpace
import Mathlib.LinearAlgebra.Lagrange
import Mathlib.LinearAlgebra.Pi
import Mathlib.SetTheory.Cardinal.Finite

namespace unit_span

variable {K : Type*} [Field K]

/-- The rows of the `n` by `m` matrix `A` that `S` picks span the first unit vector. -/
def SpansE1 (n m : ℕ) (A : ℕ → ℕ → K) (S : ℕ → Prop) : Prop :=
  ∃ c : ℕ → K, (∀ i, ¬ S i → c i = 0) ∧
    ∀ j < m, ∑ i ∈ Finset.range n, c i * A i j = if j = 0 then 1 else 0

theorem SpansE1.congr {n m : ℕ} {A B : ℕ → ℕ → K} {S T : ℕ → Prop} (h : SpansE1 n m A S)
    (hST : ∀ i < n, S i → T i) (hAB : ∀ i < n, ∀ j < m, A i j = B i j) : SpansE1 n m B T := by
  classical
  obtain ⟨c, hc, hsum⟩ := h
  refine ⟨fun i => if T i then c i else 0, fun i hi => if_neg hi, ?_⟩
  intro j hj
  rw [← hsum j hj]
  apply Finset.sum_congr rfl
  intro i hi
  have hin := Finset.mem_range.mp hi
  rw [← hAB i hin j hj]
  by_cases hT : T i
  · simp only [if_pos hT]
  · simp only [if_neg hT, hc i fun hS => hT (hST i hin hS)]

theorem spansE1_congr {n m : ℕ} {A : ℕ → ℕ → K} {S T : ℕ → Prop} (h : ∀ i < n, (S i ↔ T i)) :
    SpansE1 n m A S ↔ SpansE1 n m A T :=
  ⟨fun hS => hS.congr (fun i hi => (h i hi).mp) fun _ _ _ _ => rfl,
    fun hT => hT.congr (fun i hi => (h i hi).mpr) fun _ _ _ _ => rfl⟩

/-! ## The picked rows as a list -/

theorem sum_map_eq_sum_range {α β : Type*} [AddCommMonoid β] (l : List α) (d : α) (f : α → β) :
    (l.map f).sum = ∑ j ∈ Finset.range l.length, f (l.getD j d) := by
  induction l with
  | nil => rfl
  | cons a l ih =>
    rw [List.map_cons, List.sum_cons, List.length_cons, Finset.sum_range_succ', ih, add_comm]
    rfl

/-- A sum over the rows with a coefficient only on the picked ones, along the list of these. -/
theorem sum_rows_eq_sum_list {β : Type*} [AddCommMonoid β] {n : ℕ} (S : ℕ → Bool) (f : ℕ → β)
    (hf : ∀ i, S i = false → f i = 0) :
    ∑ i ∈ Finset.range n, f i =
      ∑ j ∈ Finset.range ((List.range n).filter S).length,
        f (((List.range n).filter S).getD j 0) := by
  rw [← sum_map_eq_sum_range, ← List.sum_toFinset f (List.nodup_range.filter S)]
  symm
  apply Finset.sum_subset
  · intro i hi
    exact Finset.mem_range.mpr (List.mem_range.mp (List.mem_filter.mp (List.mem_toFinset.mp hi)).1)
  · intro i hi hnot
    apply hf
    rw [← Bool.not_eq_true]
    intro hS
    exact hnot (List.mem_toFinset.mpr (List.mem_filter.mpr
      ⟨List.mem_range.mpr (Finset.mem_range.mp hi), hS⟩))

/-- The picked rows span the first unit vector when the matrix with these rows as its columns
has a solution for it. -/
theorem spansE1_iff_columns {n m : ℕ} {A : ℕ → ℕ → K} {S : ℕ → Bool} :
    SpansE1 n m A (fun i => S i = true) ↔
      ∃ x : ℕ → K, ∀ i < m, ∑ j ∈ Finset.range ((List.range n).filter S).length,
        A (((List.range n).filter S).getD j 0) i * x j = if i = 0 then 1 else 0 := by
  generalize hl : (List.range n).filter S = l
  constructor
  · rintro ⟨c, hsup, hc⟩
    refine ⟨fun j => c (l.getD j 0), ?_⟩
    intro i hi
    have hsum := sum_rows_eq_sum_list (n := n) S (fun k => c k * A k i) fun k hk => by
      simp only [hsup k (by simp [hk]), zero_mul]
    rw [← hc i hi, hsum, hl]
    apply Finset.sum_congr rfl
    intro j _
    exact mul_comm _ _
  · rintro ⟨x, hx⟩
    have hnd : l.Nodup := by
      rw [← hl]
      exact List.nodup_range.filter S
    have hmem : ∀ i ∈ l, S i = true := by
      intro i hi
      rw [← hl] at hi
      exact (List.mem_filter.mp hi).2
    refine ⟨fun i => if S i then x (l.idxOf i) else 0, ?_, ?_⟩
    · intro i hi
      exact if_neg hi
    · intro j hj
      have hsum := sum_rows_eq_sum_list (n := n) S
        (fun k => (if S k then x (l.idxOf k) else 0) * A k j) fun k hk => by simp [hk]
      rw [← hx j hj, hsum, hl]
      apply Finset.sum_congr rfl
      intro k hk
      have hkl := Finset.mem_range.mp hk
      rw [List.getD_eq_getElem _ _ hkl]
      simp only [hmem _ (List.getElem_mem hkl), if_true, hnd.idxOf_getElem, mul_comm]

/-! ## Rows of powers -/

/-- A combination of the powers that gives the first unit vector gives `f 0` from the values
of any polynomial `f` of low degree. -/
theorem sum_eval_eq_eval_zero {n k : ℕ} {x c : ℕ → K}
    (hc : ∀ j < k, ∑ i ∈ Finset.range n, c i * x i ^ j = if j = 0 then 1 else 0)
    (f : Polynomial K) (hf : f.natDegree < k) :
    ∑ i ∈ Finset.range n, c i * f.eval (x i) = f.eval 0 := by
  have hexp : ∀ y, f.eval y = ∑ j ∈ Finset.range k, f.coeff j * y ^ j := fun y =>
    Polynomial.eval_eq_sum_range' hf y
  calc ∑ i ∈ Finset.range n, c i * f.eval (x i)
      = ∑ i ∈ Finset.range n, ∑ j ∈ Finset.range k, f.coeff j * (c i * x i ^ j) := by
        apply Finset.sum_congr rfl
        intro i _
        rw [hexp, Finset.mul_sum]
        apply Finset.sum_congr rfl
        intro j _
        ring
    _ = ∑ j ∈ Finset.range k, f.coeff j * ∑ i ∈ Finset.range n, c i * x i ^ j := by
        rw [Finset.sum_comm]
        simp only [Finset.mul_sum]
    _ = ∑ j ∈ Finset.range k, f.coeff j * 0 ^ j := by
        apply Finset.sum_congr rfl
        intro j hj
        rw [hc j (Finset.mem_range.mp hj)]
        by_cases h0 : j = 0
        · simp [h0]
        · simp [h0]
    _ = f.eval 0 := (hexp 0).symm

/-- The different points that `S` picks. -/
noncomputable def points (n : ℕ) (x : ℕ → K) (S : ℕ → Prop) : Finset K := by
  classical
  exact ((Finset.range n).filter S).image x

omit [Field K] in
theorem mem_points {n : ℕ} {x : ℕ → K} {S : ℕ → Prop} {a : K} :
    a ∈ points n x S ↔ ∃ i < n, S i ∧ x i = a := by
  classical
  unfold points
  simp [and_assoc]

/-- Fewer points than powers, none of them zero, do not reach the first unit vector: the
polynomial with these points as its roots does not vanish at zero. -/
theorem not_spansE1_powers {n k : ℕ} {x : ℕ → K} {S : ℕ → Prop}
    (h0 : ∀ i < n, S i → x i ≠ 0) (hk : (points n x S).card < k) :
    ¬ SpansE1 n k (fun i j => x i ^ j) S := by
  rintro ⟨c, hsup, hc⟩
  let f : Polynomial K := ∏ a ∈ points n x S, (Polynomial.X - Polynomial.C a)
  have hdeg : f.natDegree < k := by
    rw [Polynomial.natDegree_prod_of_monic _ _ fun a _ => Polynomial.monic_X_sub_C a]
    simpa using hk
  have hvan : ∑ i ∈ Finset.range n, c i * f.eval (x i) = 0 := by
    apply Finset.sum_eq_zero
    intro i hi
    by_cases hS : S i
    · have hroot : f.eval (x i) = 0 := by
        rw [Polynomial.eval_prod]
        apply Finset.prod_eq_zero (mem_points.mpr ⟨i, Finset.mem_range.mp hi, hS, rfl⟩)
        simp
      rw [hroot, mul_zero]
    · rw [hsup i hS, zero_mul]
  rw [sum_eval_eq_eval_zero hc f hdeg, Polynomial.eval_prod, Finset.prod_eq_zero_iff] at hvan
  obtain ⟨a, ha, hz⟩ := hvan
  obtain ⟨i, hi, hS, rfl⟩ := mem_points.mp ha
  apply h0 i hi hS
  simpa using hz

/-- The point zero alone reaches the first unit vector. -/
theorem spansE1_powers_of_zero {n k i : ℕ} {x : ℕ → K} {S : ℕ → Prop} (hi : i < n) (hS : S i)
    (hx : x i = 0) : SpansE1 n k (fun i j => x i ^ j) S := by
  refine ⟨fun s => if s = i then 1 else 0, ?_, ?_⟩
  · intro s hs
    exact if_neg fun hsi : s = i => hs (hsi ▸ hS)
  · intro j _
    rw [Finset.sum_eq_single i]
    · by_cases h0 : j = 0
      · simp [h0]
      · simp [h0, hx]
    · intro s _ hs
      simp only [if_neg hs, zero_mul]
    · intro hnot
      exact absurd (Finset.mem_range.mpr hi) hnot

/-- Interpolation at zero: the values of the Lagrange basis there combine the powers of the
points to those of zero. -/
theorem sum_basis_pow {ι : Type*} [DecidableEq ι] {T : Finset ι} {x : ι → K}
    (hinj : Set.InjOn x T) {j : ℕ} (hj : j < T.card) :
    ∑ i ∈ T, (Lagrange.basis T x i).eval 0 * x i ^ j = if j = 0 then 1 else 0 := by
  have hinter : (Polynomial.X ^ j : Polynomial K) =
      Lagrange.interpolate T x fun i => (Polynomial.X ^ j : Polynomial K).eval (x i) := by
    apply Lagrange.eq_interpolate hinj
    rw [Polynomial.degree_X_pow]
    exact_mod_cast hj
  have hpow : (if j = 0 then (1 : K) else 0) = (Polynomial.X ^ j : Polynomial K).eval 0 := by
    by_cases h0 : j = 0
    · simp [h0]
    · simp [h0]
  rw [hpow, hinter, Lagrange.interpolate_apply, Polynomial.eval_finsetSum]
  apply Finset.sum_congr rfl
  intro i _
  simp [mul_comm]

/-- As many points as powers reach the first unit vector, by interpolation at zero. -/
theorem spansE1_powers_of_card {n k : ℕ} {x : ℕ → K} {S : ℕ → Prop}
    (hk : k ≤ (points n x S).card) : SpansE1 n k (fun i j => x i ^ j) S := by
  classical
  obtain ⟨T, hT, hinj, himg⟩ := Finset.exists_subset_injOn_image_eq_of_surjOn
    (f := x) {i | i < n ∧ S i} (points n x S) (by
      intro a ha
      obtain ⟨i, hi, hS, hx⟩ := mem_points.mp ha
      exact ⟨i, ⟨hi, hS⟩, hx⟩)
  have hcard : k ≤ T.card := by
    rw [← himg, Finset.card_image_of_injOn hinj] at hk
    exact hk
  have hsub : T ⊆ Finset.range n := fun i hi => Finset.mem_range.mpr (hT hi).1
  refine ⟨fun i => if i ∈ T then (Lagrange.basis T x i).eval 0 else 0, ?_, ?_⟩
  · intro i hi
    exact if_neg fun hiT => hi (hT hiT).2
  · intro j hj
    rw [← sum_basis_pow hinj (hj.trans_le hcard), ← Finset.sum_subset hsub]
    · apply Finset.sum_congr rfl
      intro i hi
      simp only [if_pos hi]
    · intro i _ hi
      simp only [if_neg hi, zero_mul]

/-- The rows of the first `k` powers of the points of `S` span the first unit vector exactly
when one of the points is zero or at least `k` of them differ. -/
theorem spansE1_powers_iff {n k : ℕ} {x : ℕ → K} {S : ℕ → Prop} :
    SpansE1 n k (fun i j => x i ^ j) S ↔
      (∃ i < n, S i ∧ x i = 0) ∨ k ≤ (points n x S).card := by
  constructor
  · intro h
    by_contra hno
    push Not at hno
    exact not_spansE1_powers (fun i hi hS hx => hno.1 i hi hS hx) hno.2 h
  · rintro (⟨i, hi, hS, hx⟩ | hk)
    · exact spansE1_powers_of_zero hi hS hx
    · exact spansE1_powers_of_card hk

/-! ## Insertion of a matrix in a row -/

/-- The matrix `A` with its row `r` replaced by the `l` rows of `B`. Each of them starts with
the `m` entries of row `r` and goes on with the entries of `B` past its first column. -/
def insertRows {α : Type*} [Zero α] (r l m : ℕ) (A B : ℕ → ℕ → α) : ℕ → ℕ → α := fun i j =>
  if i < r then
    if j < m then A i j else 0
  else if i < r + l then
    if j < m then A r j else B (i - r) (j - m + 1)
  else
    if j < m then A (i - l + 1) j else 0

/-- The rows of `A` that the rows `S` stand for once the rows of `B` are taken out again:
row `r` stands when `inner` holds. -/
def collapse (r l : ℕ) (inner : Prop) (S : ℕ → Prop) : ℕ → Prop := fun i =>
  (i < r ∧ S i) ∨ (i = r ∧ inner) ∨ (r < i ∧ S (i + l - 1))

theorem sum_block {n r l : ℕ} (hr : r < n) (f : ℕ → K) :
    ∑ i ∈ Finset.range (n + l - 1), f i = ∑ i ∈ Finset.range r, f i +
      ∑ i ∈ Finset.range l, f (r + i) + ∑ i ∈ Finset.range (n - 1 - r), f (r + l + i) := by
  rw [show n + l - 1 = r + l + (n - 1 - r) by omega, Finset.sum_range_add, Finset.sum_range_add]

theorem sum_row {n r : ℕ} (hr : r < n) (f : ℕ → K) :
    ∑ i ∈ Finset.range n, f i = ∑ i ∈ Finset.range r, f i + f r +
      ∑ i ∈ Finset.range (n - 1 - r), f (r + 1 + i) := by
  have := sum_block (l := 1) hr f
  simpa using this

/-- A column of the first `m`: the inserted rows act as row `r` with the sum of their
coefficients. -/
theorem sum_insertRows_left {n r l m j : ℕ} {A B : ℕ → ℕ → K} (hr : r < n) (hj : j < m)
    (c : ℕ → K) :
    ∑ i ∈ Finset.range (n + l - 1), c i * insertRows r l m A B i j =
      ∑ i ∈ Finset.range r, c i * A i j + (∑ i ∈ Finset.range l, c (r + i)) * A r j +
        ∑ i ∈ Finset.range (n - 1 - r), c (r + l + i) * A (r + 1 + i) j := by
  rw [sum_block hr, Finset.sum_mul]
  congr 1
  · congr 1
    · apply Finset.sum_congr rfl
      intro i hi
      simp only [insertRows, Finset.mem_range.mp hi, hj, if_true]
    · apply Finset.sum_congr rfl
      intro i hi
      have hil := Finset.mem_range.mp hi
      simp only [insertRows, show ¬ r + i < r by omega, show r + i < r + l by omega, hj, if_true,
        if_false]
  · apply Finset.sum_congr rfl
    intro i _
    simp only [insertRows, show ¬ r + l + i < r by omega, show ¬ r + l + i < r + l by omega, hj,
      if_true, if_false, show r + l + i - l + 1 = r + 1 + i by omega]

/-- A column past the first `m`: only the inserted rows have entries there. -/
theorem sum_insertRows_right {n r l m j : ℕ} {A B : ℕ → ℕ → K} (hr : r < n) (hj : m ≤ j)
    (c : ℕ → K) :
    ∑ i ∈ Finset.range (n + l - 1), c i * insertRows r l m A B i j =
      ∑ i ∈ Finset.range l, c (r + i) * B i (j - m + 1) := by
  have hjm : ¬ j < m := by omega
  rw [sum_block hr, Finset.sum_eq_zero, Finset.sum_eq_zero (s := Finset.range (n - 1 - r)),
    zero_add, add_zero]
  · apply Finset.sum_congr rfl
    intro i hi
    have hil := Finset.mem_range.mp hi
    simp only [insertRows, show ¬ r + i < r by omega, show r + i < r + l by omega, hjm, if_true,
      if_false, Nat.add_sub_cancel_left]
  · intro i _
    simp only [insertRows, show ¬ r + l + i < r by omega, show ¬ r + l + i < r + l by omega, hjm,
      if_false, mul_zero]
  · intro i hi
    simp only [insertRows, Finset.mem_range.mp hi, hjm, if_true, if_false, mul_zero]

/-- A combination of the rows after the insertion gives one of the rows before it. When the
coefficients of the inserted rows add up to zero, row `r` is not needed at all. -/
theorem spansE1_of_insertRows {n r l m k : ℕ} {A B : ℕ → ℕ → K} {S : ℕ → Prop} (hr : r < n)
    (hm : 0 < m) (hk : 0 < k) (hB : ∀ i < l, B i 0 = 1)
    (h : SpansE1 (n + l - 1) (m + k - 1) (insertRows r l m A B) S) :
    SpansE1 n m A (collapse r l (SpansE1 l k B fun i => S (r + i)) S) := by
  obtain ⟨c, hsup, hc⟩ := h
  generalize hβ : ∑ i ∈ Finset.range l, c (r + i) = β
  have hinner : β ≠ 0 → SpansE1 l k B fun i => S (r + i) := by
    intro hne
    refine ⟨fun i => β⁻¹ * c (r + i), ?_, ?_⟩
    · intro i hi
      simp only [hsup _ hi, mul_zero]
    · intro j hj
      simp only [mul_assoc, ← Finset.mul_sum]
      by_cases h0 : j = 0
      · subst h0
        rw [if_pos rfl, Finset.sum_congr rfl fun i hi => by
          rw [hB i (Finset.mem_range.mp hi), mul_one], hβ, inv_mul_cancel₀ hne]
      · have hcol := hc (m + j - 1) (by omega)
        rw [sum_insertRows_right hr (by omega), if_neg (by omega),
          show m + j - 1 - m + 1 = j by omega] at hcol
        rw [hcol, mul_zero, if_neg h0]
  refine ⟨fun i => if i < r then c i else if i = r then β else c (i + l - 1), ?_, ?_⟩
  · intro i hi
    unfold collapse at hi
    push Not at hi
    obtain ⟨hlow, hmid, hhigh⟩ := hi
    rcases Nat.lt_trichotomy i r with hir | hir | hir
    · simp only [hir, if_true]
      exact hsup i (hlow hir)
    · simp only [hir, lt_irrefl, if_false, if_true]
      by_contra hne
      exact hmid hir (hinner hne)
    · simp only [show ¬ i < r by omega, show i ≠ r by omega, if_false]
      exact hsup _ (hhigh hir)
  · intro j hj
    have hcol := hc j (by omega)
    rw [sum_insertRows_left hr hj, hβ] at hcol
    rw [← hcol, sum_row hr]
    congr 1
    · congr 1
      · apply Finset.sum_congr rfl
        intro i hi
        simp only [Finset.mem_range.mp hi, if_true]
      · simp
    · apply Finset.sum_congr rfl
      intro i _
      simp only [show ¬ r + 1 + i < r by omega, show r + 1 + i ≠ r by omega, if_false,
        show r + 1 + i + l - 1 = r + l + i by omega]

/-- Conversely row `r` of a combination is shared out among the inserted rows. -/
theorem spansE1_insertRows {n r l m k : ℕ} {A B : ℕ → ℕ → K} {S : ℕ → Prop} (hr : r < n)
    (hm : 0 < m) (hk : 0 < k) (hB : ∀ i < l, B i 0 = 1)
    (h : SpansE1 n m A (collapse r l (SpansE1 l k B fun i => S (r + i)) S)) :
    SpansE1 (n + l - 1) (m + k - 1) (insertRows r l m A B) S := by
  obtain ⟨c, hsup, hc⟩ := h
  have hinner : ∃ e : ℕ → K, (∀ i, ¬ S (r + i) → e i = 0) ∧
      ∀ j < k, c r * ∑ i ∈ Finset.range l, e i * B i j = if j = 0 then c r else 0 := by
    by_cases hin : SpansE1 l k B fun i => S (r + i)
    · obtain ⟨e, he, hsum⟩ := hin
      refine ⟨e, he, ?_⟩
      intro j hj
      rw [hsum j hj]
      by_cases h0 : j = 0
      · simp [h0]
      · simp [h0]
    · refine ⟨fun _ => 0, fun _ _ => rfl, ?_⟩
      have hz : c r = 0 := by
        apply hsup
        unfold collapse
        simp [hin]
      intro j _
      simp [hz]
  obtain ⟨e, he, hsum⟩ := hinner
  have hone : c r * ∑ i ∈ Finset.range l, e i = c r := by
    have := hsum 0 hk
    rwa [if_pos rfl, Finset.sum_congr rfl fun i hi => by
      rw [hB i (Finset.mem_range.mp hi), mul_one]] at this
  refine ⟨fun i => if i < r then c i else if i < r + l then c r * e (i - r) else c (i - l + 1),
    ?_, ?_⟩
  · intro i hi
    by_cases hir : i < r
    · simp only [hir, if_true]
      apply hsup
      unfold collapse
      push Not
      exact ⟨fun _ => hi, fun _ => by omega, fun _ => by omega⟩
    · by_cases hil : i < r + l
      · simp only [hir, hil, if_true, if_false]
        rw [he (i - r) (by rwa [Nat.add_sub_cancel' (by omega)]), mul_zero]
      · simp only [hir, hil, if_false]
        apply hsup
        unfold collapse
        push Not
        refine ⟨fun _ => by omega, fun _ => by omega, ?_⟩
        intro _
        rwa [show i - l + 1 + l - 1 = i by omega]
  · intro j hj
    by_cases hjm : j < m
    · rw [sum_insertRows_left hr hjm, ← hc j hjm, sum_row hr]
      congr 1
      · congr 1
        · apply Finset.sum_congr rfl
          intro i hi
          simp only [Finset.mem_range.mp hi, if_true]
        · congr 1
          conv_rhs => rw [← hone, Finset.mul_sum]
          apply Finset.sum_congr rfl
          intro i hi
          have hil := Finset.mem_range.mp hi
          simp only [show ¬ r + i < r by omega, show r + i < r + l by omega, if_true, if_false,
            Nat.add_sub_cancel_left]
      · apply Finset.sum_congr rfl
        intro i _
        simp only [show ¬ r + l + i < r by omega, show ¬ r + l + i < r + l by omega, if_false,
          show r + l + i - l + 1 = r + 1 + i by omega]
    · have hcol := hsum (j - m + 1) (by omega)
      rw [if_neg (by omega), Finset.mul_sum] at hcol
      rw [sum_insertRows_right hr (by omega), if_neg (by omega), ← hcol]
      apply Finset.sum_congr rfl
      intro i hi
      have hil := Finset.mem_range.mp hi
      simp only [show ¬ r + i < r by omega, show r + i < r + l by omega, if_true, if_false,
        Nat.add_sub_cancel_left, mul_assoc]

/-- Insertion composes: the inserted rows stand for row `r` exactly when they span the first
unit vector of `B`. -/
theorem spansE1_insertRows_iff {n r l m k : ℕ} {A B : ℕ → ℕ → K} {S : ℕ → Prop} (hr : r < n)
    (hm : 0 < m) (hk : 0 < k) (hB : ∀ i < l, B i 0 = 1) :
    SpansE1 (n + l - 1) (m + k - 1) (insertRows r l m A B) S ↔
      SpansE1 n m A (collapse r l (SpansE1 l k B fun i => S (r + i)) S) :=
  ⟨spansE1_of_insertRows hr hm hk hB, spansE1_insertRows hr hm hk hB⟩

/-! ## Sharing by rows -/

/-- A combination that gives the first unit vector gives the first entry of the dealt vector
from the shares. -/
theorem sum_shares_eq {n m : ℕ} {A : ℕ → ℕ → K} {c : ℕ → K} (hm : 0 < m)
    (hc : ∀ j < m, ∑ i ∈ Finset.range n, c i * A i j = if j = 0 then 1 else 0) (v : ℕ → K) :
    ∑ i ∈ Finset.range n, c i * ∑ j ∈ Finset.range m, A i j * v j = v 0 := by
  calc ∑ i ∈ Finset.range n, c i * ∑ j ∈ Finset.range m, A i j * v j
      = ∑ j ∈ Finset.range m, (∑ i ∈ Finset.range n, c i * A i j) * v j := by
        simp only [Finset.mul_sum, Finset.sum_mul, mul_assoc]
        exact Finset.sum_comm
    _ = ∑ j ∈ Finset.range m, (if j = 0 then 1 else 0) * v j := by
        apply Finset.sum_congr rfl
        intro j hj
        rw [hc j (Finset.mem_range.mp hj)]
    _ = v 0 := by
        rw [Finset.sum_eq_single 0]
        · simp
        · intro j _ hj
          rw [if_neg hj, zero_mul]
        · intro hnot
          exact absurd (Finset.mem_range.mpr hm) hnot

/-- The first unit vector. -/
def e1 (m : ℕ) : Fin m → K := fun j => if j.val = 0 then 1 else 0

theorem spansE1_of_mem_span {n m : ℕ} {A : ℕ → ℕ → K} {S : ℕ → Prop}
    (h : (e1 m : Fin m → K) ∈ Submodule.span K
      {r : Fin m → K | ∃ i < n, S i ∧ r = fun j : Fin m => A i j}) : SpansE1 n m A S := by
  have hall : ∀ v ∈ Submodule.span K {r : Fin m → K | ∃ i < n, S i ∧ r = fun j : Fin m => A i j},
      ∃ c : ℕ → K, (∀ i, ¬ S i → c i = 0) ∧
        ∀ j : Fin m, ∑ i ∈ Finset.range n, c i * A i j = v j := by
    intro v hv
    induction hv using Submodule.span_induction with
    | mem v hv =>
      obtain ⟨i, hi, hS, rfl⟩ := hv
      refine ⟨fun s => if s = i then 1 else 0, ?_, ?_⟩
      · intro s hs
        exact if_neg fun hsi : s = i => hs (hsi ▸ hS)
      · intro j
        simp [hi]
    | zero => exact ⟨fun _ => 0, fun _ _ => rfl, by simp⟩
    | add v w _ _ hv hw =>
      obtain ⟨c, hc, hcv⟩ := hv
      obtain ⟨d, hd, hdw⟩ := hw
      refine ⟨fun i => c i + d i, ?_, ?_⟩
      · intro i hi
        simp [hc i hi, hd i hi]
      · intro j
        simp only [add_mul, Finset.sum_add_distrib, hcv j, hdw j, Pi.add_apply]
    | smul a v _ hv =>
      obtain ⟨c, hc, hcv⟩ := hv
      refine ⟨fun i => a * c i, ?_, ?_⟩
      · intro i hi
        simp [hc i hi]
      · intro j
        simp only [mul_assoc, ← Finset.mul_sum, hcv j, Pi.smul_apply, smul_eq_mul]
  obtain ⟨c, hc, hsum⟩ := hall _ h
  exact ⟨c, hc, fun j hj => hsum ⟨j, hj⟩⟩

/-- Rows that do not span the first unit vector miss a change of the first entry. -/
theorem exists_kernel_of_not_spansE1 {n m : ℕ} {A : ℕ → ℕ → K} {S : ℕ → Prop} (hm : 0 < m)
    (h : ¬ SpansE1 n m A S) :
    ∃ z : Fin m → K, z ⟨0, hm⟩ = 1 ∧ ∀ i < n, S i → ∑ j : Fin m, A i j * z j = 0 := by
  have hmem := fun hmem => h (spansE1_of_mem_span hmem)
  obtain ⟨f, hf, hker⟩ := Submodule.exists_le_ker_of_notMem hmem
  let z : Fin m → K := fun j => f (fun s => if j = s then 1 else 0) / f (e1 m)
  refine ⟨z, ?_, ?_⟩
  · have he : (fun s => if (⟨0, hm⟩ : Fin m) = s then (1 : K) else 0) = e1 m := by
      funext s
      simp only [e1, Fin.ext_iff, eq_comm]
    simp only [z]
    rw [he, div_self hf]
  · intro i hi hS
    have hrow : f (fun j : Fin m => A i j) = 0 :=
      hker (Submodule.subset_span ⟨i, hi, hS, rfl⟩)
    rw [LinearMap.pi_apply_eq_sum_univ f] at hrow
    simp only [z, mul_div_assoc', ← Finset.sum_div]
    simp only [smul_eq_mul] at hrow
    rw [hrow, zero_div]

/-- The dealt vectors with first entry `s` whose shares are those of `v` on the rows of `S`. -/
def Alike (n : ℕ) {m : ℕ} (hm : 0 < m) (A : ℕ → ℕ → K) (S : ℕ → Prop) (v : Fin m → K)
    (s : K) (w : Fin m → K) : Prop :=
  w ⟨0, hm⟩ = s ∧ ∀ i < n, S i → ∑ j : Fin m, A i j * w j = ∑ j : Fin m, A i j * v j

theorem Alike.add_kernel {n m : ℕ} {hm : 0 < m} {A : ℕ → ℕ → K} {S : ℕ → Prop}
    {v w z : Fin m → K} {s : K} (h : Alike n hm A S v s w) (hz1 : z ⟨0, hm⟩ = 1)
    (hz : ∀ i < n, S i → ∑ j : Fin m, A i j * z j = 0) (a : K) :
    Alike n hm A S v (s + a) (fun j => w j + a * z j) := by
  refine ⟨?_, ?_⟩
  · simp only [h.1, hz1, mul_one]
  · intro i hi hS
    rw [← h.2 i hi hS]
    simp only [mul_add, Finset.sum_add_distrib, mul_left_comm _ a, ← Finset.mul_sum, hz i hi hS,
      mul_zero, add_zero]

/-- Perfect secrecy: the shares of rows that do not span the first unit vector fit every
first entry. -/
theorem exists_alike {n m : ℕ} {A : ℕ → ℕ → K} {S : ℕ → Prop} (hm : 0 < m)
    (h : ¬ SpansE1 n m A S) (v : Fin m → K) (s : K) : ∃ w, Alike n hm A S v s w := by
  obtain ⟨z, hz1, hz⟩ := exists_kernel_of_not_spansE1 hm h
  have hv : Alike n hm A S v (v ⟨0, hm⟩) v := ⟨rfl, fun _ _ _ => rfl⟩
  have := hv.add_kernel hz1 hz (s - v ⟨0, hm⟩)
  rw [add_sub_cancel] at this
  exact ⟨_, this⟩

/-- And they fit every first entry equally often. -/
theorem card_alike_eq {n m : ℕ} {A : ℕ → ℕ → K} {S : ℕ → Prop} (hm : 0 < m)
    (h : ¬ SpansE1 n m A S) (v : Fin m → K) (s t : K) :
    Nat.card {w // Alike n hm A S v s w} = Nat.card {w // Alike n hm A S v t w} := by
  obtain ⟨z, hz1, hz⟩ := exists_kernel_of_not_spansE1 hm h
  apply Nat.card_congr
  refine
    { toFun := fun w => ⟨fun j => w.1 j + (t - s) * z j, ?_⟩
      invFun := fun w => ⟨fun j => w.1 j + (s - t) * z j, ?_⟩
      left_inv := ?_
      right_inv := ?_ }
  · have := w.2.add_kernel hz1 hz (t - s)
    rwa [add_sub_cancel] at this
  · have := w.2.add_kernel hz1 hz (s - t)
    rwa [add_sub_cancel] at this
  · intro w
    apply Subtype.ext
    funext j
    simp only
    ring
  · intro w
    apply Subtype.ext
    funext j
    simp only
    ring

end unit_span
