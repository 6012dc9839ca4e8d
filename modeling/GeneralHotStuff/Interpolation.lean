-- Polynomials of bounded degree and their value at zero, given by the values at other points:
-- enough points give it, and one point less leaves one more coefficient free.
import Mathlib.LinearAlgebra.Lagrange

namespace interpolation

open Polynomial Finset

variable {F : Type} [Field F] {ι : Type} {s : Finset ι} {v : ι → F}
  {a b : ℕ → F} {t : ℕ}

/-- The value at `x` of the polynomial with the first `t` of the coefficients `a`. -/
def value (a : ℕ → F) (t : ℕ) (x : F) : F := ∑ i ∈ range t, a i * x ^ i

/-! ## Coefficients -/

noncomputable def poly (a : ℕ → F) (t : ℕ) : F[X] := ∑ i ∈ range t, C (a i) * X ^ i

theorem eval_poly (a : ℕ → F) (t : ℕ) (x : F) : (poly a t).eval x = value a t x := by
  simp [poly, value, eval_finsetSum]

theorem coeff_poly (a : ℕ → F) (t i : ℕ) : (poly a t).coeff i = if i < t then a i else 0 := by
  simp only [poly, finsetSum_coeff, coeff_C_mul_X_pow]
  simp

theorem degree_poly_lt (a : ℕ → F) (t : ℕ) : (poly a t).degree < t := by
  rw [degree_lt_iff_coeff_zero]
  intro i hi
  rw [coeff_poly, if_neg (Nat.not_lt.mpr hi)]

/-- Every polynomial of the degree bound has such coefficients. -/
theorem eval_eq_value {f : F[X]} (hf : f.degree < t) (x : F) :
    f.eval x = value f.coeff t x := by
  rw [← eval_poly]
  congr 1
  ext i
  rw [coeff_poly]
  split
  · rfl
  · exact (degree_lt_iff_coeff_zero f t).mp hf i (by omega)

/-! ## Enough points -/

/-- Two polynomials that agree at as many points agree everywhere. -/
theorem value_unique (hv : Set.InjOn v s) (ht : t ≤ #s)
    (h : ∀ i ∈ s, value a t (v i) = value b t (v i)) (x : F) : value a t x = value b t x := by
  have hdeg : ∀ c : ℕ → F, (poly c t).degree < #s := fun c =>
    (degree_poly_lt c t).trans_le (by exact_mod_cast ht)
  have hpoly : poly a t = poly b t := by
    apply eq_of_degrees_lt_of_eval_index_eq s hv (hdeg a) (hdeg b)
    intro i hi
    rw [eval_poly, eval_poly, h i hi]
  rw [← eval_poly, ← eval_poly, hpoly]

variable [DecidableEq ι]

/-- What the value at the point of `i` counts in the value at zero. -/
def weight (s : Finset ι) (v : ι → F) (i : ι) : F := ∏ k ∈ s.erase i, v k * (v k - v i)⁻¹

theorem weight_eq (i : ι) : weight s v i = (Lagrange.basis s v i).eval 0 := by
  unfold weight Lagrange.basis Lagrange.basisDivisor
  rw [eval_prod]
  apply prod_congr rfl
  intro k _
  rw [eval_mul, eval_C, eval_sub, eval_X, eval_C, zero_sub, ← neg_sub (v i), inv_neg]
  ring

theorem sum_weight (f : ι → F) :
    ∑ i ∈ s, weight s v i * f i = (Lagrange.interpolate s v f).eval 0 := by
  rw [Lagrange.interpolate_apply, eval_finsetSum]
  apply sum_congr rfl
  intro i _
  rw [eval_mul, eval_C, weight_eq, mul_comm]

/-- As many points as coefficients give the value at zero. -/
theorem sum_weight_value (hv : Set.InjOn v s) (ht : t ≤ #s) :
    ∑ i ∈ s, weight s v i * value a t (v i) = value a t 0 := by
  have hdeg : (poly a t).degree < #s := (degree_poly_lt a t).trans_le (by exact_mod_cast ht)
  rw [sum_weight, ← eval_poly, Lagrange.eq_interpolate hv hdeg]
  simp only [eval_poly]

/-! ## One point less -/

/-- The points leave the last coefficient free, and so the value at zero. -/
theorem sum_weight_value_succ (hv : Set.InjOn v s) :
    ∑ i ∈ s, weight s v i * value a (#s + 1) (v i) =
      value a (#s + 1) 0 - a #s * ∏ i ∈ s, -v i := by
  let f : F[X] := poly a (#s + 1) - C (a #s) * Lagrange.nodal s v
  have hlead : (Lagrange.nodal s v).coeff #s = 1 := by
    rw [← Lagrange.natDegree_nodal (R := F) (s := s) (v := v)]
    exact Lagrange.nodal_monic
  have hdeg : f.degree < #s := by
    rw [degree_lt_iff_coeff_zero]
    intro i hi
    simp only [f, coeff_sub, coeff_C_mul, coeff_poly]
    rcases Nat.eq_or_lt_of_le hi with rfl | hlt
    · rw [if_pos (Nat.lt_succ_self _), hlead, mul_one, sub_self]
    · rw [if_neg (by omega), coeff_eq_zero_of_degree_lt, mul_zero, sub_zero]
      rw [Lagrange.degree_nodal]
      exact_mod_cast hlt
  have hf := Lagrange.eq_interpolate hv hdeg
  have hzero : f.eval 0 = value a (#s + 1) 0 - a #s * ∏ i ∈ s, -v i := by
    simp only [f, eval_sub, eval_mul, eval_C, eval_poly, Lagrange.eval_nodal, zero_sub]
  rw [← hzero, hf, ← sum_weight]
  apply sum_congr rfl
  intro i hi
  simp only [f, eval_sub, eval_mul, Lagrange.eval_nodal_at_node hi, mul_zero, sub_zero, eval_poly]

/-- A value at zero fits the values at the points with one last coefficient, which is zero only
for the value that the points give on their own. -/
theorem exists_value (hv : Set.InjOn v s) (h0 : ∀ i ∈ s, v i ≠ 0) (f : ι → F) (x : F) :
    ∃ a : ℕ → F, (∀ i ∈ s, value a (#s + 1) (v i) = f i) ∧ value a (#s + 1) 0 = x ∧
      (a #s = 0 ↔ x = ∑ i ∈ s, weight s v i * f i) := by
  let N := Lagrange.nodal s v
  have hN : N.eval 0 = ∏ i ∈ s, -v i := by
    simp only [N, Lagrange.eval_nodal, zero_sub]
  have hN0 : ∏ i ∈ s, -v i ≠ 0 := prod_ne_zero_iff.mpr fun i hi => neg_ne_zero.mpr (h0 i hi)
  let I := Lagrange.interpolate s v f
  let c := (x - I.eval 0) / N.eval 0
  let P := I + C c * N
  have hdegN : N.degree < ((#s + 1 : ℕ) : WithBot ℕ) := by
    rw [Lagrange.degree_nodal]
    exact_mod_cast Nat.lt_succ_self _
  have hdegI : I.degree < ((#s + 1 : ℕ) : WithBot ℕ) :=
    (Lagrange.degree_interpolate_lt f hv).trans (by exact_mod_cast Nat.lt_succ_self _)
  have hdeg : P.degree < ((#s + 1 : ℕ) : WithBot ℕ) := by
    refine (degree_add_le _ _).trans_lt (max_lt hdegI ?_)
    rw [C_mul']
    exact (degree_smul_le c N).trans_lt hdegN
  have hpoints : ∀ i ∈ s, value P.coeff (#s + 1) (v i) = f i := by
    intro i hi
    rw [← eval_eq_value hdeg]
    simp only [P, I, N, eval_add, eval_mul, eval_C, Lagrange.eval_nodal_at_node hi, mul_zero,
      add_zero]
    exact Lagrange.eval_interpolate_at_node f hv hi
  have hzero : value P.coeff (#s + 1) 0 = x := by
    rw [← eval_eq_value hdeg]
    simp only [P, c, eval_add, eval_mul, eval_C]
    rw [div_mul_cancel₀ _ (hN ▸ hN0)]
    ring
  refine ⟨P.coeff, hpoints, hzero, ?_⟩
  have hsum : ∑ i ∈ s, weight s v i * f i = x - P.coeff #s * ∏ i ∈ s, -v i := by
    rw [← hzero, ← sum_weight_value_succ hv]
    apply sum_congr rfl
    intro i hi
    rw [hpoints i hi]
  rw [hsum]
  constructor
  · intro hc
    rw [hc, zero_mul, sub_zero]
  · intro hx
    have hprod : P.coeff #s * ∏ i ∈ s, -v i = 0 := by
      rw [← sub_sub_cancel x (P.coeff #s * ∏ i ∈ s, -v i), ← hx, sub_self]
    exact (mul_eq_zero.mp hprod).resolve_right hN0

end interpolation
