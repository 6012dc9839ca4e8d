-- Proofs that two powers have one exponent, with residues modulo `q` as exponents: what the
-- prover's answer commits to, and which challenges one pair of commitments can answer when the
-- second power is not the right one.
import Mathlib.Data.ZMod.Basic
import Mathlib.GroupTheory.OrderOfElement
import Mathlib.Algebra.BigOperators.GroupWithZero.Finset

namespace equal_exponents

variable {M : Type} [CommMonoid M] {q : ℕ}

/-! ## Powers -/

/-- A residue as an exponent. -/
def power (x : M) (e : ZMod q) : M := x ^ e.val

theorem power_zero (x : M) : power x (0 : ZMod q) = 1 := by
  simp [power]

theorem one_power (e : ZMod q) : power (1 : M) e = 1 := by
  simp [power]

theorem mul_power (x y : M) (e : ZMod q) : power (x * y) e = power x e * power y e := by
  unfold power
  exact mul_pow x y e.val

theorem pow_mod_of_pow_eq_one {x : M} (hx : x ^ q = 1) (n : ℕ) : x ^ (n % q) = x ^ n := by
  conv_rhs => rw [← Nat.div_add_mod n q, pow_add, pow_mul, hx, one_pow, one_mul]

theorem power_add [NeZero q] {x : M} (hx : x ^ q = 1) (a b : ZMod q) :
    power x (a + b) = power x a * power x b := by
  unfold power
  rw [ZMod.val_add, pow_mod_of_pow_eq_one hx, pow_add]

theorem power_mul [NeZero q] {x : M} (hx : x ^ q = 1) (a b : ZMod q) :
    power x (a * b) = power (power x a) b := by
  unfold power
  rw [ZMod.val_mul, pow_mod_of_pow_eq_one hx, pow_mul]

theorem power_pow {x : M} (hx : x ^ q = 1) (a : ZMod q) : power x a ^ q = 1 := by
  unfold power
  rw [← pow_mul, mul_comm, pow_mul, hx, one_pow]

theorem power_mul_neg [NeZero q] {x : M} (hx : x ^ q = 1) (a : ZMod q) :
    power x a * power x (-a) = 1 := by
  rw [← power_add hx, add_neg_cancel, power_zero]

theorem isUnit_power [NeZero q] {x : M} (hx : x ^ q = 1) (a : ZMod q) : IsUnit (power x a) :=
  IsUnit.of_mul_eq_one _ (power_mul_neg hx a)

theorem power_sum [NeZero q] {x : M} (hx : x ^ q = 1) {ι : Type} (S : Finset ι) (f : ι → ZMod q) :
    power x (∑ i ∈ S, f i) = ∏ i ∈ S, power x (f i) := by
  classical
  induction S using Finset.induction_on with
  | empty => simp [power_zero]
  | insert i S hi ih => rw [Finset.sum_insert hi, Finset.prod_insert hi, power_add hx, ih]

/-- An element of prime order tells its exponents apart. -/
theorem power_injective [Fact q.Prime] {x : M} (hx : x ^ q = 1) (hne : x ≠ 1) {a b : ZMod q}
    (h : power x a = power x b) : a = b := by
  have horder : orderOf x = q := orderOf_eq_prime hx hne
  apply ZMod.val_injective
  exact pow_injOn_Iio_orderOf (by simpa [horder] using ZMod.val_lt a)
    (by simpa [horder] using ZMod.val_lt b) h

/-! ## Commitments -/

/-- What the answer `z` to the challenge `c` commits to, for the powers `v` of `g` and `y` of
`k`. -/
def commitments (g v k y : M) (c z : ZMod q) : M × M :=
  (power g z * power v c, power k z * power y c)

/-- The second power is off by the factor `w`. -/
theorem commitments_eq [NeZero q] {g k : M} (hg : g ^ q = 1) (hk : k ^ q = 1) (s c z : ZMod q)
    (w : M) :
    commitments g (power g s) k (power k s * w) c z =
      (power g (z + s * c), power k (z + s * c) * power w c) := by
  unfold commitments
  rw [mul_power, ← mul_assoc, ← power_mul hg, ← power_mul hk, ← power_add hg, ← power_add hk]

/-- The answer of one who knows the exponent commits to the powers of `r`, apart from the
factor. -/
theorem answer_commits [NeZero q] {g k : M} (hg : g ^ q = 1) (hk : k ^ q = 1) (s c r : ZMod q)
    (w : M) :
    commitments g (power g s) k (power k s * w) c (r - s * c) =
      (power g r, power k r * power w c) := by
  rw [commitments_eq hg hk, sub_add_cancel]

/-- The commitments of one answered challenge answer another one exactly when the factor has the
same power at both. -/
theorem answers_iff [Fact q.Prime] {g k : M} (hg : g ^ q = 1) (hne : g ≠ 1) (hk : k ^ q = 1)
    (s c c' z : ZMod q) (w : M) :
    (∃ z', commitments g (power g s) k (power k s * w) c' z' =
      commitments g (power g s) k (power k s * w) c z) ↔ power w c' = power w c := by
  simp only [commitments_eq hg hk, Prod.mk.injEq]
  constructor
  · rintro ⟨z', hz, hw⟩
    have hsame := power_injective hg hne hz
    rw [hsame] at hw
    exact (isUnit_power hk _).mul_left_cancel hw
  · intro hw
    refine ⟨z + s * c - s * c', ?_⟩
    rw [sub_add_cancel, hw]
    exact ⟨rfl, rfl⟩

end equal_exponents
