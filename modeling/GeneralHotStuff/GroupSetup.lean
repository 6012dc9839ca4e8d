-- How `algebra_utils.h` sets up the group of the coin and of the sharings: primes are drawn until
-- they fit, and numbers until their powers are not one. Zero passes for such a power.
import GeneralHotStuff.CommonCoin
import GeneralHotStuff.VerifiableSharing
import Mathlib.Data.Nat.Size
import Mathlib.RingTheory.RootsOfUnity.PrimitiveRoots
import Mathlib.FieldTheory.Finite.Basic

namespace general_hotstuff.algebra_utils

/-! ## The model -/

structure PrimeOrderModGroup where
  p : ℕ
  q : ℕ
  g : ZMod p
  h : ZMod p

/-- What `GenPrime_ZZ` and `RandomLen_ZZ` draw in one turn. -/
structure PrimeDraw where
  q : ℕ
  m1 : ℕ
  m2 : ℕ

section Model

variable (ProbPrime : ℕ → Bool)

/-- The loop over `m`. -/
def first_prime (q m1 m2 : ℕ) : Option ℕ :=
  ((List.range' m1 (m2 - m1)).map fun m => q * m + 1).find? ProbPrime

/-- The pair of `p` and `q`, with a turn for each of the draws. -/
def generatePrimes : List PrimeDraw → Option (ℕ × ℕ)
  | [] => none
  | ⟨q, m1, m2⟩ :: draws =>
    match if m2 < m1 then first_prime ProbPrime q m2 m1 else first_prime ProbPrime q m1 m2 with
    | some p => some (p, q)
    | none => generatePrimes draws

/-- A turn for each draw of `g1` and `h1`. -/
def draw_generators (p q : ℕ) : List (ℕ × ℕ) → Option (ZMod p × ZMod p)
  | [] => none
  | (g1, h1) :: draws =>
    let m := (p - 1) / q
    let g := (g1 : ZMod p) ^ m
    let h := (h1 : ZMod p) ^ m
    if g ≠ 1 ∧ h ≠ 1 then some (g, h) else draw_generators p q draws

def getGroup (primes : List PrimeDraw) (draws : List (ℕ × ℕ)) : Option PrimeOrderModGroup :=
  (generatePrimes ProbPrime primes).bind fun (p, q) =>
    (draw_generators p q draws).map fun (g, h) => ⟨p, q, g, h⟩

end Model

/-- What NTL promises about the numbers that it draws. -/
structure PrimeDraw.Sized (p_size q_size : ℕ) (draw : PrimeDraw) : Prop where
  prime : draw.q.Prime
  size_q : draw.q.size = q_size
  size_m1 : draw.m1.size = p_size - q_size
  size_m2 : draw.m2.size = p_size - q_size

/-- The powers of `g` are all that have `q` for an exponent. -/
def Generates {p : ℕ} (q : ℕ) (g : ZMod p) : Prop := ∀ x : ZMod p, x ^ q = 1 ↔ ∃ k < q, g ^ k = x

/-! ## The primes -/

theorem first_prime_spec {ProbPrime : ℕ → Bool} {q m1 m2 p : ℕ}
    (h : first_prime ProbPrime q m1 m2 = some p) :
    ProbPrime p = true ∧ ∃ m, m1 ≤ m ∧ m < m2 ∧ p = q * m + 1 := by
  unfold first_prime at h
  refine ⟨List.find?_some h, ?_⟩
  obtain ⟨m, hm, rfl⟩ := List.mem_map.mp (List.mem_of_find?_eq_some h)
  obtain ⟨hlow, hhigh⟩ := List.mem_range'_1.mp hm
  exact ⟨m, hlow, by omega, rfl⟩

theorem generatePrimes_spec {ProbPrime : ℕ → Bool} {draws : List PrimeDraw} {p q : ℕ}
    (h : generatePrimes ProbPrime draws = some (p, q)) :
    ProbPrime p = true ∧ ∃ draw ∈ draws, draw.q = q ∧
      ∃ m, min draw.m1 draw.m2 ≤ m ∧ m < max draw.m1 draw.m2 ∧ p = q * m + 1 := by
  induction draws with
  | nil => cases h
  | cons draw draws ih =>
    obtain ⟨q', m1, m2⟩ := draw
    unfold generatePrimes at h
    split at h
    · rename_i p' hfirst
      cases h
      split at hfirst
      · rename_i hlt
        obtain ⟨hp, hm⟩ := first_prime_spec hfirst
        refine ⟨hp, _, List.mem_cons_self, rfl, ?_⟩
        rwa [min_eq_right hlt.le, max_eq_left hlt.le]
      · rename_i hle
        obtain ⟨hp, hm⟩ := first_prime_spec hfirst
        refine ⟨hp, _, List.mem_cons_self, rfl, ?_⟩
        rwa [min_eq_left (not_lt.mp hle), max_eq_right (not_lt.mp hle)]
    · obtain ⟨hp, draw, hmem, hrest⟩ := ih h
      exact ⟨hp, draw, List.mem_cons_of_mem _ hmem, hrest⟩

theorem half_le_of_size {n k : ℕ} (h : n.size = k) (hk : 0 < k) : n < 2 ^ k ∧ 2 ^ k ≤ 2 * n := by
  refine ⟨h ▸ Nat.lt_size_self n, ?_⟩
  have hlow : 2 ^ (k - 1) ≤ n := Nat.lt_size.mp (by omega)
  calc 2 ^ k = 2 * 2 ^ (k - 1) := by rw [← pow_succ', Nat.sub_add_cancel hk]
    _ ≤ 2 * n := Nat.mul_le_mul_left 2 hlow

/-- The prime `p` has as many bits as are asked for, or one less. -/
theorem PrimeDraw.Sized.bounds {p_size q_size : ℕ} {draw : PrimeDraw}
    (h : draw.Sized p_size q_size) {m : ℕ} (hlow : min draw.m1 draw.m2 ≤ m)
    (hhigh : m < max draw.m1 draw.m2) :
    draw.q * m + 1 < 2 ^ p_size ∧ 2 ^ p_size < 4 * (draw.q * m + 1) := by
  have hq : 0 < q_size := h.size_q ▸ Nat.size_pos.mpr h.prime.pos
  have hm : 0 < p_size - q_size := by
    rcases lt_max_iff.mp hhigh with hlt | hlt
    · exact h.size_m1 ▸ Nat.size_pos.mpr (by omega)
    · exact h.size_m2 ▸ Nat.size_pos.mpr (by omega)
  obtain ⟨hq1, hq2⟩ := half_le_of_size h.size_q hq
  obtain ⟨hm1, hm1'⟩ := half_le_of_size h.size_m1 hm
  obtain ⟨hm2, hm2'⟩ := half_le_of_size h.size_m2 hm
  have hsize : 2 ^ p_size = 2 ^ q_size * 2 ^ (p_size - q_size) := by
    rw [← pow_add]
    congr 1
    omega
  rw [hsize]
  have hmhigh : m + 2 ≤ 2 ^ (p_size - q_size) := by omega
  have hmlow : 2 ^ (p_size - q_size) ≤ 2 * m := by omega
  have htwo := h.prime.two_le
  constructor
  · nlinarith
  · nlinarith

/-! ## The generators -/

theorem draw_generators_spec {p q : ℕ} {draws : List (ℕ × ℕ)} {g h : ZMod p}
    (hd : draw_generators p q draws = some (g, h)) :
    g ≠ 1 ∧ h ≠ 1 ∧ ∃ draw ∈ draws, (draw.1 : ZMod p) ^ ((p - 1) / q) = g ∧
      (draw.2 : ZMod p) ^ ((p - 1) / q) = h := by
  induction draws with
  | nil => cases hd
  | cons draw draws ih =>
    obtain ⟨g1, h1⟩ := draw
    unfold draw_generators at hd
    dsimp only at hd
    split at hd
    · rename_i hne
      cases hd
      exact ⟨hne.1, hne.2, _, List.mem_cons_self, rfl, rfl⟩
    · obtain ⟨hg, hh, draw, hmem, hrest⟩ := ih hd
      exact ⟨hg, hh, draw, List.mem_cons_of_mem _ hmem, hrest⟩

section Generators

variable {p q m : ℕ} [Fact p.Prime]

theorem primitive_root (hq : q.Prime) {g : ZMod p} (hg : g ^ q = 1) (hne : g ≠ 1) :
    IsPrimitiveRoot g q := by
  have : Fact q.Prime := ⟨hq⟩
  exact orderOf_eq_prime hg hne ▸ IsPrimitiveRoot.orderOf g

theorem generates_of_order (hq : q.Prime) {g : ZMod p} (hg : g ^ q = 1) (hne : g ≠ 1) :
    Generates q g := by
  have hq0 : NeZero q := ⟨hq.ne_zero⟩
  have hroot := primitive_root hq hg hne
  intro x
  constructor
  · exact fun hx => hroot.eq_pow_of_pow_eq_one hx
  · rintro ⟨k, -, rfl⟩
    rw [← pow_mul, mul_comm, pow_mul, hg, one_pow]

/-- The power of a number that is not zero has order `q`, and zero is all that goes wrong. -/
theorem generates_iff (hq : q.Prime) (hp : p = q * m + 1) {y : ZMod p} (hy : y ^ m ≠ 1) :
    Generates q (y ^ m) ↔ y ≠ 0 := by
  constructor
  · rintro hgen rfl
    have hm : m ≠ 0 := by
      rintro rfl
      exact hy (pow_zero 0)
    have hzero : (0 : ZMod p) ^ q = 1 := (hgen 0).mpr ⟨1, hq.one_lt, by rw [zero_pow hm, pow_one]⟩
    rw [zero_pow hq.ne_zero] at hzero
    exact zero_ne_one hzero
  · intro hy0
    refine generates_of_order hq ?_ hy
    rw [← pow_mul, mul_comm, show q * m = p - 1 by omega]
    exact ZMod.pow_card_sub_one_eq_one hy0

/-! ## How many draws end the loop -/

theorem card_roots (hm : m ≠ 0) (hp : p = q * m + 1) :
    {x : ZMod p | x ^ m = 1}.ncard = m := by
  have : NeZero m := ⟨hm⟩
  have hequiv : {x : ZMod p // x ∈ Polynomial.nthRoots m 1} ≃ {x : ZMod p // x ^ m = 1} :=
    Equiv.subtypeEquivRight fun x => Polynomial.mem_nthRoots (Nat.pos_of_ne_zero hm)
  rw [← Nat.card_coe_set_eq, Set.coe_ofPred, ← Nat.card_congr hequiv,
    ← Nat.card_congr (rootsOfUnityEquivNthRoots (ZMod p) m)]
  have hker : rootsOfUnity m (ZMod p) = (powMonoidHom m : (ZMod p)ˣ →* (ZMod p)ˣ).ker := by
    ext x
    simp [mem_rootsOfUnity, MonoidHom.mem_ker]
  rw [hker, IsCyclic.card_powMonoidHom_ker, Nat.card_eq_fintype_card, ZMod.card_units, hp,
    Nat.add_sub_cancel, Nat.gcd_mul_left_left]

theorem card_passing (hm : m ≠ 0) (hp : p = q * m + 1) :
    {x : ZMod p | x ^ m ≠ 1}.ncard = p - m ∧
      {x : ZMod p | x ^ m ≠ 1 ∧ x ≠ 0}.ncard = p - 1 - m := by
  have hpass : {x : ZMod p | x ^ m ≠ 1}.ncard = p - m := by
    have hsum := Set.ncard_add_ncard_compl {x : ZMod p | x ^ m = 1}
    rw [card_roots hm hp, Nat.card_zmod, Set.compl_ofPred] at hsum
    exact Nat.eq_sub_of_add_eq' hsum
  refine ⟨hpass, ?_⟩
  have hzero : (0 : ZMod p) ∈ {x : ZMod p | x ^ m ≠ 1} := by
    rw [Set.mem_ofPred_eq, zero_pow hm]
    exact zero_ne_one
  have hdiff : {x : ZMod p | x ^ m ≠ 1 ∧ x ≠ 0} = {x : ZMod p | x ^ m ≠ 1} \ {0} := by
    ext x
    simp
  rw [hdiff, Set.ncard_sdiff_singleton_of_mem hzero, hpass]
  omega

/-- The two numbers of a draw are independent. -/
theorem card_draws (hq : q.Prime) (hm : m ≠ 0) (hp : p = q * m + 1) :
    {draw : ZMod p × ZMod p | draw.1 ^ m ≠ 1 ∧ draw.2 ^ m ≠ 1}.ncard = (p - m) ^ 2 ∧
      {draw : ZMod p × ZMod p | (draw.1 ^ m ≠ 1 ∧ draw.2 ^ m ≠ 1) ∧
        Generates q (draw.1 ^ m) ∧ Generates q (draw.2 ^ m)}.ncard = (p - 1 - m) ^ 2 := by
  obtain ⟨hpass, hgood⟩ := card_passing hm hp
  constructor
  · rw [sq, ← hpass, ← Set.ncard_prod]
    rfl
  · rw [sq, ← hgood, ← Set.ncard_prod]
    congr 1
    ext ⟨x, y⟩
    constructor
    · rintro ⟨⟨hx, hy⟩, hgx, hgy⟩
      exact ⟨⟨hx, (generates_iff hq hp hx).mp hgx⟩, hy, (generates_iff hq hp hy).mp hgy⟩
    · rintro ⟨⟨hx, hx0⟩, hy, hy0⟩
      exact ⟨⟨hx, hy⟩, (generates_iff hq hp hx).mpr hx0, (generates_iff hq hp hy).mpr hy0⟩

end Generators

/-! ## What `getGroup` returns -/

/-- The parameters are primes of the sizes asked for, and `g` and `h` generate the group of order
`q` unless they are zero, which the loop lets through. Of the pairs of numbers below `p`, where
`m = (p - 1) / q`, the `(p - m) ^ 2` end the loop, and `(p - 1 - m) ^ 2` with generators. -/
theorem the_group_is_generated_unless_zero_is_drawn {ProbPrime : ℕ → Bool}
    (hprime : ∀ n, ProbPrime n = true → n.Prime) {p_size q_size : ℕ} {primes : List PrimeDraw}
    (hsized : ∀ draw ∈ primes, draw.Sized p_size q_size) {draws : List (ℕ × ℕ)}
    {group : PrimeOrderModGroup} (h : getGroup ProbPrime primes draws = some group) :
    (group.p.Prime ∧ group.q.Prime ∧ group.q.size = q_size ∧
      group.p < 2 ^ p_size ∧ 2 ^ p_size < 4 * group.p) ∧
    (Generates group.q group.g ↔ group.g ≠ 0) ∧ (Generates group.q group.h ↔ group.h ≠ 0) ∧
    ∃ m, group.p = group.q * m + 1 ∧
      {draw : ZMod group.p × ZMod group.p | draw.1 ^ m ≠ 1 ∧ draw.2 ^ m ≠ 1}.ncard =
        (group.p - m) ^ 2 ∧
      {draw : ZMod group.p × ZMod group.p | (draw.1 ^ m ≠ 1 ∧ draw.2 ^ m ≠ 1) ∧
        Generates group.q (draw.1 ^ m) ∧ Generates group.q (draw.2 ^ m)}.ncard =
        (group.p - 1 - m) ^ 2 := by
  obtain ⟨⟨p, q⟩, hprimes, hgroup⟩ := Option.bind_eq_some_iff.mp h
  obtain ⟨⟨g, k⟩, hgen, rfl⟩ := Option.map_eq_some_iff.mp hgroup
  obtain ⟨hp, draw, hmem, rfl, m, hlow, hhigh, hpm⟩ := generatePrimes_spec hprimes
  have hdraw := hsized draw hmem
  have : Fact p.Prime := ⟨hprime p hp⟩
  obtain ⟨hg, hk, ⟨g1, h1⟩, -, rfl, rfl⟩ := draw_generators_spec hgen
  have hm : (p - 1) / draw.q = m := by
    rw [hpm, Nat.add_sub_cancel, Nat.mul_div_cancel_left m hdraw.prime.pos]
  have hm0 : m ≠ 0 := by
    rintro rfl
    exact hg (by rw [hm, pow_zero])
  have hbounds := hdraw.bounds hlow hhigh
  rw [← hpm] at hbounds
  dsimp only at hg hk ⊢
  rw [hm] at hg hk ⊢
  have hpowers : ∀ y : ZMod p, (y ^ m ≠ 0 ↔ y ≠ 0) := fun y => pow_ne_zero_iff hm0
  refine ⟨⟨Fact.out, hdraw.prime, hdraw.size_q, hbounds⟩,
    (generates_iff hdraw.prime hpm hg).trans (hpowers _).symm,
    (generates_iff hdraw.prime hpm hk).trans (hpowers _).symm, m, hpm,
    card_draws hdraw.prime hm0 hpm⟩

theorem zero_ends_the_loop_modulo_11 :
    getGroup (fun n => decide n.Prime) [⟨5, 3, 2⟩] [(1, 4), (2, 0)] = some ⟨11, 5, 4, 0⟩ ∧
      Generates 5 (4 : ZMod 11) ∧ ¬ Generates 5 (0 : ZMod 11) := by
  have hgroup : getGroup (fun n => decide n.Prime) [⟨5, 3, 2⟩] [(1, 4), (2, 0)] =
      some ⟨11, 5, 4, 0⟩ := by
    have hprimes : generatePrimes (fun n => decide n.Prime) [⟨5, 3, 2⟩] = some (11, 5) := by
      norm_num [generatePrimes, first_prime, List.range']
    have hgens : draw_generators 11 5 [(1, 4), (2, 0)] = some (4, 0) := by decide
    simp only [getGroup, hprimes, Option.bind_some, hgens, Option.map_some]
  have hsized : ∀ draw ∈ [(⟨5, 3, 2⟩ : PrimeDraw)], draw.Sized 5 3 := by
    intro draw hmem
    obtain rfl := List.mem_singleton.mp hmem
    exact ⟨by norm_num, by decide, by decide, by decide⟩
  have hspec := the_group_is_generated_unless_zero_is_drawn (fun n h => of_decide_eq_true h) hsized
    hgroup
  exact ⟨hgroup, hspec.2.1.mpr (by decide), fun h => hspec.2.2.1.mp h rfl⟩

end general_hotstuff.algebra_utils
