-- The sharing of `microbench_vss.cpp` on the numbers modulo `p`, as it runs. `verify` does not ask
-- whether the commitments are in the group of order `q`, and the dealer is bound all the same.
import GeneralHotStuff.SharingSecrecy
import GeneralHotStuff.GroupSetup

namespace general_hotstuff.verifiable_sharing

open general_hotstuff.quorums general_hotstuff.linalg

/-! ## The model -/

section Model

variable {p q : ℕ}

/-- `verify` of `GeneralizedVss`, for commitments to any numbers. -/
def verify_numbers (msp : Msp q) (G : common_coin.PrimeOrderModGroup p q) (j : ℕ)
    (sj sj_prime : ZMod q) (C : Vec (ZMod p)) : Option Bool :=
  if j < msp.m ∧ msp.d ≤ C.length then
    let part1 := equal_exponents.power G.g sj * equal_exponents.power G.h sj_prime
    let part2 := ∏ l ∈ Finset.range msp.d, equal_exponents.power (C.entry l) (msp.M.entry j l)
    some (decide (part1 = part2))
  else none

def AcceptedNumbers (msp : Msp q) (G : common_coin.PrimeOrderModGroup p q) (C : Vec (ZMod p))
    (A : Finset ReplicaID) (s s_prime : Vec (ZMod q)) : Prop :=
  ∀ j ∈ msp.ownedRows A, verify_numbers msp G j (s.entry j) (s_prime.entry j) C = some true

end Model

/-! ## The group among the numbers -/

/-- The members of the group as numbers. -/
def as_number {p q : ℕ} : rootsOfUnity q (ZMod p) →* ZMod p :=
  (Units.coeHom (ZMod p)).comp (rootsOfUnity q (ZMod p)).subtype

theorem as_number_injective {p q : ℕ} : Function.Injective (as_number (p := p) (q := q)) :=
  Units.val_injective.comp Subtype.val_injective

theorem as_number_pow {p q : ℕ} (y : rootsOfUnity q (ZMod p)) : as_number y ^ q = 1 := by
  have hy : y ^ q = 1 := Subtype.ext ((mem_rootsOfUnity q _).mp y.2)
  rw [← map_pow, hy, map_one]

section Group

variable {p q : ℕ} [Fact p.Prime] [Fact q.Prime]

theorem root_generates {x : ZMod p} (hx : x ^ q = 1) (hne : x ≠ 1) (y : rootsOfUnity q (ZMod p)) :
    ∃ k < q, rootsOfUnity.mkOfPowEq x hx ^ k = y := by
  obtain ⟨k, hk, hpow⟩ :=
    (algebra_utils.generates_of_order Fact.out hx hne _).mp (as_number_pow y)
  exact ⟨k, hk, as_number_injective hpow⟩

/-- The numbers with the exponent `q`, with the same two generators. -/
def in_group (G : common_coin.PrimeOrderModGroup p q) :
    PrimeOrderModGroup (rootsOfUnity q (ZMod p)) q where
  g := rootsOfUnity.mkOfPowEq G.g G.g_pow
  h := rootsOfUnity.mkOfPowEq G.h G.h_pow
  order := (algebra_utils.primitive_root Fact.out G.g_pow G.g_ne_one).card_rootsOfUnity
  g_generates := root_generates G.g_pow G.g_ne_one
  h_generates := root_generates G.h_pow G.h_ne_one

/-- The part of a number in the group of order `q`, for an exponent `u` that leaves the group as
it is and takes everything else to one. -/
def inside (u : ℕ) (hu : p - 1 ∣ u * q) (x : ZMod p) : rootsOfUnity q (ZMod p) :=
  if hx : x = 0 then 1
  else rootsOfUnity.mkOfPowEq (x ^ u) (by
    obtain ⟨k, hk⟩ := hu
    rw [← pow_mul, hk, pow_mul, ZMod.pow_card_sub_one_eq_one hx, one_pow])

omit [Fact p.Prime] in
theorem exists_exponent (hdvd : q ∣ p - 1) (honce : ¬ q ^ 2 ∣ p - 1) :
    ∃ u, p - 1 ∣ u * q ∧ u % q = 1 := by
  obtain ⟨m, hm⟩ := hdvd
  have hcop : Nat.Coprime q m := by
    refine (Nat.Prime.coprime_iff_not_dvd Fact.out).mpr fun hqm => honce ?_
    rw [hm, sq]
    exact Nat.mul_dvd_mul_left q hqm
  obtain ⟨u, hu1, hu0⟩ := Nat.chineseRemainder hcop 1 0
  refine ⟨u, ?_, ?_⟩
  · rw [hm, mul_comm]
    exact Nat.mul_dvd_mul_right ((Nat.modEq_zero_iff_dvd).mp hu0) q
  · rw [hu1, Nat.mod_eq_of_lt (Nat.Prime.one_lt Fact.out)]

/-- A power that is not zero is a power of zero with the exponent zero, or of a number with a part
inside. -/
theorem as_number_power {u : ℕ} (hu : p - 1 ∣ u * q) {x : ZMod p} {e : ZMod q}
    (h : equal_exponents.power x e ≠ 0) :
    as_number (power (inside u hu x) e) = equal_exponents.power x e ^ u := by
  unfold equal_exponents.power at h ⊢
  unfold power inside
  split
  · rename_i hx
    have he : e.val = 0 := by
      by_contra hne
      exact h (by rw [hx, zero_pow hne])
    rw [he, pow_zero, pow_zero, one_pow, map_one]
  · rw [map_pow, ← pow_mul, mul_comm, pow_mul]
    rfl

/-- What holds of numbers with residues for exponents holds of their parts in the group, if one side
is in the group. -/
theorem prod_inside {u : ℕ} (hu : p - 1 ∣ u * q) (hu1 : u % q = 1) {y : rootsOfUnity q (ZMod p)}
    {S : Finset ℕ} {C : ℕ → ZMod p} {e : ℕ → ZMod q}
    (h : as_number y = ∏ l ∈ S, equal_exponents.power (C l) (e l)) :
    y = ∏ l ∈ S, power (inside u hu (C l)) (e l) := by
  have hne : ∏ l ∈ S, equal_exponents.power (C l) (e l) ≠ 0 := by
    rw [← h]
    exact Units.ne_zero _
  have hfixed : as_number y ^ u = as_number y := by
    rw [← equal_exponents.pow_mod_of_pow_eq_one (as_number_pow y), hu1, pow_one]
  apply as_number_injective
  rw [← hfixed, h, map_prod, ← Finset.prod_pow]
  apply Finset.prod_congr rfl
  intro l hl
  exact (as_number_power hu (Finset.prod_ne_zero_iff.mp hne l hl)).symm

end Group

/-! ## The dealer is bound -/

/-- Accepted shares on numbers are accepted shares of the parts of the commitments. -/
theorem AcceptedNumbers.inside {p q : ℕ} [Fact p.Prime] [Fact q.Prime] {msp : Msp q}
    {G : common_coin.PrimeOrderModGroup p q} {C : Vec (ZMod p)} {A : Finset ReplicaID}
    {s s_prime : Vec (ZMod q)} (h : AcceptedNumbers msp G C A s s_prime) {u : ℕ}
    (hu : p - 1 ∣ u * q) (hu1 : u % q = 1) :
    Accepted msp (in_group G) ⟨C.length, fun l => inside u hu (C.entry l)⟩ A s s_prime := by
  intro j hj
  have hv := h j hj
  unfold verify_numbers at hv
  split at hv
  · rename_i hbounds
    refine (if_pos hbounds).trans (congrArg some (decide_eq_true ?_))
    exact prod_inside hu hu1 (of_decide_eq_true (Option.some.inj hv))
  · cases hv

/-- The dealer may commit to any numbers modulo `p`, zero and those of another order included: two
sets that the formula accepts and whose shares `verify` accepts recombine the same secret, or the
logarithm of `h`. This takes a `p - 1` that `q` divides only once. -/
theorem numbers_outside_of_the_group_bind_the_dealer {p q : ℕ} (hp : p.Prime) (hq : q.Prime)
    (honce : ¬ q ^ 2 ∣ p - 1) (G : common_coin.PrimeOrderModGroup p q) {t : Theta}
    (ht : t.AllNodes fun k n => 1 ≤ k ∧ n < q) :
    ∃ msp, create q t = some msp ∧
      ∀ (C : Vec (ZMod p)) (A B : Finset ReplicaID) (s s_prime : Vec (ZMod q)),
        s.length = msp.m → s_prime.length = msp.m →
        evalFomula t A = true → evalFomula t B = true →
        AcceptedNumbers msp G C A s s_prime → AcceptedNumbers msp G C B s s_prime →
        ∃ a a_prime b b_prime,
          reconstruct msp A s = some a ∧ reconstruct msp A s_prime = some a_prime ∧
          reconstruct msp B s = some b ∧ reconstruct msp B s_prime = some b_prime ∧
          (a = b ∨ a_prime ≠ b_prime ∧ ∃ x : ZMod q,
            G.h = equal_exponents.power G.g x ∧ a - b = x * (b_prime - a_prime)) := by
  have : Fact p.Prime := ⟨hp⟩
  have : Fact q.Prime := ⟨hq⟩
  obtain ⟨msp, hc, hprep, hm, hL, hspan⟩ := create_spec (p := q) (ht.mono fun k n h => h.1)
  have howners : msp.L.length = msp.m := by rw [hL, hm]
  have hvector : ∀ A, evalFomula t A = true → ∃ x, msp.getRecombinationVector A = some x ∧
      x.length = (msp.ownedRows A).length ∧ msp.Recombines A x.entry := by
    intro A hA
    apply hprep.recombination
    rw [hspan, evalResidues_of_lt A (ht.mono fun k n h => h.2), hA]
  have hdvd : q ∣ p - 1 := by
    have hg0 : G.g ≠ 0 := fun h0 => zero_ne_one ((zero_pow hq.ne_zero).symm.trans (h0 ▸ G.g_pow))
    have horder : orderOf G.g = q := orderOf_eq_prime G.g_pow G.g_ne_one
    exact horder ▸ orderOf_dvd_of_pow_eq_one (ZMod.pow_card_sub_one_eq_one hg0)
  obtain ⟨u, hu, hu1⟩ := exists_exponent hdvd honce
  refine ⟨msp, hc, fun C A B s s_prime hs hs' hA hB haccA haccB => ?_⟩
  obtain ⟨x, hx, hxlen, hxrec⟩ := hvector A hA
  obtain ⟨y, hy, hylen, hyrec⟩ := hvector B hB
  refine ⟨_, _, _, _, reconstruct_eq howners hx hxlen hs, reconstruct_eq howners hx hxlen hs',
    reconstruct_eq howners hy hylen hs, reconstruct_eq howners hy hylen hs', ?_⟩
  have hopenA := recombined_opens hprep.pos hxrec (haccA.inside hu hu1)
  have hopenB := recombined_opens hprep.pos hyrec (haccB.inside hu hu1)
  apply or_iff_not_imp_left.mpr
  intro hne
  obtain ⟨hne', z, hz, hdiff⟩ := log_of_openings hne (hopenA.symm.trans hopenB)
  exact ⟨hne', z, congrArg as_number hz, hdiff⟩

theorem numbers_modulo_11_bind_the_dealer :
    ∃ msp, create 5 twoOfThree = some msp ∧
      ∀ (C : Vec (ZMod 11)) (A B : Finset ReplicaID) (s s_prime : Vec (ZMod 5)),
        s.length = msp.m → s_prime.length = msp.m →
        evalFomula twoOfThree A = true → evalFomula twoOfThree B = true →
        AcceptedNumbers msp common_coin.squares C A s s_prime →
        AcceptedNumbers msp common_coin.squares C B s s_prime →
        ∃ a a_prime b b_prime,
          reconstruct msp A s = some a ∧ reconstruct msp A s_prime = some a_prime ∧
          reconstruct msp B s = some b ∧ reconstruct msp B s_prime = some b_prime ∧
          (a = b ∨ a_prime ≠ b_prime ∧ ∃ x : ZMod 5,
            common_coin.squares.h = equal_exponents.power common_coin.squares.g x ∧
              a - b = x * (b_prime - a_prime)) := by
  exact numbers_outside_of_the_group_bind_the_dealer (by decide) (by decide) (by decide)
    common_coin.squares twoOfThree_bounded

end general_hotstuff.verifiable_sharing
