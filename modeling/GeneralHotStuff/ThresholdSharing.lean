-- The verifiable secret sharing of `microbench_vss.cpp` for a threshold: the shares are values of
-- two polynomials, and the commitments are to their coefficients.
import GeneralHotStuff.SharingSecrecy
import GeneralHotStuff.ThresholdCoin

namespace general_hotstuff.verifiable_sharing.ThresholdVss

open general_hotstuff.quorums general_hotstuff.linalg interpolation
open general_hotstuff.common_coin.ThresholdCoin (deg eval getLagrange parties point positions
  point_injective point_ne_zero getLagrange_eq deg_eq_iff party_mem card_positions exists_position
  keys_unique)

/-! ## The model -/

section Model

variable {G : Type} [CommGroup G] {q : ℕ} (t n : ℕ) (group : PrimeOrderModGroup G q)

/-- `SetCoeff(f, 0, secret)`. -/
def SetCoeff (f : Vec (ZMod q)) (secret : ZMod q) : Vec (ZMod q) :=
  ⟨max 1 f.length, fun l => if l = 0 then secret else f.entry l⟩

def coeff (f : Vec (ZMod q)) (l : ℕ) : ZMod q := if l < f.length then f.entry l else 0

/-- The coefficients `f` and `f_prime` are those that `random_ZZ_pX` draws. For none it draws
again. -/
def share (secret : ZMod q) (f f_prime : Vec (ZMod q)) : Option (Sharing G q) :=
  if (f.length = t ∧ deg f = (t : ℤ) - 1) ∧ f_prime.length = t ∧ deg f_prime = (t : ℤ) - 1 then
    let f := SetCoeff f secret
    some
      { s := ⟨n, fun j => eval f ((j + 1 : ℕ) : ZMod q)⟩
        s_prime := ⟨n, fun j => eval f_prime ((j + 1 : ℕ) : ZMod q)⟩
        C := ⟨t, fun l => power group.g (coeff f l) * power group.h (coeff f_prime l)⟩ }
  else none

/-- The commitments to all coefficients have to exist. -/
def verify [DecidableEq G] (j : ℕ) (sj sj_prime : ZMod q) (C : Vec G) : Option Bool :=
  if t ≤ C.length then
    let point := ((j + 1 : ℕ) : ZMod q)
    let part1 := power group.g sj * power group.h sj_prime
    let part2 := ∏ l ∈ Finset.range t, power (C.entry l) (point ^ l)
    some (decide (part1 = part2))
  else none

/-- The value at zero of what `interpolate` finds, by the weights of the points. All shares are
passed. -/
def reconstruct (A : Finset ReplicaID) (s : Vec (ZMod q)) : Option (ZMod q) :=
  if n ≤ s.length then
    let js := parties n A
    (getLagrange ⟨js.length, fun k => ((js.getD k 0 + 1 : ℕ) : ZMod q)⟩).map fun coefs =>
      InnerProduct coefs ⟨js.length, fun k => s.entry (js.getD k 0)⟩
  else none

/-- `verify` accepts the pairs of the parties of `A`. -/
def Accepted [DecidableEq G] (C : Vec G) (A : Finset ReplicaID) (s s_prime : Vec (ZMod q)) : Prop :=
  ∀ j < n, j ∈ A → verify t group j (s.entry j) (s_prime.entry j) C = some true

end Model

section Threshold

variable {G : Type} [CommGroup G] {q : ℕ} [Fact q.Prime] {t n : ℕ}
  {group : PrimeOrderModGroup G q} {A B : Finset ReplicaID}

/-! ## What is dealt -/

/-- What `share` deals, by the coefficients `a` and `b` below `t`. -/
def dealtBy (t n : ℕ) (group : PrimeOrderModGroup G q) (a b : ℕ → ZMod q) : Sharing G q where
  s := ⟨n, fun j => value a t ((j + 1 : ℕ) : ZMod q)⟩
  s_prime := ⟨n, fun j => value b t ((j + 1 : ℕ) : ZMod q)⟩
  C := ⟨t, fun l => power group.g (if l < t then a l else 0) *
    power group.h (if l < t then b l else 0)⟩

theorem share_eq (ht : 0 < t) {secret : ZMod q} {f f_prime : Vec (ZMod q)} {dealt : Sharing G q} :
    share t n group secret f f_prime = some dealt ↔
      (f.length = t ∧ f.entry (t - 1) ≠ 0) ∧ (f_prime.length = t ∧ f_prime.entry (t - 1) ≠ 0) ∧
        dealt = dealtBy t n group (fun l => if l = 0 then secret else f.entry l) f_prime.entry := by
  have hdraw : ∀ f : Vec (ZMod q), (f.length = t ∧ deg f = (t : ℤ) - 1) ↔
      f.length = t ∧ f.entry (t - 1) ≠ 0 := by
    intro f
    apply and_congr_right
    rintro rfl
    rw [deg_eq_iff]
    exact or_iff_right (Nat.ne_of_gt ht)
  unfold share
  by_cases hdrawn : (f.length = t ∧ f.entry (t - 1) ≠ 0) ∧
      f_prime.length = t ∧ f_prime.entry (t - 1) ≠ 0
  · rw [if_pos ⟨(hdraw f).mpr hdrawn.1, (hdraw f_prime).mpr hdrawn.2⟩]
    obtain ⟨⟨hf, hlast⟩, hf', hlast'⟩ := hdrawn
    have hlen : max 1 f.length = t := by omega
    have heq : (⟨⟨n, fun j => eval (SetCoeff f secret) ((j + 1 : ℕ) : ZMod q)⟩,
        ⟨n, fun j => eval f_prime ((j + 1 : ℕ) : ZMod q)⟩,
        ⟨t, fun l => power group.g (coeff (SetCoeff f secret) l) *
          power group.h (coeff f_prime l)⟩⟩ : Sharing G q) =
        dealtBy t n group (fun l => if l = 0 then secret else f.entry l) f_prime.entry := by
      simp only [dealtBy, eval, SetCoeff, coeff, value, hlen, hf']
    simp only [heq, Option.some.injEq]
    exact ⟨fun h => ⟨⟨hf, hlast⟩, ⟨hf', hlast'⟩, h.symm⟩, fun h => h.2.2.symm⟩
  · rw [if_neg fun h => hdrawn ⟨(hdraw f).mp h.1, (hdraw f_prime).mp h.2⟩]
    constructor
    · intro h
      cases h
    · exact fun h => (hdrawn ⟨h.1, h.2.1⟩).elim

/-- From two coefficients on, what can be dealt is given by all coefficients with the secret in
front and no zero behind. -/
theorem shared_iff (ht : 1 < t) {secret : ZMod q} {dealt : Sharing G q} :
    (∃ f f_prime, share t n group secret f f_prime = some dealt) ↔
      ∃ a b : ℕ → ZMod q, a 0 = secret ∧ a (t - 1) ≠ 0 ∧ b (t - 1) ≠ 0 ∧
        dealt = dealtBy t n group a b := by
  have hlast : t - 1 ≠ 0 := by omega
  constructor
  · rintro ⟨f, f_prime, h⟩
    obtain ⟨⟨-, hf⟩, ⟨-, hf'⟩, hdealt⟩ := (share_eq (by omega)).mp h
    exact ⟨_, _, if_pos rfl, by rwa [if_neg hlast], hf', hdealt⟩
  · rintro ⟨a, b, rfl, ha, hb, hdealt⟩
    refine ⟨⟨t, a⟩, ⟨t, b⟩, (share_eq (by omega)).mpr ⟨⟨rfl, ha⟩, ⟨rfl, hb⟩, hdealt.trans ?_⟩⟩
    congr 1
    funext l
    split
    · rename_i hl
      rw [hl]
    · rfl

/-! ## Recombined shares -/

/-- What the shares of `A` give at zero. -/
theorem reconstruct_eq (hn : n < q) {s : Vec (ZMod q)} (hs : n ≤ s.length) :
    reconstruct n A s = some (∑ k ∈ positions n A,
      weight (positions n A) (point q n A) k * s.entry ((parties n A).getD k 0)) := by
  have hlagrange := getLagrange_eq (x := ⟨(parties n A).length, point q n A⟩) (point_injective hn)
  unfold reconstruct
  rw [if_pos hs]
  change (getLagrange ⟨(parties n A).length, point q n A⟩).map _ = _
  rw [hlagrange, Option.map_some, Option.some.injEq]
  unfold InnerProduct positions
  simp only [min_self]

theorem reconstruct_dealt (hn : n < q) (a b : ℕ → ZMod q) :
    reconstruct n A (dealtBy t n group a b).s = some (∑ k ∈ positions n A,
      weight (positions n A) (point q n A) k * value a t (point q n A k)) :=
  reconstruct_eq hn (Nat.le_refl n)

/-- The weights take the powers of the points to that of zero. -/
theorem sum_weight_pow (hn : n < q) (ht : t ≤ (positions n A).card) {l : ℕ} (hl : l < t) :
    ∑ k ∈ positions n A, weight (positions n A) (point q n A) k * point q n A k ^ l =
      if l = 0 then 1 else 0 := by
  have hpow : ∀ x : ZMod q, value (fun i => if i = l then 1 else 0) t x = x ^ l := by
    intro x
    unfold value
    rw [Finset.sum_eq_single_of_mem l (Finset.mem_range.mpr hl)]
    · simp only [if_true, one_mul]
    · intro i _ hi
      simp only [if_neg hi, zero_mul]
  have hsum := sum_weight_value (a := fun i => if i = l then (1 : ZMod q) else 0)
    (point_injective (A := A) hn) ht
  simp only [hpow] at hsum
  rw [hsum]
  split
  · rename_i h0
    rw [h0, pow_zero]
  · rename_i h0
    exact zero_pow h0

/-- Accepted shares of enough parties open the commitment to the secret. -/
theorem recombined_opens [DecidableEq G] (hn : n < q) (h0 : 0 < t)
    (ht : t ≤ (positions n A).card) {C : Vec G} {s s_prime : Vec (ZMod q)}
    (hacc : Accepted t n group C A s s_prime) :
    Opens group C
      (∑ k ∈ positions n A,
        weight (positions n A) (point q n A) k * s.entry ((parties n A).getD k 0))
      (∑ k ∈ positions n A,
        weight (positions n A) (point q n A) k * s_prime.entry ((parties n A).getD k 0)) := by
  have hcheck : ∀ k ∈ positions n A,
      power group.g (s.entry ((parties n A).getD k 0)) *
          power group.h (s_prime.entry ((parties n A).getD k 0)) =
        ∏ l ∈ Finset.range t, power (C.entry l) (point q n A k ^ l) := by
    intro k hk
    have hv := hacc _ (party_mem hk).1 (party_mem hk).2
    unfold verify at hv
    split at hv
    · exact of_decide_eq_true (Option.some.inj hv)
    · cases hv
  unfold Opens
  symm
  calc _ = ∏ k ∈ positions n A, power (power group.g (s.entry ((parties n A).getD k 0)) *
          power group.h (s_prime.entry ((parties n A).getD k 0)))
            (weight (positions n A) (point q n A) k) := by
        rw [power_sum group.order, power_sum group.order, ← Finset.prod_mul_distrib]
        apply Finset.prod_congr rfl
        intro k _
        rw [mul_power, mul_comm (weight _ _ k), mul_comm (weight _ _ k), power_mul group.order,
          power_mul group.order]
    _ = ∏ l ∈ Finset.range t, power (C.entry l)
          (∑ k ∈ positions n A, weight (positions n A) (point q n A) k * point q n A k ^ l) := by
        simp only [power_sum group.order]
        rw [Finset.prod_comm]
        apply Finset.prod_congr rfl
        intro k hk
        rw [hcheck k hk, prod_power]
        apply Finset.prod_congr rfl
        intro l _
        rw [mul_comm, power_mul group.order]
    _ = C.entry 0 := by
        rw [Finset.prod_eq_single_of_mem 0 (Finset.mem_range.mpr h0)]
        · rw [sum_weight_pow hn ht h0, if_pos rfl, power_one]
        · intro l hl hl0
          rw [sum_weight_pow hn ht (Finset.mem_range.mp hl), if_neg hl0, power_zero]

/-! ## Enough parties -/

/-- Whatever the dealer commits to, the accepted shares of two sets of `t` parties give one secret,
or the logarithm of `h`. And what an honest dealer shares is accepted, and gives its secret. -/
theorem the_threshold_sharing_binds_its_dealer {G : Type} [CommGroup G] [DecidableEq G] {q : ℕ}
    (hq : q.Prime) (group : PrimeOrderModGroup G q) {t n : ℕ} (h0 : 0 < t) (hn : n < q) :
    (∀ (C : Vec G) (A B : Finset ReplicaID) (s s_prime : Vec (ZMod q)),
      n ≤ s.length → n ≤ s_prime.length →
      t ≤ (Finset.range n ∩ A).card → t ≤ (Finset.range n ∩ B).card →
      Accepted t n group C A s s_prime → Accepted t n group C B s s_prime →
      ∃ a a_prime b b_prime,
        reconstruct n A s = some a ∧ reconstruct n A s_prime = some a_prime ∧
        reconstruct n B s = some b ∧ reconstruct n B s_prime = some b_prime ∧
        Opens group C a a_prime ∧ Opens group C b b_prime ∧
        (a = b ∨ a_prime ≠ b_prime ∧
          ∃ x : ZMod q, group.h = power group.g x ∧ a - b = x * (b_prime - a_prime))) ∧
    ∀ (secret : ZMod q) (f f_prime : Vec (ZMod q)) (dealt : Sharing G q),
      share t n group secret f f_prime = some dealt →
      (∀ j < n, verify t group j (dealt.s.entry j) (dealt.s_prime.entry j) dealt.C = some true) ∧
      ∀ A : Finset ReplicaID, t ≤ (Finset.range n ∩ A).card →
        reconstruct n A dealt.s = some secret := by
  have : Fact q.Prime := ⟨hq⟩
  constructor
  · intro C A B s s_prime hs hs' hA hB haccA haccB
    rw [← card_positions] at hA hB
    have hopenA := recombined_opens hn h0 hA haccA
    have hopenB := recombined_opens hn h0 hB haccB
    refine ⟨_, _, _, _, reconstruct_eq hn hs, reconstruct_eq hn hs', reconstruct_eq hn hs,
      reconstruct_eq hn hs', hopenA, hopenB, ?_⟩
    apply or_iff_not_imp_left.mpr
    exact fun hne => log_of_openings hne (hopenA.symm.trans hopenB)
  · intro secret f f_prime dealt h
    obtain ⟨-, -, rfl⟩ := (share_eq h0).mp h
    refine ⟨fun j _ => ?_, fun A hA => ?_⟩
    · refine (if_pos (Nat.le_refl t)).trans ?_
      rw [Option.some.injEq, decide_eq_true_iff]
      have hcheck := commitments_check group t (fun l => ((j + 1 : ℕ) : ZMod q) ^ l)
        (fun l => if l = 0 then secret else f.entry l) f_prime.entry
      simp only [mul_comm (((j + 1 : ℕ) : ZMod q) ^ _)] at hcheck
      refine hcheck.trans (Finset.prod_congr rfl fun l hl => ?_)
      have hlt : l < t := Finset.mem_range.mp hl
      simp only [dealtBy, if_pos hlt]
    · rw [← card_positions] at hA
      rw [reconstruct_dealt hn, sum_weight_value (point_injective hn) hA, Option.some.injEq]
      unfold value
      rw [Finset.sum_eq_single_of_mem 0 (Finset.mem_range.mpr h0)]
      · simp
      · intro l _ hl
        rw [zero_pow hl, mul_zero]

/-- The draw of both lines. -/
def ones : Vec (ZMod 5) := ⟨2, fun _ => 1⟩

theorem ones_shared (secret : ZMod 5) :
    ∃ dealt, share 2 3 addedModFive secret ones ones = some dealt := by
  have : Fact (Nat.Prime 5) := ⟨by decide⟩
  exact ⟨_, (share_eq (by decide)).mpr ⟨⟨rfl, one_ne_zero⟩, ⟨rfl, one_ne_zero⟩, rfl⟩⟩

theorem two_of_three_parties_are_bound_by_the_commitments :
    (∀ (C : Vec (Multiplicative (ZMod 5))) (A B : Finset ReplicaID) (s s_prime : Vec (ZMod 5)),
      3 ≤ s.length → 3 ≤ s_prime.length →
      2 ≤ (Finset.range 3 ∩ A).card → 2 ≤ (Finset.range 3 ∩ B).card →
      Accepted 2 3 addedModFive C A s s_prime → Accepted 2 3 addedModFive C B s s_prime →
      ∃ a a_prime b b_prime,
        reconstruct 3 A s = some a ∧ reconstruct 3 A s_prime = some a_prime ∧
        reconstruct 3 B s = some b ∧ reconstruct 3 B s_prime = some b_prime ∧
        Opens addedModFive C a a_prime ∧ Opens addedModFive C b b_prime ∧
        (a = b ∨ a_prime ≠ b_prime ∧ ∃ x : ZMod 5,
          addedModFive.h = power addedModFive.g x ∧ a - b = x * (b_prime - a_prime))) ∧
    ∃ dealt, share 2 3 addedModFive 4 ones ones = some dealt ∧
      (∀ j < 3, verify 2 addedModFive j (dealt.s.entry j) (dealt.s_prime.entry j) dealt.C =
        some true) ∧
      ∀ A : Finset ReplicaID, 2 ≤ (Finset.range 3 ∩ A).card →
        reconstruct 3 A dealt.s = some 4 := by
  have hbind := the_threshold_sharing_binds_its_dealer (q := 5) (t := 2) (n := 3) (by decide)
    addedModFive (by decide) (by decide)
  obtain ⟨dealt, hdealt⟩ := ones_shared 4
  exact ⟨hbind.1, dealt, hdealt, hbind.2 4 ones ones dealt hdealt⟩

/-! ## One party too few -/

/-- Another dealing of `secret` looks the same to the parties of `A`. -/
structure Fits (t n : ℕ) (group : PrimeOrderModGroup G q) (A : Finset ReplicaID)
    (dealt : Sharing G q) (secret : ZMod q) (dealt' : Sharing G q) : Prop where
  shared : ∃ f f_prime, share t n group secret f f_prime = some dealt'
  commitments : ∀ l < t, dealt'.C.entry l = dealt.C.entry l
  shares : ∀ j < n, j ∈ A → dealt'.s.entry j = dealt.s.entry j
  shares_prime : ∀ j < n, j ∈ A → dealt'.s_prime.entry j = dealt.s_prime.entry j

/-- The view of `A` in terms of the coefficients, where `x` is the logarithm of `h`. -/
theorem fits_iff (ht : 1 < t) {x : ZMod q} (hx : group.h = power group.g x) {a b : ℕ → ZMod q}
    {secret : ZMod q} {dealt' : Sharing G q} :
    Fits t n group A (dealtBy t n group a b) secret dealt' ↔
      ∃ c d : ℕ → ZMod q, (c 0 = secret ∧ c (t - 1) ≠ 0 ∧ d (t - 1) ≠ 0) ∧
        (∀ l < t, c l + x * d l = a l + x * b l) ∧
        (∀ k ∈ positions n A, value c t (point q n A k) = value a t (point q n A k)) ∧
        (∀ k ∈ positions n A, value d t (point q n A k) = value b t (point q n A k)) ∧
        dealt' = dealtBy t n group c d := by
  have hexp : ∀ a b : ℕ → ZMod q, ∀ l < t, (dealtBy t n group a b).C.entry l =
      power group.g (a l + x * b l) := by
    intro a b l hl
    simp only [dealtBy, if_pos hl]
    rw [hx, ← power_mul group.order, ← power_add group.order]
  constructor
  · rintro ⟨hshared, hC, hs, hs'⟩
    obtain ⟨c, d, hc0, hc, hd, rfl⟩ := (shared_iff ht).mp hshared
    refine ⟨c, d, ⟨hc0, hc, hd⟩, fun l hl => ?_, fun k hk => ?_, fun k hk => ?_, rfl⟩
    · have hl' := hC l hl
      rw [hexp c d l hl, hexp a b l hl] at hl'
      exact power_injective group hl'
    · exact hs _ (party_mem hk).1 (party_mem hk).2
    · exact hs' _ (party_mem hk).1 (party_mem hk).2
  · rintro ⟨c, d, ⟨hc0, hc, hd⟩, hexps, hvc, hvd, rfl⟩
    refine ⟨(shared_iff ht).mpr ⟨c, d, hc0, hc, hd, rfl⟩, fun l hl => ?_, fun j hj hA => ?_,
      fun j hj hA => ?_⟩
    · rw [hexp c d l hl, hexp a b l hl, hexps l hl]
    · obtain ⟨k, hk, rfl⟩ := exists_position hj hA
      exact hvc k hk
    · obtain ⟨k, hk, rfl⟩ := exists_position hj hA
      exact hvd k hk

theorem value_of_exponents {x : ZMod q} {a b c d : ℕ → ZMod q}
    (h : ∀ l < t, c l + x * d l = a l + x * b l) (y : ZMod q) :
    value c t y + x * value d t y = value a t y + x * value b t y := by
  unfold value
  rw [Finset.mul_sum, Finset.mul_sum, ← Finset.sum_add_distrib, ← Finset.sum_add_distrib]
  apply Finset.sum_congr rfl
  intro l hl
  linear_combination y ^ l * h l (Finset.mem_range.mp hl)

/-- Equal values of the first polynomials and equal commitments are equal sharings. -/
theorem dealtBy_congr {x : ZMod q} (hx0 : x ≠ 0) (hx : group.h = power group.g x)
    {a b c d : ℕ → ZMod q} (hvalue : ∀ y, value c t y = value a t y)
    (h : ∀ l < t, c l + x * d l = a l + x * b l) :
    dealtBy t n group c d = dealtBy t n group a b := by
  have hvalue' : ∀ y, value d t y = value b t y := by
    intro y
    have hsum := value_of_exponents h y
    rw [hvalue y] at hsum
    exact mul_left_cancel₀ hx0 (add_left_cancel hsum)
  unfold dealtBy
  simp only [hvalue, hvalue', hx, ← power_mul group.order, ← power_add group.order]
  congr 2
  funext l
  split
  · rename_i hl
    rw [h l hl]
  · rfl

theorem value_zero (ht : 0 < t) (c : ℕ → ZMod q) : value c t 0 = c 0 := by
  unfold value
  rw [Finset.sum_eq_single_of_mem 0 (Finset.mem_range.mpr ht)]
  · rw [pow_zero, mul_one]
  · intro l _ hl
    rw [zero_pow hl, mul_zero]

/-- What the shares of `A` give at zero misses the secret by the last coefficient. -/
theorem last_coefficient (hn : n < q) (hA : (positions n A).card + 1 = t) {a c : ℕ → ZMod q}
    (h : ∀ k ∈ positions n A, value c t (point q n A k) = value a t (point q n A k)) :
    c (t - 1) * ∏ k ∈ positions n A, -point q n A k = c 0 - ∑ k ∈ positions n A,
      weight (positions n A) (point q n A) k * value a t (point q n A k) := by
  have hsum := sum_weight_value_succ (a := c) (point_injective (A := A) hn)
  rw [hA, value_zero (by omega)] at hsum
  have hlast : t - 1 = (positions n A).card := by omega
  rw [hlast, ← Finset.sum_congr rfl fun k hk => congrArg (_ * ·) (h k hk), hsum]
  ring

/-- Because both polynomials are drawn until their degrees are the highest, the shares of one party
too few rule out the secret that these shares give, and at most one more. Every other secret
fits in exactly one way. -/
theorem one_party_too_few_rules_out_two_secrets {G : Type} [CommGroup G] {q : ℕ} (hq : q.Prime)
    (group : PrimeOrderModGroup G q) {t n : ℕ} (ht : 1 < t) (hn : n < q) {A : Finset ReplicaID}
    (hA : (Finset.range n ∩ A).card + 1 = t) {secret : ZMod q} {f f_prime : Vec (ZMod q)}
    {dealt : Sharing G q} (h : share t n group secret f f_prime = some dealt) :
    ∃ a₁ a₂, reconstruct n A dealt.s = some a₁ ∧
      (∀ dealt', ¬ Fits t n group A dealt a₁ dealt') ∧
      (∀ dealt', ¬ Fits t n group A dealt a₂ dealt') ∧
      ∀ a, a ≠ a₁ → a ≠ a₂ → ∃! dealt', Fits t n group A dealt a dealt' := by
  have : Fact q.Prime := ⟨hq⟩
  obtain ⟨-, -, rfl⟩ := (share_eq (by omega)).mp h
  obtain ⟨x, hx0, hx⟩ := exists_log group
  rw [← card_positions] at hA
  generalize (fun l => if l = 0 then secret else f.entry l) = a
  generalize f_prime.entry = b
  have hprod : ∏ k ∈ positions n A, -point q n A k ≠ 0 :=
    Finset.prod_ne_zero_iff.mpr fun k hk => neg_ne_zero.mpr (point_ne_zero hn hk)
  let a₁ := ∑ k ∈ positions n A, weight (positions n A) (point q n A) k *
    value a t (point q n A k)
  refine ⟨a₁, a₁ + (a (t - 1) + x * b (t - 1)) * ∏ k ∈ positions n A, -point q n A k,
    reconstruct_dealt hn a b, ?_, ?_, ?_⟩
  · intro dealt' hfits
    obtain ⟨c, d, ⟨hc0, hc, -⟩, -, hvc, -, -⟩ := (fits_iff ht hx).mp hfits
    have hlast := last_coefficient hn hA hvc
    rw [hc0, sub_self] at hlast
    exact (mul_ne_zero hc hprod) hlast
  · intro dealt' hfits
    obtain ⟨c, d, ⟨hc0, -, hd⟩, hexp, hvc, -, -⟩ := (fits_iff ht hx).mp hfits
    have hlast := last_coefficient hn hA hvc
    rw [hc0, add_sub_cancel_left] at hlast
    have heq := mul_right_cancel₀ hprod hlast
    have hexp' := hexp (t - 1) (by omega)
    rw [heq, add_eq_left] at hexp'
    exact mul_ne_zero hx0 hd hexp'
  · intro s₀ h1 h2
    obtain ⟨c, hvc, hc0, -⟩ := exists_value (point_injective (A := A) hn)
      (fun k hk => point_ne_zero hn hk) (fun k => value a t (point q n A k)) s₀
    rw [hA] at hvc hc0
    rw [value_zero (by omega)] at hc0
    have hlast := last_coefficient hn hA hvc
    -- the second polynomial makes up for the first one in every commitment
    let d : ℕ → ZMod q := fun l => b l + (a l - c l) / x
    have hexp : ∀ l < t, c l + x * d l = a l + x * b l := by
      intro l _
      simp only [d]
      field_simp
      ring
    have hvd : ∀ k ∈ positions n A, value d t (point q n A k) = value b t (point q n A k) := by
      intro k hk
      have hsum := value_of_exponents hexp (point q n A k)
      rw [hvc k hk] at hsum
      exact mul_left_cancel₀ hx0 (add_left_cancel hsum)
    have hc : c (t - 1) ≠ 0 := by
      intro hzero
      rw [hzero, zero_mul, hc0] at hlast
      exact h1 (sub_eq_zero.mp hlast.symm)
    have hd : d (t - 1) ≠ 0 := by
      intro hzero
      have hexp' := hexp (t - 1) (by omega)
      rw [hzero, mul_zero, add_zero] at hexp'
      rw [hexp', hc0] at hlast
      exact h2 (sub_eq_iff_eq_add'.mp hlast.symm)
    refine ⟨dealtBy t n group c d,
      (fits_iff ht hx).mpr ⟨c, d, ⟨hc0, hc, hd⟩, hexp, hvc, hvd, rfl⟩, ?_⟩
    intro dealt' hfits
    obtain ⟨c', d', ⟨hc0', -, -⟩, hexp', hvc', -, rfl⟩ := (fits_iff ht hx).mp hfits
    have hzero : value c' t 0 = value c t 0 := by
      rw [value_zero (by omega), value_zero (by omega), hc0', hc0]
    have hsame : ∀ k ∈ positions n A, value c' t (point q n A k) = value c t (point q n A k) :=
      fun k hk => (hvc' k hk).trans (hvc k hk).symm
    have hvalue : ∀ y, value c' t y = value c t y :=
      @keys_unique q n A _ hn ⟨t, c'⟩ ⟨t, c⟩ hA.symm hA.symm hsame hzero
    exact dealtBy_congr hx0 hx hvalue fun l hl => (hexp' l hl).trans (hexp l hl).symm

theorem party_1_of_three_rules_out_two_secrets :
    ∃ dealt, share 2 3 addedModFive 4 ones ones = some dealt ∧ ∃ a₁ a₂,
      reconstruct 3 {1} dealt.s = some a₁ ∧
      (∀ dealt', ¬ Fits 2 3 addedModFive {1} dealt a₁ dealt') ∧
      (∀ dealt', ¬ Fits 2 3 addedModFive {1} dealt a₂ dealt') ∧
      ∀ a, a ≠ a₁ → a ≠ a₂ → ∃! dealt', Fits 2 3 addedModFive {1} dealt a dealt' := by
  obtain ⟨dealt, hdealt⟩ := ones_shared 4
  exact ⟨dealt, hdealt, one_party_too_few_rules_out_two_secrets (by decide) addedModFive
    (by decide) (by decide) (by decide) hdealt⟩

end Threshold

end general_hotstuff.verifiable_sharing.ThresholdVss
