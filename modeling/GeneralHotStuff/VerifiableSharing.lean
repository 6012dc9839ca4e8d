-- The verifiable secret sharing of `microbench_vss.cpp`: a dealer commits to its
-- dealing vectors, each share is checked in the exponent, and a set that the
-- formula accepts recombines its shares.
import GeneralHotStuff.MspLaws
import Mathlib.GroupTheory.OrderOfElement

namespace general_hotstuff.verifiable_sharing

open general_hotstuff.quorums general_hotstuff.linalg unit_span

/-! ## The model -/

/-- A group of order `q` with two generators. -/
structure PrimeOrderModGroup (G : Type) [CommGroup G] (q : ℕ) where
  g : G
  h : G
  order : Nat.card G = q
  g_generates : ∀ x : G, ∃ k < q, g ^ k = x
  h_generates : ∀ x : G, ∃ k < q, h ^ k = x

section Model

variable {G : Type} [CommGroup G] {q : ℕ}

/-- `power(x, rep(e))`. -/
def power (x : G) (e : ZMod q) : G := x ^ e.val

/-- What `share` gives out. -/
structure Sharing (G : Type) (q : ℕ) where
  s : Vec (ZMod q)
  s_prime : Vec (ZMod q)
  C : Vec G

/-- The vectors `r` and `r_prime` are the ones that `random_vec_ZZ_p` draws. With no column
there is no first entry to write. -/
def share (msp : Msp q) (group : PrimeOrderModGroup G q) (secret : ZMod q)
    (r r_prime : Vec (ZMod q)) : Option (Sharing G q) :=
  if 0 < msp.d then
    let r : Vec (ZMod q) := ⟨r.length, fun l => if l = 0 then secret else r.entry l⟩
    some
      { s := msp.M.mulVec r
        s_prime := msp.M.mulVec r_prime
        C := ⟨msp.d, fun l => power group.g (r.entry l) * power group.h (r_prime.entry l)⟩ }
  else none

/-- The row `j` and the commitments to all columns have to exist. -/
def verify [DecidableEq G] (msp : Msp q) (group : PrimeOrderModGroup G q) (j : ℕ)
    (sj sj_prime : ZMod q) (C : Vec G) : Option Bool :=
  if j < msp.m ∧ msp.d ≤ C.length then
    let part1 := power group.g sj * power group.h sj_prime
    let part2 := ∏ l ∈ Finset.range msp.d, power (C.entry l) (msp.M.entry j l)
    some (decide (part1 = part2))
  else none

/-- The entries of `s` for the rows that the replicas of `A` own. -/
def sharesOwned (msp : Msp q) (A : Finset ReplicaID) (s : Vec (ZMod q)) : Vec (ZMod q) :=
  let rows := (List.range s.length).filter fun j => decide (msp.L.getD j 0 ∈ A)
  ⟨rows.length, fun k => s.entry (rows.getD k 0)⟩

/-- The product of two vectors, which NTL cuts to the shorter one. -/
def InnerProduct (a b : Vec (ZMod q)) : ZMod q :=
  ∑ k ∈ Finset.range (min a.length b.length), a.entry k * b.entry k

/-- A share past the last row has no owner to look up. -/
def reconstruct (msp : Msp q) (A : Finset ReplicaID) (s : Vec (ZMod q)) : Option (ZMod q) :=
  if s.length ≤ msp.L.length then
    (msp.getRecombinationVector A).map fun lambda_A => InnerProduct lambda_A (sharesOwned msp A s)
  else none

/-- `verify` accepts the pairs of `s` and `s_prime` on every row that `A` owns. -/
def Accepted [DecidableEq G] (msp : Msp q) (group : PrimeOrderModGroup G q) (C : Vec G)
    (A : Finset ReplicaID) (s s_prime : Vec (ZMod q)) : Prop :=
  ∀ j ∈ msp.ownedRows A, verify msp group j (s.entry j) (s_prime.entry j) C = some true

/-- The pair opens the commitment `C[0]`. -/
def Opens (group : PrimeOrderModGroup G q) (C : Vec G) (a a_prime : ZMod q) : Prop :=
  C.entry 0 = power group.g a * power group.h a_prime

end Model

/-! ## Exponents -/

section Exponents

variable {G : Type} [CommGroup G] {q : ℕ}

theorem power_zero (x : G) : power x (0 : ZMod q) = 1 := by
  unfold power
  rw [ZMod.val_zero, pow_zero]

theorem power_one [Fact q.Prime] (x : G) : power x (1 : ZMod q) = x := by
  unfold power
  rw [ZMod.val_one, pow_one]

/-- Exponents count modulo the order of the group. -/
theorem pow_mod_order (hG : Nat.card G = q) (x : G) (n : ℕ) : x ^ (n % q) = x ^ n := by
  rw [← hG]
  exact pow_mod_natCard x n

theorem power_add [NeZero q] (hG : Nat.card G = q) (x : G) (a b : ZMod q) :
    power x (a + b) = power x a * power x b := by
  unfold power
  rw [ZMod.val_add, pow_mod_order hG, pow_add]

theorem power_mul [NeZero q] (hG : Nat.card G = q) (x : G) (a b : ZMod q) :
    power x (a * b) = power (power x a) b := by
  unfold power
  rw [ZMod.val_mul, pow_mod_order hG, pow_mul]

theorem mul_power (x y : G) (a : ZMod q) : power (x * y) a = power x a * power y a := by
  unfold power
  exact mul_pow x y a.val

theorem prod_power {ι : Type} (S : Finset ι) (f : ι → G) (a : ZMod q) :
    power (∏ i ∈ S, f i) a = ∏ i ∈ S, power (f i) a := by
  unfold power
  exact Finset.prod_pow S a.val f |>.symm

theorem power_sum [NeZero q] (hG : Nat.card G = q) (x : G) {ι : Type} (S : Finset ι)
    (f : ι → ZMod q) : power x (∑ i ∈ S, f i) = ∏ i ∈ S, power x (f i) := by
  classical
  induction S using Finset.induction_on with
  | empty => simp [power_zero]
  | insert i S hi ih => rw [Finset.sum_insert hi, Finset.prod_insert hi, power_add hG, ih]

end Exponents

/-! ## Recombined shares -/

section Recombined

variable {G : Type} [CommGroup G] {q : ℕ}

/-- With one share for each row, the sum over the owned shares runs over the owned rows. -/
theorem reconstruct_eq {msp : Msp q} {A : Finset ReplicaID} {x s : Vec (ZMod q)}
    (hL : msp.L.length = msp.m) (hx : msp.getRecombinationVector A = some x)
    (hlen : x.length = (msp.ownedRows A).length) (hs : s.length = msp.m) :
    reconstruct msp A s = some (∑ k ∈ Finset.range (msp.ownedRows A).length,
      x.entry k * s.entry ((msp.ownedRows A).getD k 0)) := by
  have howned : sharesOwned msp A s =
      ⟨(msp.ownedRows A).length, fun k => s.entry ((msp.ownedRows A).getD k 0)⟩ := by
    unfold sharesOwned Msp.ownedRows
    rw [hs]
  unfold reconstruct InnerProduct
  rw [if_pos (by omega), hx, Option.map_some, howned, hlen, Nat.min_self]

theorem verify_eq_true [DecidableEq G] {msp : Msp q} {group : PrimeOrderModGroup G q} {j : ℕ}
    {sj sj_prime : ZMod q} {C : Vec G}
    (h : verify msp group j sj sj_prime C = some true) :
    power group.g sj * power group.h sj_prime =
      ∏ l ∈ Finset.range msp.d, power (C.entry l) (msp.M.entry j l) := by
  unfold verify at h
  split at h
  · simpa using h
  · cases h

/-- Coefficients that combine the owned rows to the first unit vector take the commitments to
`C[0]`. -/
theorem prod_rows_eq [Fact q.Prime] (hG : Nat.card G = q) {msp : Msp q} (hd : 0 < msp.d)
    {A : Finset ReplicaID} {x : ℕ → ZMod q} (hrec : msp.Recombines A x) (C : ℕ → G) :
    ∏ k ∈ Finset.range (msp.ownedRows A).length,
      power (∏ l ∈ Finset.range msp.d,
        power (C l) (msp.M.entry ((msp.ownedRows A).getD k 0) l)) (x k) = C 0 := by
  have hrow : ∀ k, power (∏ l ∈ Finset.range msp.d,
      power (C l) (msp.M.entry ((msp.ownedRows A).getD k 0) l)) (x k) =
        ∏ l ∈ Finset.range msp.d,
          power (C l) (msp.M.entry ((msp.ownedRows A).getD k 0) l * x k) := by
    intro k
    rw [prod_power]
    simp only [power_mul hG]
  simp only [hrow]
  rw [Finset.prod_comm]
  simp only [← power_sum hG]
  rw [Finset.prod_eq_single_of_mem 0 (Finset.mem_range.mpr hd)]
  · rw [hrec 0 hd, if_pos rfl, power_one]
  · intro l hl hl0
    rw [hrec l (Finset.mem_range.mp hl), if_neg hl0, power_zero]

/-- The pair that an accepting set recombines opens `C[0]`, whoever chose the commitments. -/
theorem recombined_opens [Fact q.Prime] [DecidableEq G] {msp : Msp q} (hd : 0 < msp.d)
    {group : PrimeOrderModGroup G q} {C : Vec G} {A : Finset ReplicaID} {x : ℕ → ZMod q}
    (hrec : msp.Recombines A x) {s s_prime : Vec (ZMod q)}
    (hacc : Accepted msp group C A s s_prime) :
    Opens group C
      (∑ k ∈ Finset.range (msp.ownedRows A).length,
        x k * s.entry ((msp.ownedRows A).getD k 0))
      (∑ k ∈ Finset.range (msp.ownedRows A).length,
        x k * s_prime.entry ((msp.ownedRows A).getD k 0)) := by
  unfold Opens
  rw [← prod_rows_eq group.order hd hrec C.entry, power_sum group.order, power_sum group.order,
    ← Finset.prod_mul_distrib]
  apply Finset.prod_congr rfl
  intro k hk
  have hmem : (msp.ownedRows A).getD k 0 ∈ msp.ownedRows A := by
    rw [List.getD_eq_getElem _ _ (Finset.mem_range.mp hk)]
    exact List.getElem_mem _
  rw [← verify_eq_true (hacc _ hmem), mul_power, mul_comm (x k), mul_comm (x k),
    power_mul group.order, power_mul group.order]

end Recombined

/-! ## Dealt shares -/

section Dealt

variable {G : Type} [CommGroup G] {q : ℕ}

/-- A commitment to `r l` and `r' l` in each column checks the shares of a row. -/
theorem commitments_check [NeZero q] (group : PrimeOrderModGroup G q) (d : ℕ)
    (row r r_prime : ℕ → ZMod q) :
    power group.g (∑ l ∈ Finset.range d, row l * r l) *
        power group.h (∑ l ∈ Finset.range d, row l * r_prime l) =
      ∏ l ∈ Finset.range d,
        power (power group.g (r l) * power group.h (r_prime l)) (row l) := by
  rw [power_sum group.order, power_sum group.order, ← Finset.prod_mul_distrib]
  apply Finset.prod_congr rfl
  intro l _
  rw [mul_power, mul_comm (row l), mul_comm (row l), power_mul group.order,
    power_mul group.order]

/-- `verify` accepts every share that `share` deals. -/
theorem dealt_shares_accepted [NeZero q] [DecidableEq G] {msp : Msp q}
    {group : PrimeOrderModGroup G q} {secret : ZMod q} {r r_prime : Vec (ZMod q)}
    {dealt : Sharing G q} (h : share msp group secret r r_prime = some dealt) {j : ℕ}
    (hj : j < msp.m) :
    verify msp group j (dealt.s.entry j) (dealt.s_prime.entry j) dealt.C = some true := by
  unfold share at h
  split at h
  · cases h
    unfold verify
    rw [if_pos ⟨hj, Nat.le_refl _⟩]
    simp only [Option.some.injEq, decide_eq_true_eq]
    exact commitments_check group msp.d (msp.M.entry j) _ _
  · cases h

end Dealt

/-! ## The sharing binds its dealer -/

/-- Whatever the dealer commits to, two sets that the formula accepts and whose shares `verify`
accepts recombine the same secret, or they hold two openings of one commitment. And an honest
dealer's shares are all accepted and give every such set the secret. -/
theorem the_sharing_binds_its_dealer {q : ℕ} (hq : q.Prime) {G : Type} [CommGroup G]
    [DecidableEq G] (group : PrimeOrderModGroup G q) {t : Theta}
    (ht : t.AllNodes fun k n => 1 ≤ k ∧ n < q) :
    ∃ msp, create q t = some msp ∧
      (∀ (C : Vec G) (A B : Finset ReplicaID) (s s_prime : Vec (ZMod q)),
        C.length = msp.d → s.length = msp.m → s_prime.length = msp.m →
        evalFomula t A = true → evalFomula t B = true →
        Accepted msp group C A s s_prime → Accepted msp group C B s s_prime →
        ∃ a a_prime b b_prime,
          reconstruct msp A s = some a ∧ reconstruct msp A s_prime = some a_prime ∧
          reconstruct msp B s = some b ∧ reconstruct msp B s_prime = some b_prime ∧
          Opens group C a a_prime ∧ Opens group C b b_prime ∧
          (a = b ∨ (a, a_prime) ≠ (b, b_prime))) ∧
      ∀ (secret : ZMod q) (r r_prime : Vec (ZMod q)),
        r.length = msp.d → r_prime.length = msp.d →
        ∃ dealt, share msp group secret r r_prime = some dealt ∧
          (∀ j < msp.m,
            verify msp group j (dealt.s.entry j) (dealt.s_prime.entry j) dealt.C = some true) ∧
          ∀ A, evalFomula t A = true → reconstruct msp A dealt.s = some secret := by
  have : Fact q.Prime := ⟨hq⟩
  obtain ⟨msp, hc, hprep, hm, hL, hspan⟩ := create_spec (p := q) (ht.mono fun k n h => h.1)
  have howners : msp.L.length = msp.m := by rw [hL, hm]
  have hvector : ∀ A, evalFomula t A = true → ∃ x, msp.getRecombinationVector A = some x ∧
      x.length = (msp.ownedRows A).length ∧ msp.Recombines A x.entry := by
    intro A hA
    apply hprep.recombination
    rw [hspan, evalResidues_of_lt A (ht.mono fun k n h => h.2), hA]
  refine ⟨msp, hc, ?_, ?_⟩
  · intro C A B s s_prime _ hs hs' hA hB haccA haccB
    obtain ⟨x, hx, hxlen, hxrec⟩ := hvector A hA
    obtain ⟨y, hy, hylen, hyrec⟩ := hvector B hB
    refine ⟨_, _, _, _, reconstruct_eq howners hx hxlen hs, reconstruct_eq howners hx hxlen hs',
      reconstruct_eq howners hy hylen hs, reconstruct_eq howners hy hylen hs',
      recombined_opens hprep.pos hxrec haccA, recombined_opens hprep.pos hyrec haccB, ?_⟩
    apply or_iff_not_imp_left.mpr
    intro hne hpairs
    exact hne (congrArg Prod.fst hpairs)
  · intro secret r r_prime _ _
    have hdeal : ∃ dealt, share msp group secret r r_prime = some dealt ∧
        dealt.s = msp.M.mulVec ⟨r.length, fun l => if l = 0 then secret else r.entry l⟩ := by
      unfold share
      rw [if_pos hprep.pos]
      exact ⟨_, rfl, rfl⟩
    obtain ⟨dealt, hdealt, hshares⟩ := hdeal
    refine ⟨dealt, hdealt, fun j hj => dealt_shares_accepted hdealt hj, ?_⟩
    intro A hA
    obtain ⟨x, hx, hxlen, hxrec⟩ := hvector A hA
    rw [reconstruct_eq howners hx hxlen (by rw [hshares]; rfl), hshares, Option.some.injEq]
    exact hxrec.sum_shares hprep.pos fun l => if l = 0 then secret else r.entry l

/-- The integers modulo 5, written as a group of order 5. -/
def addedModFive : PrimeOrderModGroup (Multiplicative (ZMod 5)) 5 where
  g := Multiplicative.ofAdd 1
  h := Multiplicative.ofAdd 2
  order := by simp
  g_generates := by decide
  h_generates := by decide

theorem the_sharing_of_two_of_three_binds_its_dealer :
    ∃ msp, create 5 twoOfThree = some msp ∧
      (∀ (C : Vec (Multiplicative (ZMod 5))) (A B : Finset ReplicaID)
          (s s_prime : Vec (ZMod 5)),
        C.length = msp.d → s.length = msp.m → s_prime.length = msp.m →
        evalFomula twoOfThree A = true → evalFomula twoOfThree B = true →
        Accepted msp addedModFive C A s s_prime → Accepted msp addedModFive C B s s_prime →
        ∃ a a_prime b b_prime,
          reconstruct msp A s = some a ∧ reconstruct msp A s_prime = some a_prime ∧
          reconstruct msp B s = some b ∧ reconstruct msp B s_prime = some b_prime ∧
          Opens addedModFive C a a_prime ∧ Opens addedModFive C b b_prime ∧
          (a = b ∨ (a, a_prime) ≠ (b, b_prime))) ∧
      ∀ (secret : ZMod 5) (r r_prime : Vec (ZMod 5)),
        r.length = msp.d → r_prime.length = msp.d →
        ∃ dealt, share msp addedModFive secret r r_prime = some dealt ∧
          (∀ j < msp.m, verify msp addedModFive j (dealt.s.entry j) (dealt.s_prime.entry j)
            dealt.C = some true) ∧
          ∀ A, evalFomula twoOfThree A = true → reconstruct msp A dealt.s = some secret := by
  exact the_sharing_binds_its_dealer (by decide) addedModFive twoOfThree_bounded

end general_hotstuff.verifiable_sharing
