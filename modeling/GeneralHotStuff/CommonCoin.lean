-- The common coin of `microbench_coin.cpp`: every share of a secret gives a share of the coin
-- with a proof, and the shares of enough replicas combine to the coin. Its numbers are those
-- modulo `p`, of which `verify` never asks whether they are in the group.
import GeneralHotStuff.MspLaws
import GeneralHotStuff.EqualExponents

namespace general_hotstuff.common_coin

open general_hotstuff.quorums general_hotstuff.linalg unit_span equal_exponents

/-! ## The model -/

/-- The numbers `g` and `h` generate the group of order `q`, unless `getGroup` draws the zero. -/
structure PrimeOrderModGroup (p q : ℕ) where
  g : ZMod p
  h : ZMod p
  g_pow : g ^ q = 1
  h_pow : h ^ q = 1
  g_ne_one : g ≠ 1
  h_ne_one : h ≠ 1

/-- The squares modulo 11 are a group of order 5. -/
def squares : PrimeOrderModGroup 11 5 where
  g := 5
  h := 9
  g_pow := by decide
  h_pow := by decide
  g_ne_one := by decide
  h_ne_one := by decide

structure ValidityProof (q : ℕ) where
  c : ZMod q
  z : ZMod q

/-- What a call of `H_prime` gives for its six numbers. It reads a buffer that is no more, so that
another call need not give the same. -/
abbrev HPrime (p q : ℕ) := ZMod p → ZMod p → ZMod p → ZMod p → ZMod p → ZMod p → ZMod q

/-- A hash that adds up the numbers. -/
def added : HPrime 11 5 := fun h1 h2 h3 h4 h5 h6 =>
  ((h1.val + h2.val + h3.val + h4.val + h5.val + h6.val : ℕ) : ZMod 5)

/-- `c_str` with the length that `strlen` finds. -/
def c_str (message : List Char) : List Char := message.takeWhile fun c => c ≠ Char.ofNat 0

/-- What `keyGen` gives out. -/
structure Keys (p q : ℕ) where
  s : Vec (ZMod q)
  V0 : ZMod p
  V : Vec (ZMod p)
  secret : ZMod q

section Model

variable {p q : ℕ} (G : PrimeOrderModGroup p q) (digest_message : List Char → ℕ)
  (H_prime : HPrime p q)

/-- The exponent of `H`, for the number that `digest_message` makes of the message. -/
def H_exponent (message : List Char) : ℕ := (digest_message (c_str message) + 1) % q

def H (message : List Char) : ZMod p := G.g ^ H_exponent (q := q) digest_message message

/-- The number `r` is the one that `random_ZZ_p` draws. Both coins have the same. -/
def generateCoinShare (C : List Char) (sj : ZMod q) (Vj : ZMod p) (r : ZMod q) :
    ZMod p × ValidityProof q :=
  let gtilde := H G digest_message C
  let gtildej := power gtilde sj
  let hj := power G.g r
  let htildej := power gtilde r
  let c := H_prime G.g Vj hj gtilde gtildej htildej
  (gtildej, ⟨c, r - sj * c⟩)

def verify (C : List Char) (Vj coinj : ZMod p) (proofj : ValidityProof q) : Bool :=
  let gtilde := H G digest_message C
  let hj := power G.g proofj.z * power Vj proofj.c
  let htildej := power gtilde proofj.z * power coinj proofj.c
  decide (H_prime G.g Vj hj gtilde coinj htildej = proofj.c)

/-- The coin shares with their proofs, for the keys of all rows or parties. -/
def coin_shares (keys : Keys p q) (C : List Char) (r : ℕ → ZMod q) : Vec (ZMod p) :=
  ⟨keys.s.length, fun j =>
    (generateCoinShare G digest_message H_prime C (keys.s.entry j) (keys.V.entry j) (r j)).1⟩

def validity_proofs (keys : Keys p q) (C : List Char) (r : ℕ → ZMod q) (j : ℕ) :
    ValidityProof q :=
  (generateCoinShare G digest_message H_prime C (keys.s.entry j) (keys.V.entry j) (r j)).2

/-- The shares, with what both key generations make public of them. -/
def Keys.of (s : Vec (ZMod q)) (secret : ZMod q) : Keys p q where
  s := s
  V0 := power G.g secret
  V := ⟨s.length, fun j => power G.g (s.entry j)⟩
  secret := secret

/-- The factors `power(shares[k], rep(coefficients[k]))` for every share. A coefficient past the
last one is not there. -/
def product (shares : Vec (ZMod p)) (coefficients : Vec (ZMod q)) : Option (ZMod p) :=
  if shares.length ≤ coefficients.length then
    some (∏ k ∈ Finset.range shares.length, power (shares.entry k) (coefficients.entry k))
  else none

end Model

/-! ## ThresholdCoin -/

namespace ThresholdCoin

variable {p q : ℕ}

/-- The highest of the coefficients that is not zero, or -1. -/
def deg (f : Vec (ZMod q)) : ℤ :=
  (((List.range f.length).filter fun i => decide (f.entry i ≠ 0)).getLast?.map
    fun i : ℕ => (i : ℤ)).getD (-1)

def eval (f : Vec (ZMod q)) (x : ZMod q) : ZMod q :=
  ∑ i ∈ Finset.range f.length, f.entry i * x ^ i

/-- The coefficients `f` are those that `random_ZZ_pX` draws. For none it draws again. -/
def keyGen (G : PrimeOrderModGroup p q) (t n : ℕ) (f : Vec (ZMod q)) : Option (Keys p q) :=
  if f.length = t ∧ deg f = (t : ℤ) - 1 then
    some (Keys.of G ⟨n, fun j => eval f ((j + 1 : ℕ) : ZMod q)⟩ (if 0 < t then f.entry 0 else 0))
  else none

/-- Two equal points divide by zero. -/
def getLagrange (x : Vec (ZMod q)) : Option (Vec (ZMod q)) :=
  if ∀ j < x.length, ∀ k < x.length, k ≠ j → x.entry k - x.entry j ≠ 0 then
    some ⟨x.length, fun j => ∏ k ∈ Finset.range x.length,
      if k = j then 1 else x.entry k * (x.entry k - x.entry j)⁻¹⟩
  else none

/-- The parties of `A` among the `n`, in increasing order. -/
def parties (n : ℕ) (A : Finset ReplicaID) : List ℕ :=
  (List.range n).filter fun j => decide (j ∈ A)

/-- There is a share for each of the `n` parties. -/
def combine (q n : ℕ) (A : Finset ReplicaID) (coin_shares : Vec (ZMod p)) :
    Option (ZMod p) :=
  if n ≤ coin_shares.length then
    let js := parties n A
    (getLagrange ⟨js.length, fun k => ((js.getD k 0 + 1 : ℕ) : ZMod q)⟩).bind
      fun lagrange_coefs =>
        product ⟨js.length, fun k => coin_shares.entry (js.getD k 0)⟩ lagrange_coefs
  else none

end ThresholdCoin

/-! ## GeneralizedCoin -/

namespace GeneralizedCoin

variable {p q : ℕ}

/-- The vector `r` is the one that `random_vec_ZZ_p` draws, with one entry for each column. With
no column there is no first entry to read. -/
def keyGen (msp : Msp q) (G : PrimeOrderModGroup p q) (r : Vec (ZMod q)) : Option (Keys p q) :=
  if 0 < msp.d then some (Keys.of G (msp.M.mulVec r) (r.entry 0)) else none

/-- A share past the last row has no owner to look up. -/
def combine (msp : Msp q) (A : Finset ReplicaID) (coin_shares : Vec (ZMod p)) :
    Option (ZMod p) :=
  if coin_shares.length ≤ msp.L.length then
    (msp.getRecombinationVector A).bind fun lambda_A =>
      let rows := (List.range coin_shares.length).filter fun j => decide (msp.L.getD j 0 ∈ A)
      product ⟨rows.length, fun k => coin_shares.entry (rows.getD k 0)⟩ lambda_A
  else none

/-- The parties join in the order of the list, until they are authorized. -/
def getAuthorizedSet (msp : Msp q) :
    List ReplicaID → Finset ReplicaID → Option (Finset ReplicaID)
  | [], _ => none
  | rid :: all_parties, auth_set =>
    (msp.isAuthorizedGroup (insert rid auth_set)).bind fun authorized =>
      if authorized then some (insert rid auth_set)
      else getAuthorizedSet msp all_parties (insert rid auth_set)

end GeneralizedCoin

/-! ## Shares and their proofs -/

section Proofs

variable {p q : ℕ} {G : PrimeOrderModGroup p q} {digest_message : List Char → ℕ}
  {H_prime : HPrime p q} {C : List Char}

theorem H_pow (C : List Char) : H G digest_message C ^ q = 1 := by
  unfold H
  rw [← pow_mul, mul_comm, pow_mul, G.g_pow, one_pow]

/-- The coin of a message is a power of the generator that everyone knows. -/
theorem power_H (e : ZMod q) : power (H G digest_message C) e =
    power G.g e ^ H_exponent (q := q) digest_message C := by
  unfold H power
  rw [← pow_mul, ← pow_mul, mul_comm]

theorem verify_iff {Vj coinj : ZMod p} {proofj : ValidityProof q} {h h' : ZMod p}
    (hcom : commitments G.g Vj (H G digest_message C) coinj proofj.c proofj.z = (h, h')) :
    verify G digest_message H_prime C Vj coinj proofj = true ↔
      H_prime G.g Vj h (H G digest_message C) coinj h' = proofj.c := by
  unfold commitments at hcom
  unfold verify
  simp only [Prod.mk.injEq] at hcom
  simp only [hcom, decide_eq_true_eq]

/-- Whoever knows the exponent can have a share accepted that is off by a factor `w`, if the
challenge takes the factor to what he has committed to. -/
theorem verify_of_power_eq [NeZero q] {s r c : ZMod q} {w x h' : ZMod p}
    (hx : x = power (H G digest_message C) s * w)
    (hc : c = H_prime G.g (power G.g s) (power G.g r) (H G digest_message C) x h')
    (hw : power (H G digest_message C) r * power w c = h') :
    verify G digest_message H_prime C (power G.g s) x ⟨c, r - s * c⟩ = true := by
  have hH : H G digest_message C ^ q = 1 := H_pow C
  have hcom := answer_commits G.g_pow hH s c r w
  rw [← hx, hw] at hcom
  rw [verify_iff hcom, ← hc]

/-- `verify` accepts a share of `generateCoinShare` when its own call of `H_prime` gives the number
that the call before it gave for the proof. -/
theorem generated_share_accepted_iff [NeZero q] (H_prime' : HPrime p q) (s r : ZMod q) :
    verify G digest_message H_prime' C (power G.g s)
        (generateCoinShare G digest_message H_prime C s (power G.g s) r).1
        (generateCoinShare G digest_message H_prime C s (power G.g s) r).2 = true ↔
      H_prime' G.g (power G.g s) (power G.g r) (H G digest_message C)
          (generateCoinShare G digest_message H_prime C s (power G.g s) r).1
          (power (H G digest_message C) r) =
        (generateCoinShare G digest_message H_prime C s (power G.g s) r).2.c := by
  have hH : H G digest_message C ^ q = 1 := H_pow C
  have hcom := answer_commits G.g_pow hH s
    (generateCoinShare G digest_message H_prime C s (power G.g s) r).2.c r 1
  rw [mul_one, one_power, mul_one] at hcom
  exact verify_iff hcom

theorem product_eq {shares : Vec (ZMod p)} {coefficients : Vec (ZMod q)} {m : ℕ}
    (hm : shares.length = m) (hlen : coefficients.length = m) :
    product shares coefficients =
      some (∏ k ∈ Finset.range m, power (shares.entry k) (coefficients.entry k)) := by
  unfold product
  rw [if_pos (by omega), hm]

/-- Coefficients that take the shares of the secret to `e` take the coin shares to the power `e`
of the base of the coin. -/
theorem prod_shares [NeZero q] {m : ℕ} {e : ZMod q} {x s : ℕ → ZMod q}
    (he : ∑ k ∈ Finset.range m, x k * s k = e) :
    ∏ k ∈ Finset.range m, power (power (H G digest_message C) (s k)) (x k) =
      power G.g e ^ H_exponent (q := q) digest_message C := by
  rw [← power_H, ← he, power_sum (H_pow C)]
  apply Finset.prod_congr rfl
  intro k _
  rw [mul_comm (x k), power_mul (H_pow C)]

end Proofs

/-! ## The coin of a formula -/

namespace GeneralizedCoin

section Formula

variable {p q : ℕ} {G : PrimeOrderModGroup p q} {digest_message : List Char → ℕ}
  {H_prime : HPrime p q} {C : List Char} {t : Theta} {msp : Msp q}

/-- The program that `create` makes of a formula, with what its rows are good for. -/
theorem create_decides [Fact q.Prime] (ht : t.AllNodes fun k n => 1 ≤ k ∧ n < q) :
    ∃ msp, create q t = some msp ∧ msp.Prepared ∧ msp.L.length = msp.m ∧
      ∀ A, SpansE1 msp.m msp.d msp.M.entry (msp.Owns A) ↔ evalFomula t A = true := by
  obtain ⟨msp, hc, hprep, hm, hL, hspan⟩ := create_spec (p := q) (ht.mono fun _ _ h => h.1)
  refine ⟨msp, hc, hprep, by rw [hL, hm], fun A => ?_⟩
  rw [hspan, evalResidues_of_lt A (ht.mono fun _ _ h => h.2)]

/-- With one share for each row, the product runs over the owned rows. -/
theorem combine_eq {A : Finset ReplicaID} {x : Vec (ZMod q)} {shares : Vec (ZMod p)}
    (hL : msp.L.length = msp.m) (hx : msp.getRecombinationVector A = some x)
    (hlen : x.length = (msp.ownedRows A).length) (hs : shares.length = msp.m) :
    combine msp A shares = some (∏ k ∈ Finset.range (msp.ownedRows A).length,
      power (shares.entry ((msp.ownedRows A).getD k 0)) (x.entry k)) := by
  unfold combine
  rw [if_pos (by omega), hx, Option.bind_some, hs]
  exact product_eq rfl hlen

/-- The set that `getAuthorizedSet` stops at is authorized, and it stops when all parties
together are. -/
theorem getAuthorizedSet_spec (hauth : ∀ A, msp.isAuthorizedGroup A = some (evalFomula t A))
    {all_parties : List ReplicaID} {auth_set : Finset ReplicaID}
    (hall : evalFomula t (auth_set ∪ all_parties.toFinset) = true)
    (hnot : evalFomula t auth_set = false) :
    ∃ A, getAuthorizedSet msp all_parties auth_set = some A ∧ evalFomula t A = true := by
  induction all_parties generalizing auth_set with
  | nil =>
    rw [List.toFinset_nil, Finset.union_empty, hnot] at hall
    cases hall
  | cons rid all_parties ih =>
    rw [List.toFinset_cons, Finset.union_insert, ← Finset.insert_union] at hall
    unfold getAuthorizedSet
    rw [hauth, Option.bind_some]
    by_cases hnext : evalFomula t (insert rid auth_set) = true
    · rw [if_pos hnext]
      exact ⟨_, rfl, hnext⟩
    · rw [if_neg hnext]
      exact ih hall (Bool.not_eq_true _ ▸ hnext)

theorem not_spans_empty [Fact q.Prime] (hd : 0 < msp.d) :
    ¬ SpansE1 msp.m msp.d msp.M.entry (msp.Owns ∅) := by
  rintro ⟨c, hc, hsum⟩
  have hzero : ∀ i, c i = 0 := fun i => hc i (Finset.notMem_empty _)
  simpa [hzero] using hsum 0 hd

/-- The rows with a coefficient that is not zero suffice. -/
theorem recombines_spans [Fact q.Prime] {A B : Finset ReplicaID} {x : ℕ → ZMod q}
    (hrec : msp.Recombines A x)
    (hB : ∀ k < (msp.ownedRows A).length, x k ≠ 0 → msp.Owns B ((msp.ownedRows A).getD k 0)) :
    SpansE1 msp.m msp.d msp.M.entry (msp.Owns B) := by
  let rows := msp.ownedRows A
  have hnd : rows.Nodup := (msp.ownedRows_increasing A).imp fun h => h.ne
  refine ⟨fun i => if i ∈ rows then x (rows.idxOf i) else 0, ?_, ?_⟩
  · intro i hi
    dsimp only
    split
    · rename_i hmem
      have hk := List.idxOf_lt_length_of_mem hmem
      by_contra hx
      have hown := hB _ hk hx
      rw [List.getD_eq_getElem _ _ hk, List.getElem_idxOf] at hown
      exact hi hown
    · rfl
  · intro j hj
    have hsum := sum_rows_eq_sum_list (n := msp.m) (fun i => decide (msp.L.getD i 0 ∈ A))
      (fun i => (if i ∈ rows then x (rows.idxOf i) else 0) * msp.M.entry i j) fun i hi => by
        have hno : i ∉ rows := fun hmem => by
          have := (List.mem_filter.mp hmem).2
          rw [this] at hi
          cases hi
        rw [if_neg hno, zero_mul]
    rw [hsum, ← hrec j hj]
    apply Finset.sum_congr rfl
    intro k hk
    have hk' : k < rows.length := Finset.mem_range.mp hk
    have hget : rows.getD k 0 = rows[k] := List.getD_eq_getElem _ _ hk'
    change (if rows.getD k 0 ∈ rows then x (rows.idxOf (rows.getD k 0)) else 0) *
      msp.M.entry (rows.getD k 0) j = msp.M.entry (rows.getD k 0) j * x k
    rw [hget, if_pos (List.getElem_mem hk'), hnd.idxOf_getElem, mul_comm]

end Formula

/-- A share passes `verify` just when the prover and the verifier get the same number from
`H_prime`. Every set that the formula accepts combines the shares to one and the same coin, which is
a power of `V0` with an exponent that the message gives. And `getAuthorizedSet` stops at such a set,
whatever the order of the parties, if all of them together are one. -/
theorem the_coin_is_a_power_of_the_public_key {p q : ℕ} (hq : q.Prime)
    (G : PrimeOrderModGroup p q) (digest_message : List Char → ℕ) (H_prime : HPrime p q)
    {t : Theta} (ht : t.AllNodes fun k n => 1 ≤ k ∧ n < q) :
    ∃ msp, create q t = some msp ∧ ∀ r : Vec (ZMod q), r.length = msp.d →
      ∃ keys, keyGen msp G r = some keys ∧ ∀ (C : List Char) (r : ℕ → ZMod q),
        (∀ j < msp.m, ∀ H_prime' : HPrime p q,
          verify G digest_message H_prime' C (keys.V.entry j)
              ((coin_shares G digest_message H_prime keys C r).entry j)
              (validity_proofs G digest_message H_prime keys C r j) = true ↔
            H_prime' G.g (keys.V.entry j) (power G.g (r j)) (H G digest_message C)
                ((coin_shares G digest_message H_prime keys C r).entry j)
                (power (H G digest_message C) (r j)) =
              (validity_proofs G digest_message H_prime keys C r j).c) ∧
        (∀ A, evalFomula t A = true →
          combine msp A (coin_shares G digest_message H_prime keys C r) =
            some (keys.V0 ^ H_exponent (q := q) digest_message C)) ∧
        ∀ all_parties : List ReplicaID, evalFomula t all_parties.toFinset = true →
          ∃ A, getAuthorizedSet msp all_parties ∅ = some A ∧ evalFomula t A = true := by
  have : Fact q.Prime := ⟨hq⟩
  obtain ⟨msp, hc, hprep, hL, hdec⟩ := create_decides ht
  refine ⟨msp, hc, fun r hr => ?_⟩
  refine ⟨_, if_pos hprep.pos, fun C nonces =>
    ⟨fun j _ H_prime' => generated_share_accepted_iff H_prime' _ _, ?_, ?_⟩⟩
  · intro A hA
    obtain ⟨x, hx, hlen, hrec⟩ := hprep.recombination ((hdec A).mpr hA)
    rw [combine_eq hL hx hlen rfl]
    exact congrArg some (prod_shares (hrec.sum_shares hprep.pos r.entry))
  · intro all_parties hall
    have hauth : ∀ A, msp.isAuthorizedGroup A = some (evalFomula t A) := by
      intro A
      obtain ⟨b, hb, hiff⟩ := hprep.isAuthorized A
      have hbA : b = evalFomula t A := by
        rw [Bool.eq_iff_iff, hiff, hdec]
      exact hbA ▸ hb
    have hempty : evalFomula t ∅ = false := by
      rw [← Bool.not_eq_true, ← hdec]
      exact not_spans_empty hprep.pos
    exact getAuthorizedSet_spec hauth (by rwa [Finset.empty_union]) hempty

/-- The hash of the prover accepts the shares, and one that comes out greater by one does not. -/
theorem the_coin_of_two_of_three_is_a_power_of_the_public_key :
    ∃ msp, create 5 twoOfThree = some msp ∧ ∀ r : Vec (ZMod 5), r.length = msp.d →
      ∃ keys, keyGen msp squares r = some keys ∧ ∀ (C : List Char) (r : ℕ → ZMod 5),
        (∀ j < msp.m,
          verify squares List.length added C (keys.V.entry j)
            ((coin_shares squares List.length added keys C r).entry j)
            (validity_proofs squares List.length added keys C r j) = true ∧
          ¬ verify squares List.length (fun h1 h2 h3 h4 h5 h6 => added h1 h2 h3 h4 h5 h6 + 1) C
            (keys.V.entry j) ((coin_shares squares List.length added keys C r).entry j)
            (validity_proofs squares List.length added keys C r j) = true) ∧
        (∀ A, evalFomula twoOfThree A = true →
          combine msp A (coin_shares squares List.length added keys C r) =
            some (keys.V0 ^ H_exponent (q := 5) List.length C)) ∧
        ∀ all_parties : List ReplicaID, evalFomula twoOfThree all_parties.toFinset = true →
          ∃ A, getAuthorizedSet msp all_parties ∅ = some A ∧ evalFomula twoOfThree A = true := by
  obtain ⟨msp, hc, h⟩ := the_coin_is_a_power_of_the_public_key (by decide) squares List.length added
    twoOfThree_bounded
  refine ⟨msp, hc, fun r hr => ?_⟩
  obtain ⟨keys, hkeys, hcoin⟩ := h r hr
  refine ⟨keys, hkeys, fun C r => ⟨fun j hj => ?_, (hcoin C r).2⟩⟩
  have hverify := (hcoin C r).1 j hj
  have hone : ∀ x : ZMod 5, x + 1 ≠ x := by decide
  rw [hverify, hverify]
  exact ⟨rfl, hone _⟩

end GeneralizedCoin

/-! ## What a proof binds -/

section Binding

variable {p q : ℕ}

theorem PrimeOrderModGroup.nontrivial (G : PrimeOrderModGroup p q) : Nontrivial (ZMod p) :=
  ⟨G.g, 1, G.g_ne_one⟩

/-- The numbers modulo 2 have no such group. -/
theorem PrimeOrderModGroup.two_ne_zero (G : PrimeOrderModGroup p q) (hq : q ≠ 0) :
    (2 : ZMod p) ≠ 0 := by
  intro h2
  have hdvd : p ∣ 2 := (ZMod.natCast_eq_zero_iff 2 p).mp (by exact_mod_cast h2)
  have hg := G.g_pow
  have hne := G.g_ne_one
  generalize G.g = g at hg hne
  rcases (Nat.dvd_prime Nat.prime_two).mp hdvd with rfl | rfl
  · exact hne (Subsingleton.elim _ _)
  · revert hg hne
    fin_cases g
    · intro hg
      rw [show ((fun i => i) ⟨0, by decide⟩ : ZMod 2) = 0 from rfl, zero_pow hq] at hg
      exact absurd hg (by decide)
    · intro _ hne
      exact hne rfl

theorem zero_power {c : ZMod q} (hc : c ≠ 0) : power (0 : ZMod p) c = 0 :=
  zero_pow fun h => hc ((ZMod.val_eq_zero c).mp h)

/-- The share zero answers every challenge but zero. -/
theorem zero_share_accepted [NeZero q] {G : PrimeOrderModGroup p q}
    {digest_message : List Char → ℕ} {H_prime : HPrime p q} {C : List Char} {s r c : ZMod q}
    (hc : c = H_prime G.g (power G.g s) (power G.g r) (H G digest_message C) 0 0) (hc0 : c ≠ 0) :
    verify G digest_message H_prime C (power G.g s) 0 ⟨c, r - s * c⟩ = true := by
  exact verify_of_power_eq (mul_zero _).symm hc (by rw [zero_power hc0, mul_zero])

/-- A wrong share in the group passes for one value of the hash at most, whatever the prover
commits to. Outside of the group `verify` accepts the share zero at every other value than zero,
and the negative of the right share at every even value. -/
theorem a_proof_binds_its_share_in_the_group_only (hq : q.Prime) (G : PrimeOrderModGroup p q)
    (digest_message : List Char → ℕ) (C : List Char) (s : ZMod q) :
    (∀ x : ZMod p, x ^ q = 1 → x ≠ power (H G digest_message C) s → ∀ h h', ∃ c₀,
      ∀ (H_prime : HPrime p q) (proofj : ValidityProof q),
        commitments G.g (power G.g s) (H G digest_message C) x proofj.c proofj.z = (h, h') →
        verify G digest_message H_prime C (power G.g s) x proofj = true →
          H_prime G.g (power G.g s) h (H G digest_message C) x h' = c₀) ∧
    ∀ (H_prime : HPrime p q) (r : ZMod q),
      (∀ c, c = H_prime G.g (power G.g s) (power G.g r) (H G digest_message C) 0 0 → c ≠ 0 →
        verify G digest_message H_prime C (power G.g s) 0 ⟨c, r - s * c⟩ = true) ∧
      ∀ x c, x = -power (H G digest_message C) s →
        c = H_prime G.g (power G.g s) (power G.g r) (H G digest_message C) x
          (power (H G digest_message C) r) → Even c.val →
        x ≠ power (H G digest_message C) s ∧
          verify G digest_message H_prime C (power G.g s) x ⟨c, r - s * c⟩ = true := by
  have : Fact q.Prime := ⟨hq⟩
  have hH : H G digest_message C ^ q = 1 := H_pow C
  refine ⟨?_, fun H_prime r => ⟨?_, ?_⟩⟩
  · intro x hx hne h h'
    -- the factor that the share is off by is in the group as well
    obtain ⟨w, rfl⟩ : ∃ w, x = power (H G digest_message C) s * w :=
      ⟨power (H G digest_message C) (-s) * x, by rw [← mul_assoc, power_mul_neg hH, one_mul]⟩
    have hw : w ^ q = 1 := by
      rwa [mul_pow, power_pow hH, one_mul] at hx
    have hw1 : w ≠ 1 := by
      rintro rfl
      exact hne (mul_one _)
    by_cases hany : ∃ c z : ZMod q, commitments G.g (power G.g s) (H G digest_message C)
        (power (H G digest_message C) s * w) c z = (h, h')
    · obtain ⟨c, z, hcom⟩ := hany
      refine ⟨c, fun H_prime proofj hproof hverify => ?_⟩
      rw [verify_iff hproof] at hverify
      rw [hverify]
      apply power_injective hw hw1
      exact (answers_iff G.g_pow G.g_ne_one hH s c proofj.c z w).mp
        ⟨proofj.z, hproof.trans hcom.symm⟩
    · exact ⟨0, fun H_prime proofj hproof _ => absurd ⟨_, _, hproof⟩ hany⟩
  · intro c hc hc0
    exact zero_share_accepted hc hc0
  · rintro x c rfl hc heven
    refine ⟨?_, ?_⟩
    · intro hneg
      have hunit := isUnit_power hH s
      have htwo : power (H G digest_message C) s * 2 = 0 := by
        rw [mul_two]
        nth_rewrite 1 [← hneg]
        exact neg_add_cancel _
      exact G.two_ne_zero hq.ne_zero (hunit.mul_right_eq_zero.mp htwo)
    · have hpow : power (-1 : ZMod p) c = 1 := heven.neg_one_pow
      exact verify_of_power_eq (w := -1) (by rw [mul_neg, mul_one]) hc (by rw [hpow, mul_one])

theorem a_proof_of_five_exponents_binds_in_the_group_only :
    (∀ x : ZMod 11, x ^ 5 = 1 → x ≠ power (H squares List.length ['a']) (2 : ZMod 5) → ∀ h h',
      ∃ c₀, ∀ (H_prime : HPrime 11 5) (proofj : ValidityProof 5),
        commitments squares.g (power squares.g (2 : ZMod 5)) (H squares List.length ['a']) x
          proofj.c proofj.z = (h, h') →
        verify squares List.length H_prime ['a'] (power squares.g (2 : ZMod 5)) x proofj = true →
          H_prime squares.g (power squares.g (2 : ZMod 5)) h (H squares List.length ['a']) x h' =
            c₀) ∧
    ∀ (H_prime : HPrime 11 5) (r : ZMod 5),
      (∀ c, c = H_prime squares.g (power squares.g (2 : ZMod 5)) (power squares.g r)
          (H squares List.length ['a']) 0 0 → c ≠ 0 →
        verify squares List.length H_prime ['a'] (power squares.g (2 : ZMod 5)) 0
          ⟨c, r - 2 * c⟩ = true) ∧
      ∀ x c, x = -power (H squares List.length ['a']) (2 : ZMod 5) →
        c = H_prime squares.g (power squares.g (2 : ZMod 5)) (power squares.g r)
          (H squares List.length ['a']) x (power (H squares List.length ['a']) r) → Even c.val →
        x ≠ power (H squares List.length ['a']) (2 : ZMod 5) ∧
          verify squares List.length H_prime ['a'] (power squares.g (2 : ZMod 5)) x
            ⟨c, r - 2 * c⟩ = true := by
  exact a_proof_binds_its_share_in_the_group_only (by decide) squares List.length ['a'] 2

end Binding

/-! ## The zero share -/

namespace GeneralizedCoin

section ZeroShare

variable {p q : ℕ} {t : Theta} {msp : Msp q}

/-- A replica that an authorized set cannot miss owns a row that counts. -/
theorem needed_row [Fact q.Prime] (hL : msp.L.length = msp.m)
    (hdec : ∀ A, SpansE1 msp.m msp.d msp.M.entry (msp.Owns A) ↔ evalFomula t A = true)
    {A : Finset ReplicaID} {i : ReplicaID} (hneed : evalFomula t (A.erase i) = false)
    {x : ℕ → ZMod q} (hrec : msp.Recombines A x) :
    ∃ k < (msp.ownedRows A).length,
      x k ≠ 0 ∧ msp.L[(msp.ownedRows A).getD k 0]? = some i := by
  by_contra hnone
  have hspan : SpansE1 msp.m msp.d msp.M.entry (msp.Owns (A.erase i)) := by
    refine recombines_spans hrec fun k hk hx => ?_
    have hmem : (msp.ownedRows A).getD k 0 ∈ msp.ownedRows A := by
      rw [List.getD_eq_getElem _ _ hk]
      exact List.getElem_mem hk
    obtain ⟨rid, hrid, howner⟩ := (Msp.mem_ownedRows hL).mp hmem
    unfold Msp.Owns
    rw [List.getD_eq_getElem?_getD, howner, Option.getD_some, Finset.mem_erase]
    refine ⟨?_, hrid⟩
    rintro rfl
    exact hnone ⟨k, hk, hx, howner⟩
  rw [hdec, hneed] at hspan
  cases hspan

/-- A replica that an authorized set cannot miss can make its coin zero, with a share that
`verify` accepts: unless the hash of its commitment is zero, the share zero at one of its rows. -/
theorem a_needed_replica_can_zero_the_coin (hq : q.Prime) (G : PrimeOrderModGroup p q)
    (digest_message : List Char → ℕ) (H_prime : HPrime p q)
    (ht : t.AllNodes fun k n => 1 ≤ k ∧ n < q) :
    ∃ msp, create q t = some msp ∧ ∀ r : Vec (ZMod q), r.length = msp.d →
      ∃ keys, keyGen msp G r = some keys ∧ ∀ A i, evalFomula t A = true →
        evalFomula t (A.erase i) = false → ∃ j < msp.m, msp.L[j]? = some i ∧
          ∀ (C : List Char) (r : ℕ → ZMod q),
            (∀ c, c = H_prime G.g (keys.V.entry j) (power G.g (r j)) (H G digest_message C) 0 0 →
              c ≠ 0 → verify G digest_message H_prime C (keys.V.entry j) 0
                ⟨c, r j - keys.s.entry j * c⟩ = true) ∧
            combine msp A ⟨msp.m, Function.update
              (coin_shares G digest_message H_prime keys C r).entry j 0⟩ = some 0 ∧
            keys.V0 ^ H_exponent (q := q) digest_message C ≠ 0 := by
  have : Fact q.Prime := ⟨hq⟩
  have hnt := G.nontrivial
  obtain ⟨msp, hc, hprep, hL, hdec⟩ := create_decides ht
  refine ⟨msp, hc, fun r hr => ⟨_, if_pos hprep.pos, fun A i hA hneed => ?_⟩⟩
  obtain ⟨x, hx, hlen, hrec⟩ := hprep.recombination ((hdec A).mpr hA)
  obtain ⟨k, hk, hxk, howner⟩ := needed_row hL hdec hneed hrec
  refine ⟨(msp.ownedRows A).getD k 0, ?_, howner, fun C nonces => ⟨?_, ?_, ?_⟩⟩
  · rw [← hL]
    exact (List.getElem?_eq_some_iff.mp howner).1
  · intro c hc hc0
    exact zero_share_accepted hc hc0
  · rw [combine_eq hL hx hlen rfl]
    apply congrArg some
    apply Finset.prod_eq_zero (Finset.mem_range.mpr hk)
    simp only [Function.update_self]
    exact zero_power hxk
  · exact ((isUnit_power G.g_pow _).pow _).ne_zero

theorem replica_0_can_zero_the_coin_of_two_of_three :
    (evalFomula twoOfThree {0, 2} = true ∧ evalFomula twoOfThree (({0, 2} : Finset ℕ).erase 0) =
      false) ∧
    ∃ msp, create 5 twoOfThree = some msp ∧ ∀ r : Vec (ZMod 5), r.length = msp.d →
      ∃ keys, keyGen msp squares r = some keys ∧ ∀ A i, evalFomula twoOfThree A = true →
        evalFomula twoOfThree (A.erase i) = false → ∃ j < msp.m, msp.L[j]? = some i ∧
          ∀ (C : List Char) (r : ℕ → ZMod 5),
            (∀ c, c = added squares.g (keys.V.entry j) (power squares.g (r j))
                (H squares List.length C) 0 0 →
              c ≠ 0 → verify squares List.length added C (keys.V.entry j) 0
                ⟨c, r j - keys.s.entry j * c⟩ = true) ∧
            combine msp A ⟨msp.m, Function.update
              (coin_shares squares List.length added keys C r).entry j 0⟩ = some 0 ∧
            keys.V0 ^ H_exponent (q := 5) List.length C ≠ 0 := by
  exact ⟨by decide, a_needed_replica_can_zero_the_coin (by decide) squares List.length added
    twoOfThree_bounded⟩

end ZeroShare

end GeneralizedCoin

end general_hotstuff.common_coin
