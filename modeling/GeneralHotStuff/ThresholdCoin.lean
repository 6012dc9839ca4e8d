-- The coin of a threshold: the shares are the values of a polynomial, and the parties of a set
-- combine its value at zero, which takes as many of them as the polynomial has coefficients.
import GeneralHotStuff.CommonCoin
import GeneralHotStuff.Interpolation

namespace general_hotstuff.common_coin.ThresholdCoin

open general_hotstuff.quorums general_hotstuff.linalg equal_exponents

/-! ## Points -/

section Threshold

variable {p q : ℕ} {G : PrimeOrderModGroup p q} {digest_message : List Char → ℕ}
  {H_prime : HPrime p q} {C : List Char} {t n : ℕ} {A : Finset ReplicaID} {f : Vec (ZMod q)}
  {keys : Keys p q}

/-- The point of the party at a position of the list. -/
def point (q n : ℕ) (A : Finset ReplicaID) (k : ℕ) : ZMod q :=
  (((parties n A).getD k 0 + 1 : ℕ) : ZMod q)

/-- The positions of the list of parties. -/
def positions (n : ℕ) (A : Finset ReplicaID) : Finset ℕ := Finset.range (parties n A).length

theorem card_positions : (positions n A).card = (Finset.range n ∩ A).card := by
  have hparties : (parties n A).toFinset = Finset.range n ∩ A := by
    ext j
    simp [parties]
  unfold positions
  rw [Finset.card_range, ← hparties, List.toFinset_card_of_nodup]
  exact List.nodup_range.filter _

theorem party_mem {k : ℕ} (hk : k ∈ positions n A) :
    (parties n A).getD k 0 < n ∧ (parties n A).getD k 0 ∈ A := by
  have hk' := Finset.mem_range.mp hk
  have hmem : (parties n A).getD k 0 ∈ parties n A := by
    rw [List.getD_eq_getElem _ _ hk']
    exact List.getElem_mem hk'
  simpa [parties] using hmem

theorem exists_position {j : ℕ} (hj : j < n) (hA : j ∈ A) :
    ∃ k ∈ positions n A, (parties n A).getD k 0 = j := by
  have hmem : j ∈ parties n A := by simp [parties, hj, hA]
  obtain ⟨k, hk, hget⟩ := List.mem_iff_getElem.mp hmem
  exact ⟨k, Finset.mem_range.mpr hk, (List.getD_eq_getElem _ _ hk).trans hget⟩

theorem val_point (hn : n < q) {k : ℕ} (hk : k ∈ positions n A) :
    (point q n A k).val = (parties n A).getD k 0 + 1 :=
  ZMod.val_natCast_of_lt (by have := (party_mem hk).1; omega)

theorem point_injective (hn : n < q) : Set.InjOn (point q n A) (positions n A) := by
  intro k hk k' hk' h
  have hval := congrArg ZMod.val h
  rw [val_point hn hk, val_point hn hk'] at hval
  have hkl := Finset.mem_range.mp hk
  have hkl' := Finset.mem_range.mp hk'
  have hnd : (parties n A).Nodup := List.nodup_range.filter _
  rw [List.getD_eq_getElem _ _ hkl, List.getD_eq_getElem _ _ hkl'] at hval
  exact (hnd.getElem_inj_iff).mp (Nat.succ_injective hval)

theorem point_ne_zero (hn : n < q) {k : ℕ} (hk : k ∈ positions n A) : point q n A k ≠ 0 := by
  intro h
  have hval := val_point hn hk
  rw [h, ZMod.val_zero] at hval
  omega

/-! ## The polynomial -/

/-- The degree is the highest that the length allows when the last coefficient is not zero. -/
theorem deg_eq_iff : deg f = (f.length : ℤ) - 1 ↔
    f.length = 0 ∨ f.entry (f.length - 1) ≠ 0 := by
  unfold deg
  cases hm : f.length with
  | zero => simp
  | succ m =>
    rw [List.range_succ, List.filter_append, Nat.add_sub_cancel]
    by_cases hlast : f.entry m = 0
    · -- all other indices are below the last one
      have hlow : ∀ i ∈ ((List.range m).filter fun i => decide (f.entry i ≠ 0)).getLast?,
          i < m := fun i hi =>
        List.mem_range.mp (List.mem_filter.mp (List.mem_of_getLast? hi)).1
      have hnil : [m].filter (fun i => decide (f.entry i ≠ 0)) = [] := by simp [hlast]
      rw [hnil, List.append_nil]
      cases hget : ((List.range m).filter fun i => decide (f.entry i ≠ 0)).getLast? with
      | none =>
        simp [hlast]
      | some i =>
        have hlt := hlow i hget
        have hne : (i : ℤ) ≠ ((m + 1 : ℕ) : ℤ) - 1 := by omega
        simpa [hlast] using hne
    · have hone : [m].filter (fun i => decide (f.entry i ≠ 0)) = [m] := by simp [hlast]
      rw [hone, List.getLast?_append]
      simp [hlast]

theorem eval_zero (hf : 0 < f.length) : eval f 0 = f.entry 0 := by
  unfold eval
  rw [Finset.sum_eq_single_of_mem 0 (Finset.mem_range.mpr hf)]
  · rw [pow_zero, mul_one]
  · intro i _ hi
    rw [zero_pow hi, mul_zero]

theorem keyGen_iff : keyGen G t n f = some keys ↔
    f.length = t ∧ (0 < t → f.entry (t - 1) ≠ 0) ∧
      keys = Keys.of G ⟨n, fun j => eval f ((j + 1 : ℕ) : ZMod q)⟩ (eval f 0) := by
  have hsecret : (if 0 < f.length then f.entry 0 else 0) = eval f 0 := by
    split
    · rename_i hf
      exact (eval_zero hf).symm
    · rename_i hf
      unfold eval
      rw [Nat.eq_zero_of_not_pos hf, Finset.range_zero, Finset.sum_empty]
  unfold keyGen
  constructor
  · intro h
    split at h
    · rename_i hdraw
      obtain ⟨rfl, hdeg⟩ := hdraw
      rw [hsecret] at h
      cases h
      refine ⟨rfl, fun ht => ?_, rfl⟩
      exact (deg_eq_iff.mp hdeg).resolve_left (by omega)
    · cases h
  · rintro ⟨rfl, hlast, rfl⟩
    have hdeg : f.length = 0 ∨ f.entry (f.length - 1) ≠ 0 := by
      rcases Nat.eq_zero_or_pos f.length with h0 | hpos
      · exact .inl h0
      · exact .inr (hlast hpos)
    rw [if_pos ⟨rfl, deg_eq_iff.mpr hdeg⟩, hsecret]

/-! ## The combination -/

open interpolation in
/-- At different points nothing divides by zero, and the coefficients are the weights. -/
theorem getLagrange_eq [Fact q.Prime] {x : Vec (ZMod q)}
    (hx : Set.InjOn x.entry (Finset.range x.length)) :
    getLagrange x = some ⟨x.length, weight (Finset.range x.length) x.entry⟩ := by
  have hne : ∀ j < x.length, ∀ k < x.length, k ≠ j → x.entry k - x.entry j ≠ 0 := by
    intro j hj k hk hkj h
    exact hkj (hx (by simpa using hk) (by simpa using hj) (sub_eq_zero.mp h))
  unfold getLagrange
  rw [if_pos hne]
  congr 2
  funext j
  unfold weight
  refine (Finset.prod_erase (Finset.range x.length)
    (f := fun k => if k = j then 1 else x.entry k * (x.entry k - x.entry j)⁻¹)
    (if_pos rfl)).symm.trans ?_
  apply Finset.prod_congr rfl
  intro k hk
  exact if_neg (Finset.mem_erase.mp hk).1

open interpolation in
/-- What the parties of `A` combine, whatever their number. -/
theorem combine_eq [Fact q.Prime] (hn : n < q) (r : ℕ → ZMod q) :
    combine q n A (coin_shares G digest_message H_prime
        (Keys.of G ⟨n, fun j => eval f ((j + 1 : ℕ) : ZMod q)⟩ (eval f 0)) C r) =
      some (power (H G digest_message C) (∑ k ∈ positions n A,
        weight (positions n A) (point q n A) k *
          value f.entry f.length (point q n A k))) := by
  have hlagrange := getLagrange_eq (x := ⟨(parties n A).length, point q n A⟩) (point_injective hn)
  refine (if_pos (Nat.le_refl n)).trans ?_
  change (getLagrange ⟨(parties n A).length, point q n A⟩).bind _ = _
  rw [hlagrange, Option.bind_some, power_H]
  refine (if_pos (Nat.le_refl _)).trans ?_
  exact congrArg some (prod_shares rfl)

open interpolation in
/-- A share passes `verify` just when the prover and the verifier get the same number from
`H_prime`. From `t` parties on, every set combines the shares to the coin, and one party too few
combines them to something else, unless the base of the coin is one. -/
theorem threshold_parties_combine_the_coin_and_one_less_never_does (hq : q.Prime) (hn : n < q)
    (hkeys : keyGen G t n f = some keys) (H_prime : HPrime p q) (C : List Char)
    (r : ℕ → ZMod q) :
    (∀ j < n, ∀ H_prime' : HPrime p q,
      verify G digest_message H_prime' C (keys.V.entry j)
          ((coin_shares G digest_message H_prime keys C r).entry j)
          (validity_proofs G digest_message H_prime keys C r j) = true ↔
        H_prime' G.g (keys.V.entry j) (power G.g (r j)) (H G digest_message C)
            ((coin_shares G digest_message H_prime keys C r).entry j)
            (power (H G digest_message C) (r j)) =
          (validity_proofs G digest_message H_prime keys C r j).c) ∧
    ∀ A : Finset ReplicaID,
      (t ≤ (Finset.range n ∩ A).card →
        combine q n A (coin_shares G digest_message H_prime keys C r) =
          some (keys.V0 ^ H_exponent (q := q) digest_message C)) ∧
      ((Finset.range n ∩ A).card + 1 = t → H G digest_message C ≠ 1 →
        ∃ x, combine q n A (coin_shares G digest_message H_prime keys C r) = some x ∧
          x ≠ keys.V0 ^ H_exponent (q := q) digest_message C) := by
  have : Fact q.Prime := ⟨hq⟩
  obtain ⟨hlen, hlast, rfl⟩ := keyGen_iff.mp hkeys
  have hcoin : (Keys.of G ⟨n, fun j => eval f ((j + 1 : ℕ) : ZMod q)⟩ (eval f 0)).V0 ^
      H_exponent (q := q) digest_message C = power (H G digest_message C) (eval f 0) :=
    (power_H _).symm
  refine ⟨fun j _ H_prime' => generated_share_accepted_iff H_prime' _ _,
    fun A => ⟨fun ht => ?_, fun ht hne => ?_⟩⟩
  · rw [combine_eq hn, hcoin, sum_weight_value (point_injective hn)]
    · rfl
    · rw [hlen, card_positions]
      exact ht
  · refine ⟨_, combine_eq hn r, ?_⟩
    rw [hcoin]
    intro heq
    have hsum := power_injective (H_pow C) hne heq
    rw [hlen, ← ht, ← card_positions, sum_weight_value_succ (point_injective hn)] at hsum
    have hzero : f.entry (positions n A).card * ∏ k ∈ positions n A, -point q n A k = 0 := by
      have heval : eval f 0 = value f.entry ((positions n A).card + 1) 0 := by
        rw [card_positions, ht, ← hlen]
        rfl
      rwa [heval, sub_eq_self] at hsum
    rcases mul_eq_zero.mp hzero with hlead | hprod
    · refine hlast (by omega) ?_
      rwa [← ht, Nat.add_sub_cancel, ← card_positions]
    · obtain ⟨k, hk, hk0⟩ := Finset.prod_eq_zero_iff.mp hprod
      exact point_ne_zero hn hk (neg_eq_zero.mp hk0)

/-- The line that is 3 at zero. -/
def line : Vec (ZMod 5) := ⟨2, fun i => if i = 0 then 3 else 1⟩

theorem line_drawn : keyGen squares 2 3 line =
    some (Keys.of squares ⟨3, fun j => eval line ((j + 1 : ℕ) : ZMod 5)⟩ (eval line 0)) :=
  keyGen_iff.mpr ⟨rfl, fun _ => by decide, rfl⟩

theorem two_of_three_parties_combine_the_coin_and_one_never_does :
    ∃ keys, keyGen squares 2 3 line = some keys ∧ ∀ (C : List Char) (r : ℕ → ZMod 5),
      (∀ j < 3, verify squares List.length added C (keys.V.entry j)
        ((coin_shares squares List.length added keys C r).entry j)
        (validity_proofs squares List.length added keys C r j) = true) ∧
      ∀ A : Finset ReplicaID,
        (2 ≤ (Finset.range 3 ∩ A).card →
          combine 5 3 A (coin_shares squares List.length added keys C r) =
            some (keys.V0 ^ H_exponent (q := 5) List.length C)) ∧
        ((Finset.range 3 ∩ A).card + 1 = 2 → H squares List.length C ≠ 1 →
          ∃ x, combine 5 3 A (coin_shares squares List.length added keys C r) = some x ∧
            x ≠ keys.V0 ^ H_exponent (q := 5) List.length C) := by
  refine ⟨_, line_drawn, fun C r => ?_⟩
  refine And.imp (fun hverify j hj => (hverify j hj added).mpr rfl) id
    (threshold_parties_combine_the_coin_and_one_less_never_does (by decide) (by decide) line_drawn
      added C r)

/-! ## One share too few -/

/-- Another draw gives the parties of `A` the same shares, of the secret `a`. -/
def Fits (G : PrimeOrderModGroup p q) (t n : ℕ) (keys : Keys p q) (A : Finset ReplicaID)
    (a : ZMod q) (keys' : Keys p q) : Prop :=
  (∃ f', keyGen G t n f' = some keys') ∧ keys'.secret = a ∧
    ∀ j < n, j ∈ A → keys'.s.entry j = keys.s.entry j

open interpolation in
/-- Polynomials that agree at the points of `A` and at zero give the same keys. -/
theorem keys_unique [Fact q.Prime] (hn : n < q) {f f' : Vec (ZMod q)}
    (hf : f.length = (positions n A).card + 1) (hf' : f'.length = (positions n A).card + 1)
    (hsame : ∀ k ∈ positions n A, eval f (point q n A k) = eval f' (point q n A k))
    (hzero : eval f 0 = eval f' 0) (x : ZMod q) : eval f x = eval f' x := by
  let points : Finset (ZMod q) := insert 0 ((positions n A).image (point q n A))
  have hcard : points.card = (positions n A).card + 1 := by
    rw [Finset.card_insert_of_notMem, Finset.card_image_of_injOn (point_injective hn)]
    intro hmem
    obtain ⟨k, hk, hk0⟩ := Finset.mem_image.mp hmem
    exact point_ne_zero hn hk hk0
  have hvalue : ∀ y, eval f y = value f.entry points.card y ∧
      eval f' y = value f'.entry points.card y := by
    intro y
    rw [hcard]
    exact ⟨by rw [← hf]; rfl, by rw [← hf']; rfl⟩
  rw [(hvalue x).1, (hvalue x).2]
  apply value_unique (v := id) (Set.injOn_id _) (Nat.le_refl _)
  intro y hy
  rw [id, ← (hvalue y).1, ← (hvalue y).2]
  rcases Finset.mem_insert.mp hy with rfl | hmem
  · exact hzero
  · obtain ⟨k, hk, rfl⟩ := Finset.mem_image.mp hmem
    exact hsame k hk

open interpolation in
/-- Because `keyGen` draws until the degree is the highest, the shares of one party too few rule
out the secret that these parties combine, and fit every other secret in exactly one way. -/
theorem one_share_too_few_rules_out_one_secret (hq : q.Prime) (hn : n < q)
    (hkeys : keyGen G t n f = some keys) (hA : (Finset.range n ∩ A).card + 1 = t) :
    ∃ a₀, (∀ (digest_message : List Char → ℕ) (H_prime : HPrime p q) (C : List Char)
        (r : ℕ → ZMod q), combine q n A (coin_shares G digest_message H_prime keys C r) =
          some (power (H G digest_message C) a₀)) ∧
      (∀ keys', ¬ Fits G t n keys A a₀ keys') ∧
      ∀ a, a ≠ a₀ → ∃! keys', Fits G t n keys A a keys' := by
  have : Fact q.Prime := ⟨hq⟩
  obtain ⟨hlen, hlast, rfl⟩ := keyGen_iff.mp hkeys
  rw [← card_positions] at hA
  -- a draw with the same shares agrees with `f` at the points
  have hagree : ∀ {f' : Vec (ZMod q)}, (∀ j < n, j ∈ A →
      eval f' ((j + 1 : ℕ) : ZMod q) = eval f ((j + 1 : ℕ) : ZMod q)) →
      ∀ k ∈ positions n A, eval f' (point q n A k) = eval f (point q n A k) := by
    intro f' h k hk
    exact h _ (party_mem hk).1 (party_mem hk).2
  refine ⟨_, fun _ _ _ r => combine_eq hn r, ?_, ?_⟩
  · rintro keys' ⟨⟨f', hf'⟩, hsecret, hshares⟩
    obtain ⟨hlen', hlast', rfl⟩ := keyGen_iff.mp hf'
    have hsum := sum_weight_value_succ (a := f'.entry) (point_injective (A := A) hn)
    rw [hA, ← hlen'] at hsum
    have hzero : f'.entry (positions n A).card * ∏ k ∈ positions n A, -point q n A k = 0 := by
      rw [← sub_eq_self (a := eval f' 0)]
      refine hsum.symm.trans (Eq.trans ?_ hsecret.symm)
      apply Finset.sum_congr rfl
      intro k hk
      exact congrArg _ (hagree hshares k hk)
    rcases mul_eq_zero.mp hzero with hlead | hprod
    · refine hlast' (by omega) ?_
      rwa [← hA, Nat.add_sub_cancel]
    · obtain ⟨k, hk, hk0⟩ := Finset.prod_eq_zero_iff.mp hprod
      exact point_ne_zero hn hk (neg_eq_zero.mp hk0)
  · intro a ha
    obtain ⟨b, hb, hb0, hlead⟩ := exists_value (point_injective (A := A) hn)
      (fun k hk => point_ne_zero hn hk) (fun k => eval f (point q n A k)) a
    rw [hA] at hb hb0
    have hdraw : keyGen G t n ⟨t, b⟩ = some (Keys.of G
        ⟨n, fun j => eval ⟨t, b⟩ ((j + 1 : ℕ) : ZMod q)⟩ (eval ⟨t, b⟩ 0)) := by
      refine keyGen_iff.mpr ⟨rfl, fun ht => ?_, rfl⟩
      rw [← hA, Nat.add_sub_cancel]
      exact fun h => ha (hlead.mp h)
    refine ⟨_, ⟨⟨_, hdraw⟩, hb0, ?_⟩, ?_⟩
    · intro j hj hjA
      obtain ⟨k, hk, rfl⟩ := exists_position hj hjA
      exact hb k hk
    · rintro keys' ⟨⟨f', hf'⟩, hsecret, hshares⟩
      obtain ⟨hlen', -, rfl⟩ := keyGen_iff.mp hf'
      have heval : ∀ x, eval f' x = eval ⟨t, b⟩ x := by
        refine keys_unique hn (hlen'.trans hA.symm) hA.symm ?_ (hsecret.trans hb0.symm)
        intro k hk
        exact (hagree hshares k hk).trans (hb k hk).symm
      simp only [heval]

theorem party_1_of_three_rules_out_one_secret :
    ∃ keys, keyGen squares 2 3 line = some keys ∧ ∃ a₀,
      (∀ (digest_message : List Char → ℕ) (H_prime : HPrime 11 5) (C : List Char)
        (r : ℕ → ZMod 5), combine 5 3 {1} (coin_shares squares digest_message H_prime keys C r) =
          some (power (H squares digest_message C) a₀)) ∧
      (∀ keys', ¬ Fits squares 2 3 keys {1} a₀ keys') ∧
      ∀ a, a ≠ a₀ → ∃! keys', Fits squares 2 3 keys {1} a keys' := by
  exact ⟨_, line_drawn, one_share_too_few_rules_out_one_secret (by decide) (by decide) line_drawn
    (by decide)⟩

end Threshold

end general_hotstuff.common_coin.ThresholdCoin
