-- What a sharing of `microbench_vss.cpp` gives away: to a set that the formula rejects, the
-- commitments and its shares fit every secret equally often.
import GeneralHotStuff.VerifiableSharing

namespace general_hotstuff.verifiable_sharing

open general_hotstuff.quorums general_hotstuff.linalg unit_span

variable {G : Type} [CommGroup G] {q : ℕ}

/-! ## The view of a set -/

/-- The replicas of `A` cannot tell the two sharings apart. -/
structure Seen (msp : Msp q) (A : Finset ReplicaID) (dealt dealt' : Sharing G q) : Prop where
  commitments : ∀ l < msp.d, dealt'.C.entry l = dealt.C.entry l
  shares : ∀ j < msp.m, msp.Owns A j → dealt'.s.entry j = dealt.s.entry j
  shares_prime : ∀ j < msp.m, msp.Owns A j → dealt'.s_prime.entry j = dealt.s_prime.entry j

omit [CommGroup G] in
theorem Seen.trans {msp : Msp q} {A : Finset ReplicaID} {dealt dealt' dealt'' : Sharing G q}
    (h : Seen msp A dealt dealt') (h' : Seen msp A dealt' dealt'') : Seen msp A dealt dealt'' where
  commitments l hl := (h'.commitments l hl).trans (h.commitments l hl)
  shares j hj ho := (h'.shares j hj ho).trans (h.shares j hj ho)
  shares_prime j hj ho := (h'.shares_prime j hj ho).trans (h.shares_prime j hj ho)

/-- With these two draws the dealer of `secret` leaves the replicas of `A` with the view `dealt`. -/
def Deals (msp : Msp q) (group : PrimeOrderModGroup G q) (A : Finset ReplicaID)
    (dealt : Sharing G q) (secret : ZMod q)
    (w : (Fin msp.d → ZMod q) × (Fin msp.d → ZMod q)) : Prop :=
  ∃ dealt', share msp group secret (drawn w.1) (drawn w.2) = some dealt' ∧ Seen msp A dealt dealt'

/-! ## Commitments -/

section Commitments

variable [Fact q.Prime] {group : PrimeOrderModGroup G q} {x : ZMod q}

theorem exists_log (group : PrimeOrderModGroup G q) :
    ∃ x : ZMod q, x ≠ 0 ∧ group.h = power group.g x := by
  obtain ⟨k, hk, hpow⟩ := group.g_generates group.h
  refine ⟨k, fun h0 => ?_, ?_⟩
  · have hk0 : k = 0 := by
      rw [ZMod.natCast_eq_zero_iff] at h0
      exact Nat.eq_zero_of_dvd_of_lt h0 hk
    -- a second generator that is one leaves a group of one element
    have hone : ∀ y : G, y = 1 := by
      intro y
      obtain ⟨m, -, rfl⟩ := group.h_generates y
      rw [← hpow, hk0, pow_zero, one_pow]
    have hcard : Nat.card G = 1 := Nat.card_eq_one_iff_unique.mpr
      ⟨⟨fun a b => (hone a).trans (hone b).symm⟩, ⟨1⟩⟩
    exact (Fact.out : q.Prime).one_lt.ne' (group.order.symm.trans hcard)
  · unfold power
    rw [ZMod.val_natCast_of_lt hk, hpow]

theorem power_injective (group : PrimeOrderModGroup G q) :
    Function.Injective (power (q := q) group.g) := by
  have hG : 0 < Nat.card G := group.order ▸ (Fact.out : q.Prime).pos
  have : Finite G := Nat.finite_of_card_ne_zero hG.ne'
  have hsurj : Function.Surjective (power (q := q) group.g) := by
    intro y
    obtain ⟨k, hk, rfl⟩ := group.g_generates y
    refine ⟨k, ?_⟩
    unfold power
    rw [ZMod.val_natCast_of_lt hk]
  refine ((Nat.bijective_iff_surjective_and_card _).mpr ⟨hsurj, ?_⟩).injective
  rw [Nat.card_zmod, group.order]

/-- Two openings of one commitment to different values give the logarithm of the second generator.
-/
theorem log_of_openings {a a' b b' : ZMod q} (hne : a ≠ b)
    (h : power group.g a * power group.h a' = power group.g b * power group.h b') :
    a' ≠ b' ∧ ∃ x : ZMod q, group.h = power group.g x ∧ a - b = x * (b' - a') := by
  obtain ⟨x, -, hx⟩ := exists_log group
  have hlog := h
  rw [hx, ← power_mul group.order, ← power_mul group.order, ← power_add group.order,
    ← power_add group.order] at hlog
  have hexp := power_injective group hlog
  refine ⟨?_, x, hx, by linear_combination hexp⟩
  rintro rfl
  exact hne (add_right_cancel hexp)

/-- A change of one exponent is made up for by the other. -/
theorem commitment_shift (hx : group.h = power group.g x) {c c' : ZMod q} (hc : c + x * c' = 0)
    (a b : ZMod q) :
    power group.g (a + c) * power group.h (b + c') = power group.g a * power group.h b := by
  have hexp : a + c + x * (b + c') = a + x * b := by linear_combination hc
  rw [hx, ← power_mul group.order, ← power_mul group.order, ← power_add group.order,
    ← power_add group.order, hexp]

end Commitments

/-! ## A change of the secret -/

theorem drawn_add {d : ℕ} (v z : Fin d → ZMod q) (c : ZMod q) (l : ℕ) :
    (drawn (v + c • z)).entry l = (drawn v).entry l + c * (drawn z).entry l := by
  by_cases hl : l < d
  · simp [drawn, hl]
  · simp [drawn, hl]

/-- Both draws changed by a multiple of `z`. -/
def shift {d : ℕ} (z : Fin d → ZMod q) (c c' : ZMod q) :
    (Fin d → ZMod q) × (Fin d → ZMod q) ≃ (Fin d → ZMod q) × (Fin d → ZMod q) :=
  (Equiv.addRight (c • z)).prodCongr (Equiv.addRight (c' • z))

theorem shift_back {d : ℕ} (z : Fin d → ZMod q) (c c' : ZMod q)
    (w : (Fin d → ZMod q) × (Fin d → ZMod q)) : shift z (-c) (-c') (shift z c c' w) = w := by
  obtain ⟨v, v_prime⟩ := w
  simp [shift]

section Shifted

variable [Fact q.Prime] {group : PrimeOrderModGroup G q} {x : ZMod q} {msp : Msp q}
  {A : Finset ReplicaID} {z : Fin msp.d → ZMod q}

/-- The rows of `A` do not see the change of the secret. -/
theorem share_shift (hx : group.h = power group.g x) (hd : 0 < msp.d) (hz1 : z ⟨0, hd⟩ = 1)
    (hz : ∀ i < msp.m, msp.Owns A i → ∑ l : Fin msp.d, msp.M.entry i l * z l = 0)
    {secret : ZMod q} {w : (Fin msp.d → ZMod q) × (Fin msp.d → ZMod q)} {dealt : Sharing G q}
    (h : share msp group secret (drawn w.1) (drawn w.2) = some dealt) {c c' : ZMod q}
    (hc : c + x * c' = 0) :
    ∃ dealt', share msp group (secret + c) (drawn (shift z c c' w).1) (drawn (shift z c c' w).2) =
      some dealt' ∧ Seen msp A dealt dealt' := by
  have hrow : ∀ i < msp.m, msp.Owns A i → ∀ (a : ℕ → ZMod q) (k : ZMod q),
      ∑ l ∈ Finset.range msp.M.NumCols, msp.M.entry i l * (a l + k * (drawn z).entry l) =
        ∑ l ∈ Finset.range msp.M.NumCols, msp.M.entry i l * a l := by
    intro i hi ho a k
    have hzero : ∑ l ∈ Finset.range msp.M.NumCols, msp.M.entry i l * (drawn z).entry l = 0 := by
      have hcols : msp.M.NumCols = msp.d := rfl
      rw [hcols, Finset.sum_range, ← hz i hi ho]
      apply Finset.sum_congr rfl
      intro l _
      simp [drawn]
    simp only [mul_add, Finset.sum_add_distrib, mul_left_comm _ k, ← Finset.mul_sum, hzero,
      mul_zero, add_zero]
  have hone : (drawn z).entry 0 = 1 := by simp [drawn, hd, hz1]
  have hfirst : ∀ l, (if l = 0 then secret + c else (drawn (w.1 + c • z)).entry l) =
      (if l = 0 then secret else (drawn w.1).entry l) + c * (drawn z).entry l := by
    intro l
    split
    · rename_i hl
      rw [hl, hone, mul_one]
    · exact drawn_add ..
  unfold share at h ⊢
  rw [if_pos hd] at h ⊢
  cases h
  refine ⟨_, rfl, fun l _ => ?_, fun j hj ho => ?_, fun j hj ho => ?_⟩
  · have hcl : c * (drawn z).entry l + x * (c' * (drawn z).entry l) = 0 := by
      linear_combination (drawn z).entry l * hc
    refine Eq.trans ?_ (commitment_shift hx hcl _ _)
    exact congrArg₂ (fun a b => power group.g a * power group.h b) (hfirst l) (drawn_add ..)
  · change ∑ l ∈ Finset.range msp.M.NumCols, msp.M.entry j l *
      (if l = 0 then secret + c else (drawn (w.1 + c • z)).entry l) = _
    simp only [hfirst]
    exact hrow j hj ho _ c
  · change ∑ l ∈ Finset.range msp.M.NumCols, msp.M.entry j l *
      (drawn (w.2 + c' • z)).entry l = _
    simp only [drawn_add]
    exact hrow j hj ho _ c'

theorem deals_shift (hx : group.h = power group.g x) (hd : 0 < msp.d) (hz1 : z ⟨0, hd⟩ = 1)
    (hz : ∀ i < msp.m, msp.Owns A i → ∑ l : Fin msp.d, msp.M.entry i l * z l = 0)
    {secret : ZMod q} {w : (Fin msp.d → ZMod q) × (Fin msp.d → ZMod q)} {dealt : Sharing G q}
    (h : Deals msp group A dealt secret w) {c c' : ZMod q} (hc : c + x * c' = 0) :
    Deals msp group A dealt (secret + c) (shift z c c' w) := by
  obtain ⟨dealt', hshare, hseen⟩ := h
  obtain ⟨dealt'', hshare', hseen'⟩ := share_shift hx hd hz1 hz hshare hc
  exact ⟨dealt'', hshare', hseen.trans hseen'⟩

end Shifted

/-! ## Perfect secrecy -/

/-- The commitments, and the shares of a set that the formula rejects, fit every secret, and each
equally often. -/
theorem the_sharing_hides_its_secret {q : ℕ} (hq : q.Prime) {G : Type} [CommGroup G]
    (group : PrimeOrderModGroup G q) {t : Theta} (ht : t.AllNodes fun k n => 1 ≤ k ∧ n < q)
    {A : Finset ReplicaID} (hA : evalFomula t A = false) :
    ∃ msp, create q t = some msp ∧ ∀ (secret : ZMod q) (v v_prime : Fin msp.d → ZMod q),
      ∃ dealt, share msp group secret (drawn v) (drawn v_prime) = some dealt ∧
        ∀ a, (∃ w, Deals msp group A dealt a w) ∧
          ∀ b, Nat.card {w // Deals msp group A dealt a w} =
            Nat.card {w // Deals msp group A dealt b w} := by
  have : Fact q.Prime := ⟨hq⟩
  obtain ⟨msp, hc, hprep, -, -, hspan⟩ := create_spec (p := q) (ht.mono fun k n h => h.1)
  have hno : ¬ SpansE1 msp.m msp.d msp.M.entry (msp.Owns A) := by
    rw [hspan, evalResidues_of_lt A (ht.mono fun k n h => h.2), hA]
    simp
  obtain ⟨z, hz1, hz⟩ := exists_kernel_of_not_spansE1 hprep.pos hno
  obtain ⟨x, hx0, hx⟩ := exists_log group
  have hmove : ∀ {dealt : Sharing G q} {a : ZMod q} {w}, Deals msp group A dealt a w → ∀ c,
      Deals msp group A dealt (a + c) (shift z c (-(c / x)) w) := by
    intro dealt a w hw c
    refine deals_shift hx hprep.pos hz1 hz hw ?_
    rw [mul_neg, mul_div_cancel₀ c hx0, add_neg_cancel]
  refine ⟨msp, hc, fun secret v v_prime => ?_⟩
  obtain ⟨dealt, hdealt⟩ : ∃ dealt, share msp group secret (drawn v) (drawn v_prime) =
      some dealt := ⟨_, if_pos hprep.pos⟩
  refine ⟨dealt, hdealt, fun a => ⟨?_, fun b => ?_⟩⟩
  · have hself : Deals msp group A dealt secret (v, v_prime) :=
      ⟨dealt, hdealt, fun _ _ => rfl, fun _ _ _ => rfl, fun _ _ _ => rfl⟩
    have hmoved := hmove hself (a - secret)
    rw [add_sub_cancel] at hmoved
    exact ⟨_, hmoved⟩
  · -- the draws for `a` become those for `b`, and back
    refine Nat.card_congr ((shift z (b - a) (-((b - a) / x))).subtypeEquiv fun w =>
      ⟨fun h => ?_, fun h => ?_⟩)
    · have hmoved := hmove h (b - a)
      rwa [add_sub_cancel] at hmoved
    · have hback := hmove h (-(b - a))
      rw [neg_div, shift_back, neg_sub, add_sub_cancel] at hback
      exact hback

theorem replica_1_learns_nothing_of_a_sharing_of_two_of_three :
    ∃ msp, create 5 twoOfThree = some msp ∧ ∀ (secret : ZMod 5) (v v_prime : Fin msp.d → ZMod 5),
      ∃ dealt, share msp addedModFive secret (drawn v) (drawn v_prime) = some dealt ∧
        ∀ a, (∃ w, Deals msp addedModFive {1} dealt a w) ∧
          ∀ b, Nat.card {w // Deals msp addedModFive {1} dealt a w} =
            Nat.card {w // Deals msp addedModFive {1} dealt b w} := by
  exact the_sharing_hides_its_secret (by decide) addedModFive twoOfThree_bounded (by decide)

end general_hotstuff.verifiable_sharing
