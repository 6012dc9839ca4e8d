-- BLS keys by number: what `share` of `hotstuff_keygen.cpp` deals and how
-- `QuorumCertBls::recoverThreshSig` interpolates, against the quorum size that the
-- replicas work with. The bls library is a parameter.
import GeneralHotStuff.GeneralizedKeys

namespace general_hotstuff.threshold_keys

open general_hotstuff.quorums general_hotstuff.generalized_keys unit_span

/-! ## The model -/

section Model

variable {r : ℕ}

/-- The value of the polynomial with the coefficients `msk` at `id`. -/
def set (msk : List (ZMod r)) (id : ℕ) : ZMod r :=
  ∑ j ∈ Finset.range msk.length, (id : ZMod r) ^ j * msk.getD j 0

/-- The key shares of the `n` replicas: replica `i` gets the value at the point `i + 1`. The
secret is `msk[0]`. -/
def share (msk : List (ZMod r)) (n : ℕ) : List (ZMod r) :=
  (List.range n).map fun i => set msk (i + 1)

/-- The number of coefficients that `main` asks `share` for. -/
def main_t (n : ℕ) : ℕ := n - n / 3

variable {G : Type}

/-- `sigs[0]` of an empty signature is out of range. -/
def recoverThreshSig (recover : List G → List (ZMod r) → G) (sigs : List (ReplicaID × List G)) :
    Option G :=
  (sigs.mapM fun kv : ReplicaID × List G => kv.2.head?).map fun sigVec =>
    recover sigVec (sigs.map fun kv => ((kv.1 + 1 : ℕ) : ZMod r))

/-- What `recover` of the library returns: the value at zero of the polynomial through the
points. -/
def Interpolates [AddCommGroup G] [Module (ZMod r) G]
    (recover : List G → List (ZMod r) → G) : Prop :=
  ∀ (sigVec : List G) (idVec : List (ZMod r)), idVec.Nodup → sigVec.length = idVec.length →
    recover sigVec idVec = (List.zipWith (· • ·)
      (idVec.map fun x => ∏ y ∈ idVec.toFinset.erase x, y * (y - x)⁻¹) sigVec).sum

/-- The shares that `share` deals to `S` determine the global signature. -/
def Determines [AddCommGroup G] [Module (ZMod r) G] (recover : List G → List (ZMod r) → G)
    (n : ℕ) (S : Finset ReplicaID) : Prop :=
  ∀ (msk : List (ZMod r)) (Q : G) (sigs : List (ReplicaID × List G)),
    msk.length = main_t n → (sigs.map Prod.fst).Nodup → signers sigs = S →
    (∀ e ∈ sigs, ∃ key, (share msk n)[e.1]? = some key ∧ e.2 = sign [key] Q) →
      recoverThreshSig recover sigs = some (msk.getD 0 0 • Q)

/-- The shares that `share` deals to `S` leave every secret possible. -/
def Hides (r n : ℕ) (S : Finset ReplicaID) : Prop :=
  ∀ (msk : List (ZMod r)) (s : ZMod r), msk.length = main_t n →
    ∃ msk' : List (ZMod r), msk'.length = main_t n ∧ msk'.getD 0 0 = s ∧
      ∀ i ∈ S, (share msk' n)[i]? = (share msk n)[i]?

end Model

/-! ## Points and weights -/

section Points

variable {r : ℕ}

/-- The point of replica `i`. -/
def point (r i : ℕ) : ZMod r := ((i + 1 : ℕ) : ZMod r)

theorem point_injOn {n : ℕ} (hn : n < r) : Set.InjOn (point r) {i | i < n} := by
  intro i hi j hj hij
  simp only [Set.mem_ofPred_eq] at hi hj
  unfold point at hij
  rw [ZMod.natCast_eq_natCast_iff', Nat.mod_eq_of_lt (by omega), Nat.mod_eq_of_lt (by omega)]
    at hij
  omega

theorem point_ne_zero {n i : ℕ} (hn : n < r) (hi : i < n) : point r i ≠ 0 := by
  unfold point
  rw [ne_eq, ZMod.natCast_eq_zero_iff]
  intro hd
  have := Nat.le_of_dvd (Nat.succ_pos i) hd
  omega

/-- The points of `S` reach the secret exactly when there are as many as coefficients. -/
theorem spansE1_point_iff [Fact r.Prime] {n k : ℕ} (hn : n < r) {S : Finset ReplicaID}
    (hS : S ⊆ Finset.range n) :
    SpansE1 n k (fun i j => point r i ^ j) (· ∈ S) ↔ k ≤ S.card := by
  have hcard : (points n (point r) (· ∈ S)).card = S.card := by
    have himg : points n (point r) (· ∈ S) = S.image (point r) := by
      ext a
      rw [mem_points, Finset.mem_image]
      constructor
      · rintro ⟨i, -, hi, rfl⟩
        exact ⟨i, hi, rfl⟩
      · rintro ⟨i, hi, rfl⟩
        exact ⟨i, Finset.mem_range.mp (hS hi), hi, rfl⟩
    rw [himg]
    apply Finset.card_image_of_injOn
    exact (point_injOn hn).mono fun i hi => Finset.mem_range.mp (hS hi)
  rw [spansE1_powers_iff, hcard]
  constructor
  · rintro (⟨i, hi, -, hz⟩ | hk)
    · exact absurd hz (point_ne_zero hn hi)
    · exact hk
  · exact Or.inr

/-- The weights of the library are the Lagrange basis at zero. -/
theorem weight_eq [Fact r.Prime] {T : Finset ℕ} {x : ℕ → ZMod r} (hinj : Set.InjOn x T) {i : ℕ}
    (hi : i ∈ T) :
    ∏ y ∈ (T.image x).erase (x i), y * (y - x i)⁻¹ = (Lagrange.basis T x i).eval 0 := by
  have herase : (T.image x).erase (x i) = (T.erase i).image x := by
    ext a
    simp only [Finset.mem_erase, Finset.mem_image]
    constructor
    · rintro ⟨hne, j, hj, rfl⟩
      exact ⟨j, ⟨fun hji => hne (by rw [hji]), hj⟩, rfl⟩
    · rintro ⟨j, ⟨hji, hj⟩, rfl⟩
      exact ⟨fun hx => hji (hinj hj hi hx), j, hj, rfl⟩
  rw [herase, Finset.prod_image, Lagrange.basis, Polynomial.eval_prod]
  · apply Finset.prod_congr rfl
    intro j hj
    obtain ⟨hji, hjT⟩ := Finset.mem_erase.mp hj
    have hne : x j - x i ≠ 0 := sub_ne_zero.mpr fun hx => hji (hinj hjT hi hx)
    have hne' : x i - x j ≠ 0 := fun h => hne (by rw [← neg_sub, h, neg_zero])
    simp only [Lagrange.basisDivisor, Polynomial.eval_mul, Polynomial.eval_C,
      Polynomial.eval_sub, Polynomial.eval_X, zero_sub]
    rw [← div_eq_mul_inv, div_eq_iff hne, mul_assoc, ← neg_sub (x i) (x j)]
    field_simp
  · exact hinj.mono fun j hj => (Finset.mem_erase.mp hj).2

/-- Interpolation at zero of the shares of enough replicas gives the secret. -/
theorem sum_weighted_shares [Fact r.Prime] {T : Finset ℕ} (hinj : Set.InjOn (point r) T)
    {msk : List (ZMod r)} (hne : 0 < msk.length) (hT : msk.length ≤ T.card) :
    ∑ i ∈ T, (Lagrange.basis T (point r) i).eval 0 * set msk (i + 1) = msk.getD 0 0 := by
  calc ∑ i ∈ T, (Lagrange.basis T (point r) i).eval 0 * set msk (i + 1)
      = ∑ j ∈ Finset.range msk.length, (∑ i ∈ T, (Lagrange.basis T (point r) i).eval 0 *
          point r i ^ j) * msk.getD j 0 := by
        simp only [set, Finset.mul_sum, Finset.sum_mul, mul_assoc]
        exact Finset.sum_comm
    _ = ∑ j ∈ Finset.range msk.length, (if j = 0 then 1 else 0) * msk.getD j 0 := by
        apply Finset.sum_congr rfl
        intro j hj
        rw [sum_basis_pow hinj ((Finset.mem_range.mp hj).trans_le hT)]
    _ = msk.getD 0 0 := by
        rw [Finset.sum_eq_single 0]
        · simp
        · intro j _ hj
          rw [if_neg hj, zero_mul]
        · intro hnot
          exact absurd (Finset.mem_range.mpr hne) hnot

end Points

/-! ## What the shares of a set determine -/

section Sharing

variable {r : ℕ}

theorem share_getElem? (msk : List (ZMod r)) {n i : ℕ} (hi : i < n) :
    (share msk n)[i]? = some (set msk (i + 1)) := by
  simp [share, hi]

theorem set_ofFn {k : ℕ} (w : Fin k → ZMod r) (i : ℕ) :
    set (List.ofFn w) (i + 1) = ∑ j : Fin k, point r i ^ (j : ℕ) * w j := by
  unfold set
  rw [List.length_ofFn, Finset.sum_range]
  apply Finset.sum_congr rfl
  intro j _
  simp [point]

theorem main_t_pos {n : ℕ} (hn : 2 ≤ n) : 0 < main_t n := by
  unfold main_t
  omega

/-- Fewer shares than coefficients leave every secret possible. -/
theorem hides_of_lt [Fact r.Prime] {n : ℕ} (hn : 2 ≤ n) (hr : n < r) {S : Finset ReplicaID}
    (hS : S ⊆ Finset.range n) (hlt : S.card < main_t n) : Hides r n S := by
  intro msk s hlen
  have hno : ¬ SpansE1 n (main_t n) (fun i j => point r i ^ j) (· ∈ S) := by
    rw [spansE1_point_iff hr hS]
    omega
  obtain ⟨w, hw0, hw⟩ := exists_alike (main_t_pos hn) hno (fun j => msk.get (j.cast hlen.symm)) s
  have hmsk : msk = List.ofFn fun j : Fin (main_t n) => msk.get (j.cast hlen.symm) := by
    apply List.ext_getElem
    · simp [hlen]
    · intro j hj _
      simp
  refine ⟨List.ofFn w, List.length_ofFn, ?_, ?_⟩
  · rw [← hw0, List.getD_eq_getElem _ _ (by simpa using main_t_pos hn)]
    simp
  · intro i hi
    have hin := Finset.mem_range.mp (hS hi)
    rw [share_getElem? _ hin, share_getElem? _ hin, set_ofFn, hw i hin hi, ← set_ofFn, ← hmsk]

/-- As many shares as coefficients leave only one secret possible. -/
theorem not_hides_of_le [Fact r.Prime] {n : ℕ} (hn : 2 ≤ n) (hr : n < r) {S : Finset ReplicaID}
    (hS : S ⊆ Finset.range n) (hle : main_t n ≤ S.card) : ¬ Hides r n S := by
  intro h
  obtain ⟨msk, hlen, hone, hsame⟩ := h (List.replicate (main_t n) 0) 1 List.length_replicate
  obtain ⟨c, hsup, hc⟩ := (spansE1_point_iff hr hS).mpr hle
  have hsum : ∀ l : List (ZMod r), l.length = main_t n →
      ∑ i ∈ Finset.range n, c i * set l (i + 1) = l.getD 0 0 := by
    intro l hl
    have := sum_shares_eq (main_t_pos hn) hc fun j => l.getD j 0
    rw [← this, ← hl]
    rfl
  have heq : ∑ i ∈ Finset.range n, c i * set msk (i + 1) =
      ∑ i ∈ Finset.range n, c i * set (List.replicate (main_t n) 0) (i + 1) := by
    apply Finset.sum_congr rfl
    intro i hi
    by_cases hiS : i ∈ S
    · have hin := Finset.mem_range.mp hi
      have := hsame i hiS
      rw [share_getElem? _ hin, share_getElem? _ hin, Option.some.injEq] at this
      rw [this]
    · rw [hsup i hiS, zero_mul, zero_mul]
  rw [hsum msk hlen, hsum _ List.length_replicate, hone] at heq
  simp [main_t_pos hn] at heq

variable {G : Type} [AddCommGroup G] [Module (ZMod r) G]

omit [AddCommGroup G] [Module (ZMod r) G] in
theorem mapM_eq_some {α : Type} {f : α → Option G} {g : α → G} {l : List α}
    (h : ∀ a ∈ l, f a = some (g a)) : l.mapM f = some (l.map g) := by
  induction l with
  | nil => rfl
  | cons a l ih =>
    rw [List.mapM_cons, h a List.mem_cons_self, ih fun b hb => h b (List.mem_cons_of_mem _ hb)]
    rfl

/-- As many shares as coefficients give the global signature, in any order of the signers. -/
theorem determines_of_le [Fact r.Prime] {recover : List G → List (ZMod r) → G}
    (hrec : Interpolates recover) {n : ℕ} (hn : 2 ≤ n) (hr : n < r) {S : Finset ReplicaID}
    (hS : S ⊆ Finset.range n) (hle : main_t n ≤ S.card) : Determines recover n S := by
  intro msk Q sigs hlen hnd hsig hkeys
  have hinj : Set.InjOn (point r) S :=
    (point_injOn hr).mono fun i hi => Finset.mem_range.mp (hS hi)
  have hmem : ∀ e ∈ sigs, e.1 ∈ S := by
    intro e he
    rw [← hsig]
    exact List.mem_toFinset.mpr (List.mem_map_of_mem he)
  have hvec : sigs.mapM (fun kv : ReplicaID × List G => kv.2.head?) =
      some (sigs.map fun kv => set msk (kv.1 + 1) • Q) := by
    apply mapM_eq_some
    intro e he
    obtain ⟨key, hkey, hsig⟩ := hkeys e he
    rw [share_getElem? _ (Finset.mem_range.mp (hS (hmem e he))), Option.some.injEq] at hkey
    rw [hsig, ← hkey]
    rfl
  have hids : sigs.map (fun kv => ((kv.1 + 1 : ℕ) : ZMod r)) =
      (sigs.map Prod.fst).map (point r) := by
    rw [List.map_map]
    rfl
  have hidsnd : ((sigs.map Prod.fst).map (point r)).Nodup := by
    apply hnd.map_on
    intro i hi j hj hij
    have hmemS : ∀ i ∈ sigs.map Prod.fst, i ∈ S := fun i hi => hsig ▸ List.mem_toFinset.mpr hi
    exact hinj (hmemS i hi) (hmemS j hj) hij
  have hpoints : ((sigs.map Prod.fst).map (point r)).toFinset = S.image (point r) := by
    rw [← hsig, signers]
    ext a
    simp
  have hzip : List.zipWith (· • ·) (((sigs.map Prod.fst).map (point r)).map fun x =>
        ∏ y ∈ (S.image (point r)).erase x, y * (y - x)⁻¹)
      (sigs.map fun kv => set msk (kv.1 + 1) • Q) =
      (sigs.map Prod.fst).map fun i =>
        ((Lagrange.basis S (point r) i).eval 0 * set msk (i + 1)) • Q := by
    simp only [List.map_map, List.zipWith_map, List.zipWith_self]
    apply List.map_congr_left
    intro e he
    simp only [Function.comp_apply]
    rw [weight_eq hinj (hmem e he), mul_smul]
  unfold recoverThreshSig
  rw [hvec, Option.map_some, hids, hrec _ _ hidsnd (by simp), hpoints, hzip,
    ← List.sum_toFinset _ hnd]
  have hS' : (sigs.map Prod.fst).toFinset = S := hsig
  rw [hS', ← Finset.sum_smul,
    sum_weighted_shares hinj (by rw [hlen]; exact main_t_pos hn) (by rw [hlen]; exact hle)]

/-- The keys fit the quorum size of the replicas exactly when 3 does not divide their number,
or the set does not have the one size between the two thresholds. -/
theorem the_dealt_keys_fit_the_quorum_size_iff {r : ℕ} (hr : r.Prime) {G : Type} [AddCommGroup G]
    [Module (ZMod r) G] (recover : List G → List (ZMod r) → G) (hrec : Interpolates recover)
    {n : ℕ} (hn : 2 ≤ n) (hnr : n < r) {S : Finset ReplicaID} (hS : S ⊆ Finset.range n) :
    (on_init_nmajority n (start_nfaulty n) ≤ S.card → Determines recover n S) ∧
      (S.card < on_init_nmajority n (start_nfaulty n) → Hides r n S) ↔
    (n % 3 ≠ 0 ∨ S.card ≠ n - n / 3) := by
  have : Fact r.Prime := ⟨hr⟩
  unfold on_init_nmajority start_nfaulty
  constructor
  · rintro ⟨-, hhide⟩
    by_contra hno
    push Not at hno
    refine not_hides_of_le hn hnr hS ?_ (hhide (by omega))
    unfold main_t
    omega
  · intro hor
    refine ⟨?_, ?_⟩
    · intro hle
      apply determines_of_le hrec hn hnr hS
      unfold main_t
      omega
    · intro hlt
      apply hides_of_lt hn hnr hS
      unfold main_t
      omega

end Sharing

/-! ## Three and four replicas -/

/-- Interpolation at zero, in the group of the integers modulo 5. -/
def interpolate (sigVec idVec : List (ZMod 5)) : ZMod 5 :=
  (List.zipWith (· • ·)
    (idVec.map fun x => ∏ y ∈ idVec.toFinset.erase x, y * (y - x)⁻¹) sigVec).sum

/-- Of four replicas three are a quorum. -/
theorem the_keys_of_four_fit_the_quorum_size :
    on_init_nmajority 4 (start_nfaulty 4) = 3 ∧ Determines interpolate 4 {0, 1, 2} ∧
      Hides 5 4 {0, 1} := by
  have hthree := the_dealt_keys_fit_the_quorum_size_iff (r := 5) (n := 4) (S := {0, 1, 2})
    (by decide) interpolate (fun _ _ _ _ => rfl) (by decide) (by decide) (by decide)
  have htwo := the_dealt_keys_fit_the_quorum_size_iff (r := 5) (n := 4) (S := {0, 1})
    (by decide) interpolate (fun _ _ _ _ => rfl) (by decide) (by decide) (by decide)
  exact ⟨rfl, (hthree.mpr (by decide)).1 (by decide), (htwo.mpr (by decide)).2 (by decide)⟩

/-- Two of three replicas are no quorum, but their key shares determine the secret. -/
theorem two_of_three_know_the_secret :
    ({0, 1} : Finset ReplicaID).card < on_init_nmajority 3 (start_nfaulty 3) ∧
      ¬ Hides 5 3 {0, 1} := by
  have : Fact (Nat.Prime 5) := ⟨by decide⟩
  exact ⟨by decide, not_hides_of_le (by decide) (by decide) (by decide) (by decide)⟩

end general_hotstuff.threshold_keys
