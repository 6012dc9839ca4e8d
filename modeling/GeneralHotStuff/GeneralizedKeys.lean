-- BLS keys for a formula: what `shareGeneralized` of `hotstuff_keygen.cpp` deals,
-- and how `QuorumCertBls::recoverGenThreshSig` combines the shares again. The bls
-- library is a parameter: a signature is the key times the point of the message.
import GeneralHotStuff.MspLaws

namespace general_hotstuff.generalized_keys

open general_hotstuff.linalg general_hotstuff.quorums unit_span

/-! ## The model -/

/-- The loop `map[L[j]].push_back(f(j))` over the rows `j`. -/
def pushOwned {α : Type} (L : List ReplicaID) (f : ℕ → α) : ReplicaID → List α :=
  L.zipIdx.foldl (fun map (owner, j) => Function.update map owner (map owner ++ [f j]))
    fun _ => []

/-- The global secret key, and for each replica its key shares in the order of the rows. -/
structure KeyDistribution (p : ℕ) where
  glb : ZMod p
  keys : List (List (ZMod p))

/-- The vector `r` is the one that the dealer draws. -/
def shareGeneralized {p : ℕ} (nreplicas : ℕ) (msp : Msp p) (r : Vec (ZMod p)) :
    KeyDistribution p :=
  let dealing := msp.shareRandSecret r
  { glb := dealing.secret
    keys := (List.range nreplicas).map (pushOwned dealing.owners dealing.shares.entry) }

/-- What `ReplicaConfig` holds of the access structure. -/
structure ReplicaConfig (p : ℕ) where
  nreplicas : ℕ
  msp : Msp p
  replica_indexesOwned_map : ReplicaID → List ℕ

namespace ReplicaConfig

def initializeAccessStructure {p : ℕ} (nreplicas : ℕ) (msp : Msp p) : ReplicaConfig p :=
  ⟨nreplicas, msp, pushOwned msp.L id⟩

/-- `at` throws for a replica that has no entry. -/
def getIndexesOwnedByReplica {p : ℕ} (config : ReplicaConfig p) (repID : ReplicaID) :
    Option (List ℕ) :=
  if repID < config.nreplicas ∨ repID ∈ config.msp.L then
    some (config.replica_indexesOwned_map repID)
  else none

end ReplicaConfig

section Recovery

variable {p : ℕ} {G : Type} [AddCommGroup G] [Module (ZMod p) G]

/-- `SigBls`: each key share signs the message, whose point is `Q`. -/
def sign (keys : List (ZMod p)) (Q : G) : List G := keys.map (· • Q)

/-- `sigShares_temp[indexesOwnedByRep[j]] = sigs[j]` for every share `j` of one replica. -/
def placeShares : List ℕ → List G → List G → Option (List G)
  | _, [], sigShares_temp => some sigShares_temp
  | [], _ :: _, _ => none
  | index :: indexes, share :: shares, sigShares_temp =>
    if index < sigShares_temp.length then
      placeShares indexes shares (sigShares_temp.set index share)
    else none

/-- The body of the loop of `recoverGenThreshSig` over the replicas that signed. -/
def placeReplica (config : ReplicaConfig p) (sigShares_temp : List G)
    (repId_sigShares : ReplicaID × List G) : Option (List G) :=
  (config.getIndexesOwnedByReplica repId_sigShares.1).bind fun indexesOwnedByRep =>
    placeShares indexesOwnedByRep repId_sigShares.2 sigShares_temp

/-- The replicas that have an entry in `sigs`. -/
def signers (sigs : List (ReplicaID × List G)) : Finset ReplicaID :=
  (sigs.map Prod.fst).toFinset

/-- The entries of `sigs` come in any order. The default `bls::Signature` is zero. -/
def recoverGenThreshSig [DecidableEq G] (recoverGeneralised : List G → List (ZMod p) → G)
    (config : ReplicaConfig p) (sigs : List (ReplicaID × List G)) : Option G :=
  (sigs.foldlM (placeReplica config) (List.replicate config.msp.m 0)).bind
    fun sigShares_temp =>
      let sigShares := sigShares_temp.filter (· ≠ 0)
      (config.msp.getRecombinationVector (signers sigs)).map fun recomb_vector =>
        recoverGeneralised sigShares recomb_vector.toList

/-- Every entry of `sigs` holds what its replica signs with its dealt key shares. -/
def Verified (nreplicas : ℕ) (msp : Msp p) (r : Vec (ZMod p)) (Q : G)
    (sigs : List (ReplicaID × List G)) : Prop :=
  ∀ e ∈ sigs, ∃ key, (shareGeneralized nreplicas msp r).keys[e.1]? = some key ∧
    e.2 = sign key Q

end Recovery

/-! ## Who owns which rows -/

theorem pushOwned_eq {α : Type} (L : List ReplicaID) (f : ℕ → α) (rid : ReplicaID) :
    pushOwned L f rid = ((List.range L.length).filter fun j => L.getD j 0 = rid).map f := by
  unfold pushOwned
  induction L using List.reverseRecOn with
  | nil => rfl
  | append_singleton L a ih =>
    have hsame : (List.range L.length).filter (fun j => (L ++ [a]).getD j 0 = rid) =
        (List.range L.length).filter fun j => L.getD j 0 = rid := by
      apply List.filter_congr
      intro j hj
      rw [List.getD_append _ _ _ _ (List.mem_range.mp hj)]
    rw [List.zipIdx_append, List.foldl_append, List.length_append, List.length_singleton,
      List.range_succ, List.filter_append, List.map_append, hsame, ← ih]
    by_cases ha : rid = a
    · subst ha
      simp
    · simp [Function.update_of_ne ha, Ne.symm ha]

/-- The rows that one replica owns. -/
def rowsOf (L : List ReplicaID) (rid : ReplicaID) : List ℕ :=
  (List.range L.length).filter fun j => L.getD j 0 = rid

theorem mem_rowsOf {L : List ReplicaID} {rid : ReplicaID} {j : ℕ} :
    j ∈ rowsOf L rid ↔ j < L.length ∧ L.getD j 0 = rid := by
  simp [rowsOf]

/-! ## Placing the shares -/

section Placing

variable {p : ℕ} {G : Type} [AddCommGroup G] [Module (ZMod p) G]

/-- The shares of one replica land in its rows and leave the others alone. -/
theorem placeShares_spec (f : ℕ → G) (indexes : List ℕ) (temp : List G)
    (h : ∀ i ∈ indexes, i < temp.length) :
    ∃ temp', placeShares indexes (indexes.map f) temp = some temp' ∧
      temp'.length = temp.length ∧
      ∀ i < temp.length, temp'.getD i 0 = if i ∈ indexes then f i else temp.getD i 0 := by
  induction indexes generalizing temp with
  | nil => exact ⟨temp, rfl, rfl, by simp⟩
  | cons k indexes ih =>
    have hk : k < temp.length := h k List.mem_cons_self
    obtain ⟨temp', h', hlen, hget⟩ := ih (temp.set k (f k)) (by
      intro i hi
      rw [List.length_set]
      exact h i (List.mem_cons_of_mem _ hi))
    rw [List.length_set] at hlen hget
    refine ⟨temp', ?_, hlen, ?_⟩
    · rw [List.map_cons, placeShares, if_pos hk, h']
    · intro i hi
      rw [hget i hi]
      by_cases hik : i = k
      · subst hik
        simp [hi]
      · simp [hik, List.getD_eq_getElem?_getD, List.getElem?_set_ne (Ne.symm hik)]

/-- What the shares of the signers `reps` come to, once all are placed. -/
def Placed (L : List ReplicaID) (f : ℕ → G) (reps : Finset ReplicaID) (temp : List G) : Prop :=
  temp.length = L.length ∧ ∀ i < L.length, temp.getD i 0 = if L.getD i 0 ∈ reps then f i else 0

theorem placeReplica_spec {nreplicas : ℕ} {msp : Msp p} {r : Vec (ZMod p)} {Q : G}
    {e : ReplicaID × List G} {temp : List G} {reps : Finset ReplicaID}
    (he : ∃ key, (shareGeneralized nreplicas msp r).keys[e.1]? = some key ∧ e.2 = sign key Q)
    (ht : Placed msp.L (fun i => (msp.M.mulVec r).entry i • Q) reps temp) :
    ∃ temp', placeReplica (ReplicaConfig.initializeAccessStructure nreplicas msp) temp e =
        some temp' ∧
      Placed msp.L (fun i => (msp.M.mulVec r).entry i • Q) (insert e.1 reps) temp' := by
  obtain ⟨key, hkey, hsig⟩ := he
  obtain ⟨hlen, hget⟩ := ht
  have hrid : e.1 < nreplicas := by
    by_contra hno
    have hkeys : (shareGeneralized nreplicas msp r).keys.length = nreplicas := by
      simp [shareGeneralized]
    rw [List.getElem?_eq_none (by rw [hkeys]; exact Nat.le_of_not_lt hno)] at hkey
    cases hkey
  have hkey' : key = (rowsOf msp.L e.1).map (msp.M.mulVec r).entry := by
    simp only [shareGeneralized, List.getElem?_map, List.getElem?_range hrid, Option.map_some,
      Option.some.injEq] at hkey
    rw [← hkey, Msp.shareRandSecret, pushOwned_eq]
    rfl
  have hidx : (ReplicaConfig.initializeAccessStructure nreplicas msp).getIndexesOwnedByReplica
      e.1 = some (rowsOf msp.L e.1) := by
    unfold ReplicaConfig.getIndexesOwnedByReplica ReplicaConfig.initializeAccessStructure
    simp only [hrid, true_or, if_true, pushOwned_eq, List.map_id]
    rfl
  obtain ⟨temp', h', hlen', hget'⟩ := placeShares_spec
    (fun i => (msp.M.mulVec r).entry i • Q) (rowsOf msp.L e.1) temp (by
      intro i hi
      rw [hlen]
      exact (mem_rowsOf.mp hi).1)
  refine ⟨temp', ?_, hlen'.trans hlen, ?_⟩
  · rw [placeReplica, hidx, Option.bind_some, hsig, sign, hkey', List.map_map]
    exact h'
  · intro i hi
    rw [hget' i (by omega), hget i hi]
    by_cases hown : msp.L.getD i 0 = e.1
    · rw [if_pos (mem_rowsOf.mpr ⟨hi, hown⟩),
        if_pos (by rw [hown]; exact Finset.mem_insert_self _ _)]
    · have hnot : i ∉ rowsOf msp.L e.1 := fun hmem => hown (mem_rowsOf.mp hmem).2
      simp only [hnot, if_false, Finset.mem_insert, hown, false_or]

/-- The order of the signers does not matter. -/
theorem placeReplicas_spec {nreplicas : ℕ} {msp : Msp p} {r : Vec (ZMod p)} {Q : G}
    (sigs : List (ReplicaID × List G)) (hv : Verified nreplicas msp r Q sigs)
    {temp : List G} {reps : Finset ReplicaID}
    (ht : Placed msp.L (fun i => (msp.M.mulVec r).entry i • Q) reps temp) :
    ∃ temp', sigs.foldlM
        (placeReplica (ReplicaConfig.initializeAccessStructure nreplicas msp)) temp =
        some temp' ∧
      Placed msp.L (fun i => (msp.M.mulVec r).entry i • Q) (signers sigs ∪ reps) temp' := by
  induction sigs generalizing temp reps with
  | nil => exact ⟨temp, rfl, by simpa [signers] using ht⟩
  | cons e sigs ih =>
    obtain ⟨temp1, h1, ht1⟩ := placeReplica_spec (hv e List.mem_cons_self) ht
    obtain ⟨temp2, h2, ht2⟩ := ih (fun d hd => hv d (List.mem_cons_of_mem _ hd)) ht1
    refine ⟨temp2, ?_, ?_⟩
    · rw [List.foldlM_cons, h1]
      exact h2
    · have hreps : signers (e :: sigs) ∪ reps = signers sigs ∪ insert e.1 reps := by
        ext x
        simp only [signers, List.map_cons, List.toFinset_cons, Finset.mem_union,
          Finset.mem_insert]
        tauto
      rw [hreps]
      exact ht2

/-- The shares of the replicas `reps`, in the order of their rows. -/
def sharesOf (msp : Msp p) (r : Vec (ZMod p)) (reps : Finset ReplicaID) : List (ZMod p) :=
  (msp.ownedRows reps).map (msp.M.mulVec r).entry

omit [Module (ZMod p) G] in
/-- Once the empty places are filtered out, what is left is what is not zero of the signers'
shares. -/
theorem Placed.filter_eq [DecidableEq G] {msp : Msp p} (hm : msp.m = msp.L.length)
    {f : ℕ → G} {reps : Finset ReplicaID} {temp : List G} (h : Placed msp.L f reps temp) :
    temp.filter (· ≠ 0) = ((msp.ownedRows reps).map f).filter (· ≠ 0) := by
  have htemp : temp = (List.range msp.m).map
      fun i => if msp.L.getD i 0 ∈ reps then f i else 0 := by
    apply List.ext_getElem
    · simp [h.1, hm]
    · intro i hi _
      have := h.2 i (by rw [← h.1]; exact hi)
      rw [List.getD_eq_getElem _ _ hi] at this
      rw [this]
      simp
  have hskip : ∀ l : List ℕ,
      (l.map fun i => if msp.L.getD i 0 ∈ reps then f i else 0).filter (· ≠ 0) =
        ((l.filter fun i => decide (msp.L.getD i 0 ∈ reps)).map f).filter (· ≠ 0) := by
    intro l
    induction l with
    | nil => rfl
    | cons i l ih =>
      by_cases hi : msp.L.getD i 0 ∈ reps
      · simp only [List.map_cons, hi, if_true, List.filter_cons, decide_true, ih]
      · simp only [List.map_cons, hi, if_false, List.filter_cons, decide_false, ih,
          ne_eq, not_true_eq_false, Bool.false_eq_true]
  rw [htemp]
  exact hskip _

end Placing

/-! ## Recovery -/

section Recovered

variable {p : ℕ} {G : Type} [AddCommGroup G] [Module (ZMod p) G]

/-- The coefficients and the shares, paired in order. -/
def paired (coefs shares : List (ZMod p)) : ZMod p := (List.zipWith (· * ·) coefs shares).sum

theorem sum_zipWith_smul (coefs shares : List (ZMod p)) (Q : G) :
    (List.zipWith (· • ·) coefs (shares.map (· • Q))).sum = paired coefs shares • Q := by
  unfold paired
  induction coefs generalizing shares with
  | nil => simp
  | cons c coefs ih =>
    cases shares with
    | nil => simp
    | cons s shares => simp [ih, add_smul, mul_smul]

/-- The recombination vector paired with all shares of an authorized set gives the secret. -/
theorem paired_sharesOf [Fact p.Prime] {msp : Msp p} {reps : Finset ReplicaID} {x : Vec (ZMod p)}
    (hlen : x.length = (msp.ownedRows reps).length) (h : msp.Recombines reps x.entry)
    (hd : 0 < msp.d) (v : Vec (ZMod p)) :
    paired x.toList (sharesOf msp v reps) = v.entry 0 := by
  rw [← h.sum_shares hd v.entry]
  have hzip : List.zipWith (· * ·) x.toList (sharesOf msp v reps) =
      (List.range (msp.ownedRows reps).length).map fun j =>
        x.entry j * (msp.M.mulVec v).entry ((msp.ownedRows reps).getD j 0) := by
    apply List.ext_getElem
    · simp [Vec.toList, sharesOf, hlen]
    · intro j hj _
      simp [Vec.toList, sharesOf] at hj
      simp [Vec.toList, sharesOf, hj]
  unfold paired
  rw [hzip, sum_map_eq_sum_range _ 0, List.length_range]
  apply Finset.sum_congr rfl
  intro j hj
  have hjl := Finset.mem_range.mp hj
  rw [List.getD_eq_getElem _ _ (by simpa using hjl), List.getElem_range]
  rfl

/-- What `recoverGenThreshSig` gives: the recombination vector paired with the nonzero shares. -/
theorem recoverGenThreshSig_eq [Fact p.Prime] [DecidableEq G]
    {recoverGeneralised : List G → List (ZMod p) → G}
    (hrec : ∀ sigs coefs, sigs.length ≤ coefs.length →
      recoverGeneralised sigs coefs = (List.zipWith (· • ·) coefs sigs).sum)
    {nreplicas : ℕ} {msp : Msp p} (hm : msp.m = msp.L.length) {r : Vec (ZMod p)} {Q : G}
    {sigs : List (ReplicaID × List G)} (hv : Verified nreplicas msp r Q sigs)
    {coefs : Vec (ZMod p)} (hc : msp.getRecombinationVector (signers sigs) = some coefs)
    (hlen : coefs.length = (msp.ownedRows (signers sigs)).length) :
    recoverGenThreshSig recoverGeneralised
        (ReplicaConfig.initializeAccessStructure nreplicas msp) sigs =
      some (paired coefs.toList ((sharesOf msp r (signers sigs)).filter (· ≠ 0)) • Q) := by
  have hstart : Placed msp.L (fun i => (msp.M.mulVec r).entry i • Q) ∅
      (List.replicate msp.m (0 : G)) := by
    refine ⟨by simp [hm], ?_⟩
    intro i hi
    simp [List.getD_eq_getElem?_getD, hm, hi]
  obtain ⟨temp, htemp, hplaced⟩ := placeReplicas_spec sigs hv hstart
  rw [Finset.union_empty] at hplaced
  have hshort : (temp.filter (· ≠ 0)).length ≤ coefs.toList.length := by
    rw [hplaced.filter_eq hm]
    refine (List.length_filter_le _ _).trans ?_
    simp [Vec.toList, hlen]
  unfold recoverGenThreshSig
  simp only [ReplicaConfig.initializeAccessStructure] at htemp ⊢
  rw [htemp, Option.bind_some, hc, Option.map_some, hrec _ _ hshort, hplaced.filter_eq hm]
  by_cases hQ : Q = 0
  · simp [hQ]
  · have hfilter : ((msp.ownedRows (signers sigs)).map
        fun i => (msp.M.mulVec r).entry i • Q).filter (· ≠ 0) =
        ((sharesOf msp r (signers sigs)).filter (· ≠ 0)).map (· • Q) := by
      rw [sharesOf, List.filter_map, List.filter_map, List.map_map]
      congr 1
      apply List.filter_congr
      intro i _
      simp [smul_eq_zero, hQ]
    rw [hfilter, sum_zipWith_smul]

/-- Zero shares after all others cost nothing. -/
theorem paired_filter_of_pairwise (coefs : List (ZMod p)) {shares : List (ZMod p)}
    (h : shares.Pairwise fun a b => a = 0 → b = 0) :
    paired coefs (shares.filter (· ≠ 0)) = paired coefs shares := by
  unfold paired
  induction shares generalizing coefs with
  | nil => rfl
  | cons s shares ih =>
    obtain ⟨hs, h⟩ := List.pairwise_cons.mp h
    by_cases hzero : s = 0
    · have hall : ∀ x ∈ s :: shares, x = 0 :=
        List.forall_mem_cons.mpr ⟨hzero, fun x hx => hs x hx hzero⟩
      have hnone : (s :: shares).filter (· ≠ 0) = [] :=
        List.filter_eq_nil_iff.mpr fun x hx => by simp [hall x hx]
      rw [hnone, List.zipWith_nil_right, List.sum_nil]
      refine (List.sum_eq_zero fun x hx => ?_).symm
      obtain ⟨i, hi, rfl⟩ := List.getElem_of_mem hx
      rw [List.getElem_zipWith, hall _ (List.getElem_mem _), mul_zero]
    · rw [List.filter_cons_of_pos (by simpa using hzero)]
      cases coefs with
      | nil => rfl
      | cons c coefs => rw [List.zipWith_cons_cons, List.zipWith_cons_cons, List.sum_cons,
          List.sum_cons, ih coefs h]

/-- An authorized set recovers the signature of the secret just when leaving the zero shares out of
the pairing does not change what it adds up to. -/
theorem recoverGenThreshSig_eq_secret_iff [Fact p.Prime] [DecidableEq G]
    {recoverGeneralised : List G → List (ZMod p) → G}
    (hrec : ∀ sigs coefs, sigs.length ≤ coefs.length →
      recoverGeneralised sigs coefs = (List.zipWith (· • ·) coefs sigs).sum)
    {nreplicas : ℕ} {msp : Msp p} (hm : msp.m = msp.L.length) (hprep : msp.Prepared)
    {r : Vec (ZMod p)} {Q : G} {sigs : List (ReplicaID × List G)}
    (hv : Verified nreplicas msp r Q sigs)
    (hs : SpansE1 msp.m msp.d msp.M.entry (msp.Owns (signers sigs))) :
    ∃ coefs, msp.getRecombinationVector (signers sigs) = some coefs ∧
      (recoverGenThreshSig recoverGeneralised
          (ReplicaConfig.initializeAccessStructure nreplicas msp) sigs =
          some ((shareGeneralized nreplicas msp r).glb • Q) ↔
        Q = 0 ∨ paired coefs.toList ((sharesOf msp r (signers sigs)).filter (· ≠ 0)) =
          paired coefs.toList (sharesOf msp r (signers sigs))) := by
  obtain ⟨coefs, hget, hlen, hcomb⟩ := hprep.recombination hs
  refine ⟨coefs, hget, ?_⟩
  rw [recoverGenThreshSig_eq hrec hm hv hget hlen, Option.some.injEq,
    show (shareGeneralized nreplicas msp r).glb = r.entry 0 from rfl,
    ← paired_sharesOf hlen hcomb hprep.pos r, ← sub_eq_zero, ← sub_smul, smul_eq_zero,
    sub_eq_zero, or_comm]

/-- The rows of the replicas `reps` that are left once the zero shares are filtered out. -/
def rowsLeft (msp : Msp p) (r : Vec (ZMod p)) (reps : Finset ReplicaID) : List ℕ :=
  (msp.ownedRows reps).filter fun i => (msp.M.mulVec r).entry i ≠ 0

/-- A filtered list starts the whole one just when nothing that is left out comes before something
that is left. -/
theorem filter_prefix_iff {α : Type} {P : α → Bool} {l : List α} :
    l.filter P <+: l ↔ l.Pairwise fun a b => P b = true → P a = true := by
  induction l with
  | nil => simp
  | cons a l ih =>
    rw [List.pairwise_cons, ← ih]
    by_cases ha : P a = true
    · rw [List.filter_cons_of_pos ha, List.prefix_cons_inj]
      exact ⟨fun h => ⟨fun _ _ _ => ha, h⟩, And.right⟩
    · rw [List.filter_cons_of_neg ha]
      constructor
      · intro h
        cases hleft : l.filter P with
        | nil => exact ⟨fun b hb hPb => absurd hPb (List.filter_eq_nil_iff.mp hleft b hb),
            List.nil_prefix⟩
        | cons b left =>
          rw [hleft, List.cons_prefix_cons] at h
          have hb : b ∈ l.filter P := hleft ▸ List.mem_cons_self
          exact absurd (h.1 ▸ (List.mem_filter.mp hb).2) ha
      · rintro ⟨hnone, -⟩
        rw [List.filter_eq_nil_iff.mpr fun b hb hPb => ha (hnone b hb hPb)]
        exact List.nil_prefix

theorem rowsLeft_prefix_iff {msp : Msp p} {r : Vec (ZMod p)} {reps : Finset ReplicaID} :
    rowsLeft msp r reps <+: msp.ownedRows reps ↔
      (sharesOf msp r reps).Pairwise fun a b => a = 0 → b = 0 := by
  rw [rowsLeft, filter_prefix_iff, sharesOf, List.pairwise_map]
  simp only [decide_eq_true_eq, ne_eq, not_imp_not]

/-- The replicas of an authorized set recover the signature of the dealt secret unless one of
their shares is zero and a later one is not. Then the shares that are left are not those of the
first rows, to which the first coefficients belong. -/
theorem shares_without_a_gap_recover_the_signature {r : ℕ} (hr : r.Prime)
    {G : Type} [AddCommGroup G] [Module (ZMod r) G] [DecidableEq G]
    (recoverGeneralised : List G → List (ZMod r) → G)
    (hrec : ∀ sigs coefs, sigs.length ≤ coefs.length →
      recoverGeneralised sigs coefs = (List.zipWith (· • ·) coefs sigs).sum)
    {t : Theta} (ht : t.AllNodes fun k n => 1 ≤ k ∧ n < r) (nreplicas : ℕ) :
    ∃ msp, create r t = some msp ∧ ∀ (v : Fin msp.d → ZMod r) (Q : G) sigs,
      Verified nreplicas msp (drawn v) Q sigs → evalFomula t (signers sigs) = true →
        (Q = 0 ∨ (sharesOf msp (drawn v) (signers sigs)).Pairwise (fun a b => a = 0 → b = 0) →
          recoverGenThreshSig recoverGeneralised
              (ReplicaConfig.initializeAccessStructure nreplicas msp) sigs =
            some ((shareGeneralized nreplicas msp (drawn v)).glb • Q)) ∧
        (¬ (sharesOf msp (drawn v) (signers sigs)).Pairwise (fun a b => a = 0 → b = 0) →
          ¬ rowsLeft msp (drawn v) (signers sigs) <+: msp.ownedRows (signers sigs)) := by
  have : Fact r.Prime := ⟨hr⟩
  obtain ⟨msp, hc, hprep, hm, hL, hspan⟩ := create_spec (p := r) (ht.mono fun k n h => h.1)
  refine ⟨msp, hc, ?_⟩
  intro v Q sigs hv hA
  refine ⟨fun hgap => ?_, mt rowsLeft_prefix_iff.mp⟩
  have hspans := (hspan (signers sigs)).mpr (by
    rw [evalResidues_of_lt _ (ht.mono fun k n h => h.2), hA])
  obtain ⟨coefs, -, hiff⟩ :=
    recoverGenThreshSig_eq_secret_iff hrec (by rw [hm, hL]) hprep hv hspans
  exact hiff.mpr (hgap.imp_right (paired_filter_of_pairwise coefs.toList))

end Recovered

/-! ## Two of three replicas -/

/-- Any two of three replicas. -/
def anyTwo : Theta := .mk 2 [0, 1, 2] []

/-- The sum that the library returns, in the group of the integers modulo 5. -/
def sumOfMultiples (sigs coefs : List (ZMod 5)) : ZMod 5 :=
  (List.zipWith (· • ·) coefs sigs).sum

/-- The signatures of replicas 0 and 1 on the message with point 1. -/
def signedByTwo (keys : List (List (ZMod 5))) : List (ReplicaID × List (ZMod 5)) :=
  [(0, sign (keys.getD 0 []) 1), (1, sign (keys.getD 1 []) 1)]

theorem verified_signedByTwo (msp : Msp 5) (v : Vec (ZMod 5)) :
    Verified 3 msp v 1 (signedByTwo (shareGeneralized 3 msp v).keys) := by
  intro e he
  simp only [signedByTwo, List.mem_cons, List.not_mem_nil, or_false] at he
  rcases he with rfl | rfl
  · exact ⟨_, rfl, rfl⟩
  · exact ⟨_, rfl, rfl⟩

theorem signers_signedByTwo (keys : List (List (ZMod 5))) :
    signers (signedByTwo keys) = {0, 1} := rfl

/-- With all entries of the dealing 1 the shares are 2, 3 and 4. -/
theorem two_of_three_recover_the_signature :
    ∃ msp, create 5 anyTwo = some msp ∧
      sharesOf msp (drawn fun _ : Fin msp.d => 1) {0, 1} = [2, 3] ∧
      recoverGenThreshSig sumOfMultiples (ReplicaConfig.initializeAccessStructure 3 msp)
          (signedByTwo (shareGeneralized 3 msp (drawn fun _ : Fin msp.d => 1)).keys) =
        some ((shareGeneralized 3 msp (drawn fun _ : Fin msp.d => 1)).glb • (1 : ZMod 5)) := by
  obtain ⟨msp, hc, h⟩ := shares_without_a_gap_recover_the_signature (by decide)
    sumOfMultiples (fun _ _ _ => rfl) (t := anyTwo) (.mk (by decide) (by simp)) 3
  have hshares : (create 5 anyTwo).map
      (fun msp => sharesOf msp (drawn fun _ : Fin msp.d => 1) {0, 1}) = some [2, 3] := by
    decide +kernel
  rw [hc, Option.map_some, Option.some.injEq] at hshares
  have hA : evalFomula anyTwo {0, 1} = true := by decide
  have hmain := h (fun _ => 1) 1 _ (verified_signedByTwo msp _)
  rw [signers_signedByTwo, hshares] at hmain
  exact ⟨msp, hc, hshares, (hmain hA).1 (.inr (by decide))⟩

/-- The secret 1 with a random entry that makes the share of replica 0 zero. -/
def zeroFirst : Vec (ZMod 5) := ⟨2, fun j => if j = 0 then 1 else 4⟩

/-- Replicas 0 and 1 are authorized, but what they recover is three times the signature of the
secret: the share of replica 1 is paired with the coefficient of replica 0. -/
theorem two_of_three_recover_another_signature :
    evalFomula anyTwo {0, 1} = true ∧
      (create 5 anyTwo).map (fun msp => (shareGeneralized 3 msp zeroFirst).glb • (1 : ZMod 5)) =
        some 1 ∧
      (create 5 anyTwo).bind (fun msp =>
        recoverGenThreshSig sumOfMultiples (ReplicaConfig.initializeAccessStructure 3 msp)
          (signedByTwo (shareGeneralized 3 msp zeroFirst).keys)) = some 3 := by
  refine ⟨by decide, by decide +kernel, by decide +kernel⟩

/-- The coefficients of replicas 1 and 2 are both 3: with the shares 0 and 2 it does no harm that
the second one gets the coefficient of the first. -/
example : (create 5 anyTwo).bind (fun msp =>
    let dealt := shareGeneralized 3 msp ⟨2, fun j => if j = 0 then 1 else 2⟩
    recoverGenThreshSig sumOfMultiples (ReplicaConfig.initializeAccessStructure 3 msp)
      ([1, 2].map fun i => (i, sign (dealt.keys.getD i []) 1))) = some 1 := by
  decide +kernel

end general_hotstuff.generalized_keys
