-- How `crypto.h` and `crypto.cpp` check what the network sends: BLS signatures against the
-- keys of their signer, and certificates at once or by tasks of the verification pool.
import GeneralHotStuff.RoundTrips

namespace general_hotstuff

open data_stream
open quorums (ReplicaID)

variable {Hash Sig : Type}

/-- `promise::all` over the tasks of the pool, which throws when there are none. -/
def veri_all (tasks : List Bool) : Option Bool := if tasks = [] then none else some (tasks.all id)

/-! ## BLS signatures -/

structure PubKeyBls (VK : Type) where
  vks : List VK

namespace SigBls

variable {S VK : Type} (sigVerify : S → VK → Hash → Bool)

/-- One turn of the loop of `verify`. Behind the end of a vector there is nothing to read. -/
def verifyTurn (sig : SigBls S) (msg : Hash) (pub_key : PubKeyBls VK) (isValid : Bool) (i : ℕ) :
    Option Bool := do
  let s ← sig.sigs[i]?
  let vk ← pub_key.vks[i]?
  pure (isValid && sigVerify s vk msg)

/-- The loop runs over the signatures also when their number is not the number of the keys. -/
def verify (sig : SigBls S) (msg : Hash) (pub_key : PubKeyBls VK) : Option Bool :=
  (List.range sig.sigs.length).foldlM (sig.verifyTurn sigVerify msg pub_key)
    (decide (sig.sigs.length = pub_key.vks.length))

/-- Each signature verifies under the key at its place, and there are as many of both. -/
def Verifies (sig : SigBls S) (msg : Hash) (pub_key : PubKeyBls VK) : Prop :=
  sig.sigs.length = pub_key.vks.length ∧
    ∀ (i : ℕ) s vk, sig.sigs[i]? = some s → pub_key.vks[i]? = some vk → sigVerify s vk msg = true

end SigBls

namespace PartCertBls

variable {S VK : Type} (sigVerify : S → VK → Hash → Bool)

def verify (pc : PartCert Hash (SigBls S)) (pubkey : PubKeyBls VK) : Option Bool :=
  pc.sig.verify sigVerify pc.obj_hash pubkey

/-- The copy that runs as a `BlsVeriTask`. -/
def verify_vpool (pc : PartCert Hash (SigBls S)) (pubkey : PubKeyBls VK) : Option Bool :=
  pc.sig.verify sigVerify pc.obj_hash pubkey

end PartCertBls

namespace QuorumCertBls

variable {S VK : Type} (sigVerify : S → VK → Hash → Bool)

/-- A certificate without a threshold signature holds an empty one. -/
def threshSig (qc : QuorumCert Hash (SigBls S)) : SigBls S := qc.threshSig.getD ⟨[]⟩

def verify (qc : QuorumCert Hash (SigBls S)) (globalPubKey : PubKeyBls VK) : Option Bool :=
  (threshSig qc).verify sigVerify qc.obj_hash globalPubKey

/-- The copy that runs as a `BlsVeriTask`. -/
def verify_vpool (qc : QuorumCert Hash (SigBls S)) (globalPubKey : PubKeyBls VK) :
    Option Bool := do
  let task ← (threshSig qc).verify sigVerify qc.obj_hash globalPubKey
  veri_all [task]

end QuorumCertBls

/-! ## The loop over the signatures -/

namespace SigBls

variable {S VK : Type} (sigVerify : S → VK → Hash → Bool)

/-- After `n` turns the flag tells whether the first `n` signatures are valid, or a key was read
that is not there. -/
theorem verify_turns (sig : SigBls S) (msg : Hash) (pub_key : PubKeyBls VK) (isValid : Bool)
    {n : ℕ} (hn : n ≤ sig.sigs.length) :
    (List.range n).foldlM (sig.verifyTurn sigVerify msg pub_key) isValid =
      if n ≤ pub_key.vks.length then
        some (isValid && ((sig.sigs.zip pub_key.vks).take n).all fun p => sigVerify p.1 p.2 msg)
      else none := by
  induction n with
  | zero => simp
  | succ n ih =>
    rw [List.range_succ, List.foldlM_append, ih (by omega)]
    by_cases hkey : n < pub_key.vks.length
    · have hzip : n < (sig.sigs.zip pub_key.vks).length := by
        rw [List.length_zip]
        omega
      rw [if_pos hkey.le, if_pos (Nat.succ_le_of_lt hkey), List.take_succ_eq_append_getElem hzip]
      simp only [List.foldlM_cons, List.foldlM_nil, Option.bind_eq_bind, Option.bind_some]
      unfold verifyTurn
      rw [List.getElem?_eq_getElem (by omega), List.getElem?_eq_getElem hkey]
      simp [Bool.and_assoc]
    · rw [if_neg (by omega : ¬n + 1 ≤ pub_key.vks.length)]
      split
      · simp only [List.foldlM_cons, List.foldlM_nil, Option.bind_eq_bind, Option.bind_some]
        unfold verifyTurn
        rw [List.getElem?_eq_none (by omega : pub_key.vks.length ≤ n)]
        simp
      · rfl

/-- The whole loop. -/
theorem verify_eq (sig : SigBls S) (msg : Hash) (pub_key : PubKeyBls VK) :
    sig.verify sigVerify msg pub_key =
      if sig.sigs.length ≤ pub_key.vks.length then
        some (decide (sig.sigs.length = pub_key.vks.length) &&
          (sig.sigs.zip pub_key.vks).all fun p => sigVerify p.1 p.2 msg)
      else none := by
  unfold verify
  rw [verify_turns sigVerify sig msg pub_key _ le_rfl, List.take_of_length_le]
  rw [List.length_zip]
  exact min_le_left _ _

theorem verify_isSome (sig : SigBls S) (msg : Hash) (pub_key : PubKeyBls VK) :
    (∃ b, sig.verify sigVerify msg pub_key = some b) ↔
      sig.sigs.length ≤ pub_key.vks.length := by
  rw [verify_eq]
  split
  · rename_i h
    simp [h]
  · rename_i h
    simp [h]

theorem verify_eq_true (sig : SigBls S) (msg : Hash) (pub_key : PubKeyBls VK) :
    sig.verify sigVerify msg pub_key = some true ↔ sig.Verifies sigVerify msg pub_key := by
  rw [verify_eq]
  unfold Verifies
  constructor
  · intro h
    split at h
    · rw [Option.some.injEq, Bool.and_eq_true, decide_eq_true_iff, List.all_eq_true] at h
      refine ⟨h.1, ?_⟩
      intro i s vk hs hvk
      apply h.2 (s, vk)
      rw [List.mem_iff_getElem?]
      exact ⟨i, List.getElem?_zip_eq_some.mpr ⟨hs, hvk⟩⟩
    · cases h
  · rintro ⟨hlen, hvalid⟩
    rw [if_pos hlen.le, Option.some.injEq, Bool.and_eq_true, decide_eq_true_iff, List.all_eq_true]
    refine ⟨hlen, ?_⟩
    rintro ⟨s, vk⟩ hmem
    obtain ⟨i, hi⟩ := List.mem_iff_getElem?.mp hmem
    obtain ⟨hs, hvk⟩ := List.getElem?_zip_eq_some.mp hi
    exact hvalid i s vk hs hvk

end SigBls

namespace QuorumCertBls

variable {S VK : Type} (sigVerify : S → VK → Hash → Bool)

/-- The task and the direct check do the same. -/
theorem verify_vpool_eq (qc : QuorumCert Hash (SigBls S)) (globalPubKey : PubKeyBls VK) :
    verify_vpool sigVerify qc globalPubKey = verify sigVerify qc globalPubKey := by
  unfold verify_vpool verify veri_all
  cases (threshSig qc).verify sigVerify qc.obj_hash globalPubKey with
  | none => rfl
  | some b => simp

/-- A configuration whose `threshVerify` is this check decides by it. -/
theorem verify_config {config : Config Hash (SigBls S)} (hs : config.scheme = .bls)
    {globalPubKey : PubKeyBls VK} {qc : QuorumCert Hash (SigBls S)}
    (h : verify sigVerify qc globalPubKey = some (config.threshVerify qc.obj_hash qc.threshSig)) :
    qc.verify config = verify sigVerify qc globalPubKey := by
  rw [h]
  simp [QuorumCert.verify, hs]

end QuorumCertBls

/-- A BLS signature, and what carries one, is checked exactly when there are no more signatures in
it than keys of the signer. With more of them a key is read that is not there. -/
theorem bls_checks_need_a_key_for_each_signature {S VK : Type} (sigVerify : S → VK → Hash → Bool)
    (pub_key : PubKeyBls VK) :
    (∀ (sig : SigBls S) (msg : Hash),
      (∃ b, sig.verify sigVerify msg pub_key = some b ∧
        (b = true ↔ sig.Verifies sigVerify msg pub_key)) ↔
      sig.sigs.length ≤ pub_key.vks.length) ∧
    (∀ pc : PartCert Hash (SigBls S),
      (∃ b, PartCertBls.verify sigVerify pc pub_key = some b ∧
        PartCertBls.verify_vpool sigVerify pc pub_key = some b) ↔
      pc.sig.sigs.length ≤ pub_key.vks.length) ∧
    (∀ qc : QuorumCert Hash (SigBls S),
      (∃ b, QuorumCertBls.verify sigVerify qc pub_key = some b ∧
        QuorumCertBls.verify_vpool sigVerify qc pub_key = some b) ↔
      (QuorumCertBls.threshSig qc).sigs.length ≤ pub_key.vks.length) := by
  refine ⟨?_, ?_, ?_⟩
  · intro sig msg
    rw [← SigBls.verify_isSome sigVerify sig msg pub_key]
    constructor
    · rintro ⟨b, hb, -⟩
      exact ⟨b, hb⟩
    · rintro ⟨b, hb⟩
      refine ⟨b, hb, ?_⟩
      rw [← SigBls.verify_eq_true, hb, Option.some.injEq]
  · intro pc
    unfold PartCertBls.verify PartCertBls.verify_vpool
    simp only [and_self]
    exact SigBls.verify_isSome sigVerify pc.sig pc.obj_hash pub_key
  · intro qc
    simp only [QuorumCertBls.verify_vpool_eq, and_self]
    unfold QuorumCertBls.verify
    exact SigBls.verify_isSome sigVerify _ qc.obj_hash pub_key

/-- Two signatures arrive from a replica with one key. -/
theorem two_signatures_for_one_key :
    let enc := padded 48 (by decide)
    let sigVerify : UInt8 → UInt8 → UInt8 → Bool := fun s vk msg => s = vk + msg
    let sig : SigBls UInt8 := ⟨[7, 7]⟩
    let pc : PartCert UInt8 (SigBls UInt8) := { obj_hash := 3, sig := sig }
    let qc : QuorumCert UInt8 (SigBls UInt8) :=
      { obj_hash := 3, rids := [], sigs := [], threshSig := some sig }
    SigBls.unserialize enc (sig.serialize enc) = some (sig, []) ∧
      sig.verify sigVerify 3 (⟨[4]⟩ : PubKeyBls UInt8) = none ∧
      PartCertBls.verify sigVerify pc (⟨[4]⟩ : PubKeyBls UInt8) = none ∧
      QuorumCertBls.verify sigVerify qc (⟨[4]⟩ : PubKeyBls UInt8) = none := by
  exact ⟨rfl, rfl, rfl, rfl⟩

/-! ## Certificates of single signatures -/

namespace QuorumCert

/-- The signature that is kept for the replica is valid. -/
def signedBy (config : Config Hash Sig) (qc : QuorumCert Hash Sig) (rid : ReplicaID) : Bool :=
  (qc.sigs.lookup rid).any (config.sigVerify rid qc.obj_hash)

/-- The task of a bit. `get_pubkey` throws before it is made when the replica is not configured. -/
def veri_task (config : Config Hash Sig) (qc : QuorumCert Hash Sig) (i : ℕ) : Option Bool :=
  let rid := rid_of_bit i
  if rid < config.nreplicas then some (qc.signedBy config rid) else none

/-- `verify` with the pool. -/
def verify_vpool (config : Config Hash Sig) (qc : QuorumCert Hash Sig) : Option Bool :=
  match config.scheme with
  | .secp256k1 =>
    if config.rule.isQuorum qc.signers then do
      let vpm ← (set_bits qc.rids).mapM (qc.veri_task config)
      veri_all vpm
    else some false
  | .bls => veri_all [config.threshVerify qc.obj_hash qc.threshSig]

/-- What a certificate should say: the signers are configured, they are a quorum, and each of them
signed the block. -/
structure Acceptable (config : Config Hash Sig) (qc : QuorumCert Hash Sig) : Prop where
  configured : ∀ i ∈ set_bits qc.rids, i < config.nreplicas
  quorum : config.rule.isQuorum (set_bits qc.rids).toFinset = true
  signed : ∀ i ∈ set_bits qc.rids, qc.signedBy config i = true

/-! ## Both checks where every bit is of a configured replica -/

variable {config : Config Hash Sig} {qc : QuorumCert Hash Sig}

/-- The loop of `verify` ends with a value, which tells whether all of them signed. -/
theorem verifyBits_of_configured (qc : QuorumCert Hash Sig) (i : ℕ) (bits : List Bool)
    (h : ∀ j, bits[j]? = some true → rid_of_bit (i + j) < config.nreplicas) :
    ∃ b, qc.verifyBits config i bits = some b ∧
      (b = true ↔ ∀ j, bits[j]? = some true → qc.signedBy config (rid_of_bit (i + j)) = true) := by
  induction bits generalizing i with
  | nil => exact ⟨true, rfl, by simp⟩
  | cons bit bits ih =>
    have hshift : ∀ j, i + (j + 1) = i + 1 + j := by omega
    have htail : ∀ j, bits[j]? = some true → rid_of_bit (i + 1 + j) < config.nreplicas := by
      intro j hj
      rw [← hshift]
      exact h (j + 1) (by simpa using hj)
    obtain ⟨b, hb, hall⟩ := ih (i + 1) htail
    have hcons : ∀ P : ℕ → Prop, (∀ j, (bit :: bits)[j]? = some true → P j) ↔
        (bit = true → P 0) ∧ ∀ j, bits[j]? = some true → P (j + 1) := by
      intro P
      constructor
      · intro hP
        exact ⟨fun hbit => hP 0 (by simp [hbit]), fun j hj => hP (j + 1) (by simpa using hj)⟩
      · rintro ⟨h0, hsucc⟩ j hj
        cases j with
        | zero => exact h0 (by simpa using hj)
        | succ j => exact hsucc j (by simpa using hj)
    have hall' : b = true ↔ ∀ j, bits[j]? = some true →
        qc.signedBy config (rid_of_bit (i + (j + 1))) = true := by
      rw [hall]
      exact forall_congr' fun j => by rw [hshift j]
    rw [hcons, Nat.add_zero, ← hall']
    unfold verifyBits
    cases bit with
    | false => exact ⟨b, hb, by simp⟩
    | true =>
      have hhead : rid_of_bit i < config.nreplicas := h 0 rfl
      simp only [if_pos hhead]
      by_cases hsig : qc.signedBy config (rid_of_bit i) = true
      · refine ⟨b, ?_, by simp [hsig]⟩
        unfold signedBy at hsig
        rw [if_pos hsig, hb]
      · refine ⟨false, ?_, by simp [hsig]⟩
        unfold signedBy at hsig
        rw [if_neg hsig]

theorem veri_tasks_of_configured {bits : List ℕ}
    (h : ∀ i ∈ bits, rid_of_bit i < config.nreplicas) :
    bits.mapM (qc.veri_task config) =
      some (bits.map fun i => qc.signedBy config (rid_of_bit i)) := by
  have htask : ∀ i ∈ bits, qc.veri_task config i = some (qc.signedBy config (rid_of_bit i)) := by
    intro i hi
    unfold veri_task
    rw [if_pos (h i hi)]
  rw [mapM_congr htask]
  exact List.mapM_pure

/-- No task is there for the others. -/
theorem veri_tasks_of_not_configured {bits : List ℕ} {i : ℕ} (hi : i ∈ bits)
    (h : ¬rid_of_bit i < config.nreplicas) : bits.mapM (qc.veri_task config) = none := by
  induction bits with
  | nil => cases hi
  | cons x bits ih =>
    rw [List.mapM_cons]
    rcases List.mem_cons.mp hi with rfl | hi
    · unfold veri_task
      rw [if_neg h]
      rfl
    · rw [ih hi]
      cases qc.veri_task config x with
      | none => rfl
      | some task => rfl

/-! ## What both checks decide -/

/-- Of a certificate that was read, the signers are the replicas of its bits. -/
theorem mem_signers_of_unserialize {fmt : Format Hash Sig} (hfmt : fmt.sig.scheme = .secp256k1)
    {bytes rest : List UInt8} (h : unserialize fmt bytes = some (qc, rest)) (rid : ReplicaID) :
    rid ∈ qc.signers ↔ ∃ i ∈ set_bits qc.rids, rid_of_bit i = rid := by
  unfold unserialize at h
  simp only [hfmt] at h
  obtain ⟨obj_hash, s1, -, h⟩ := bind_eq_some.mp h
  obtain ⟨rids, s2, -, h⟩ := bind_eq_some.mp h
  obtain ⟨sigs, s3, hsigs, h⟩ := bind_eq_some.mp h
  rw [← (pure_eq_some.mp h).1]
  have hlen : (set_bits rids).length = sigs.length := (read_many_length hsigs).symm
  unfold signers
  rw [List.mem_toFinset, (assigned_all _).keys]
  constructor
  · rintro ⟨e, he, hrid⟩
    exact ⟨e.1, (List.of_mem_zip he).1, hrid⟩
  · rintro ⟨i, hi, hrid⟩
    obtain ⟨sig, hlisted⟩ := exists_mem_zip hlen hi
    exact ⟨(i, sig), hlisted, hrid⟩

/-- The bits of configured replicas are the signers. -/
theorem set_bits_eq_signers {fmt : Format Hash Sig} (hfmt : fmt.sig.scheme = .secp256k1)
    {bytes rest : List UInt8} (h : unserialize fmt bytes = some (qc, rest))
    (hbits : ∀ i ∈ set_bits qc.rids, i < config.nreplicas) :
    (set_bits qc.rids).toFinset = qc.signers := by
  ext rid
  rw [List.mem_toFinset, mem_signers_of_unserialize hfmt h]
  constructor
  · intro hrid
    exact ⟨rid, hrid, rid_of_bit_of_lt (hbits rid hrid)⟩
  · rintro ⟨i, hi, rfl⟩
    rw [rid_of_bit_of_lt (hbits i hi)]
    exact hi

/-- Signatures of a quorum of configured replicas are checked, and both checks tell whether they are
valid. -/
theorem checks_of_configured (hs : config.scheme = .secp256k1)
    (hq : config.rule.isQuorum qc.signers = true) (hbits : set_bits qc.rids ≠ [])
    (h : ∀ i ∈ set_bits qc.rids, rid_of_bit i < config.nreplicas) :
    ∃ b, qc.verify config = some b ∧ qc.verify_vpool config = some b ∧
      (b = true ↔ ∀ i ∈ set_bits qc.rids, qc.signedBy config (rid_of_bit i) = true) := by
  have hloop : ∀ j, qc.rids[j]? = some true → rid_of_bit (0 + j) < config.nreplicas := by
    intro j hj
    rw [Nat.zero_add]
    exact h j (mem_set_bits.mpr hj)
  obtain ⟨b, hb, hall⟩ := qc.verifyBits_of_configured 0 qc.rids hloop
  have hsigned : b = true ↔
      ∀ i ∈ set_bits qc.rids, qc.signedBy config (rid_of_bit i) = true := by
    simpa only [Nat.zero_add, ← mem_set_bits] using hall
  refine ⟨b, ?_, ?_, hsigned⟩
  · simp [verify, hs, hq, hb]
  · have hb' : ((set_bits qc.rids).map fun i => qc.signedBy config (rid_of_bit i)).all id = b := by
      rw [Bool.eq_iff_iff, hsigned]
      simp
    unfold verify_vpool
    simp only [hs, if_pos hq, veri_tasks_of_configured h, Option.bind_eq_bind, Option.bind_some]
    unfold veri_all
    rw [if_neg (by simpa using hbits), hb']

theorem signed_iff_acceptable {fmt : Format Hash Sig} (hfmt : fmt.sig.scheme = .secp256k1)
    {bytes rest : List UInt8} (h : unserialize fmt bytes = some (qc, rest))
    (hq : config.rule.isQuorum qc.signers = true)
    (hbits : ∀ i ∈ set_bits qc.rids, i < config.nreplicas) :
    (∀ i ∈ set_bits qc.rids, qc.signedBy config (rid_of_bit i) = true) ↔
      qc.Acceptable config := by
  constructor
  · intro hall
    refine ⟨hbits, by rw [set_bits_eq_signers hfmt h hbits, hq], ?_⟩
    intro i hi
    rw [← rid_of_bit_of_lt (hbits i hi)]
    exact hall i hi
  · intro hacc i hi
    rw [rid_of_bit_of_lt (hbits i hi)]
    exact hacc.signed i hi

/-- Both checks of a certificate that was read give the same answer, and the right one, exactly when
its signers are no quorum, or each bit is of a configured replica, or each bit is cut to the number
of a configured replica and some signature is not valid. -/
theorem checks_are_right_when_signers_are_configured {fmt : Format Hash Sig}
    (hfmt : fmt.sig.scheme = .secp256k1) {config : Config Hash Sig}
    (hs : config.scheme = .secp256k1) (hne : config.rule.isQuorum ∅ = false)
    {bytes rest : List UInt8} {qc : QuorumCert Hash Sig}
    (h : unserialize fmt bytes = some (qc, rest)) :
    (∃ b, qc.verify config = some b ∧ qc.verify_vpool config = some b ∧
      (b = true ↔ qc.Acceptable config)) ↔
    (config.rule.isQuorum qc.signers = false ∨
      (∀ i ∈ set_bits qc.rids, i < config.nreplicas) ∨
      ((∀ i ∈ set_bits qc.rids, rid_of_bit i < config.nreplicas) ∧
        ∃ i ∈ set_bits qc.rids, qc.signedBy config (rid_of_bit i) = false)) := by
  cases hq : config.rule.isQuorum qc.signers with
  | false =>
    have hno : ¬qc.Acceptable config := by
      intro hacc
      have hquorum := hacc.quorum
      rw [set_bits_eq_signers hfmt h hacc.configured, hq] at hquorum
      cases hquorum
    have hverify : qc.verify config = some false := by simp [verify, hs, hq]
    have hpool : qc.verify_vpool config = some false := by simp [verify_vpool, hs, hq]
    simp [hverify, hpool, hno]
  | true =>
    have hbits : set_bits qc.rids ≠ [] := by
      intro hnil
      have hempty : qc.signers = ∅ := by
        ext rid
        simp [mem_signers_of_unserialize hfmt h, hnil]
      rw [hempty, hne] at hq
      cases hq
    by_cases hcut : ∀ i ∈ set_bits qc.rids, rid_of_bit i < config.nreplicas
    · obtain ⟨b, hb, hb', hsigned⟩ := checks_of_configured hs hq hbits hcut
      by_cases hconf : ∀ i ∈ set_bits qc.rids, i < config.nreplicas
      · have hacc := hsigned.trans (signed_iff_acceptable hfmt h hq hconf)
        exact iff_of_true ⟨b, hb, hb', hacc⟩ (.inr (.inl hconf))
      · have hno : ¬qc.Acceptable config := fun hacc => hconf hacc.configured
        have hsome : b = false ↔
            ∃ i ∈ set_bits qc.rids, qc.signedBy config (rid_of_bit i) = false := by
          rw [← Bool.not_eq_true, hsigned]
          push Not
          simp
        have hleft : (∃ b, qc.verify config = some b ∧ qc.verify_vpool config = some b ∧
            (b = true ↔ qc.Acceptable config)) ↔ b = false := by
          simp [hb, hb', hno]
        rw [hleft, hsome]
        constructor
        · intro hex
          exact .inr (.inr ⟨hcut, hex⟩)
        · rintro (hfalse | hall | ⟨-, hex⟩)
          · cases hfalse
          · exact absurd hall hconf
          · exact hex
    · have hpool : qc.verify_vpool config = none := by
        push Not at hcut
        obtain ⟨i, hi, hrid⟩ := hcut
        unfold verify_vpool
        simp [hs, hq, veri_tasks_of_not_configured hi (not_lt.mpr hrid)]
      have hconf : ¬∀ i ∈ set_bits qc.rids, i < config.nreplicas := by
        intro hconf
        apply hcut
        intro i hi
        rw [rid_of_bit_of_lt (hconf i hi)]
        exact hconf i hi
      simp [hpool, hconf, hcut]

/-- Four replicas of the threshold build, each of which signs a hash by adding its number. -/
def adding_signers : Config UInt8 UInt8 :=
  { two_step := false
    scheme := .secp256k1
    rule := .threshold 3
    nreplicas := 4
    nreplicas_le := Config.four_le
    b0 := 0
    get_hash := fun _ => 0
    sign := fun rid h => h + UInt8.ofNat rid
    sigVerify := fun rid h sig => sig = h + UInt8.ofNat rid
    recover := fun _ => 0
    threshVerify := fun _ _ => false }

set_option maxRecDepth 10000 in
theorem three_of_four_signers_are_checked :
    let qc : QuorumCert UInt8 UInt8 :=
      { obj_hash := 5, rids := [true, true, true, false],
        sigs := [(0, 5), (1, 6), (2, 7)], threshSig := none }
    ∃ bytes, unserialize one_byte_format bytes = some (qc, []) ∧
      ∃ b, qc.verify adding_signers = some b ∧ qc.verify_vpool adding_signers = some b ∧
        (b = true ↔ qc.Acceptable adding_signers) := by
  intro qc
  have hread : unserialize one_byte_format ((qc.serialize one_byte_format).getD []) =
      some (qc, []) := by rfl
  refine ⟨_, hread, ?_⟩
  rw [checks_are_right_when_signers_are_configured rfl rfl rfl hread]
  decide

set_option maxRecDepth 10000 in
/-- A bit of a fifth replica. With valid signatures before it both checks throw, with an invalid one
only the check with the pool does. -/
theorem a_fifth_signer_throws :
    let qc : UInt8 → QuorumCert UInt8 UInt8 := fun sig =>
      { obj_hash := 5, rids := [true, true, true, false, true],
        sigs := [(0, sig), (1, 6), (2, 7), (4, 9)], threshSig := none }
    (∀ sig, ∃ bytes, unserialize one_byte_format bytes = some (qc sig, [])) ∧
      adding_signers.rule.isQuorum ∅ = false ∧
      (qc 5).verify adding_signers = none ∧ (qc 5).verify_vpool adding_signers = none ∧
      (qc 0).verify adding_signers = some false ∧
      (qc 0).verify_vpool adding_signers = none := by
  intro qc
  refine ⟨?_, rfl, rfl, rfl, rfl, rfl⟩
  intro sig
  exact ⟨((qc sig).serialize one_byte_format).getD [], rfl⟩

end QuorumCert

end general_hotstuff
