-- The replicas together. The correct ones run `HotStuffCore` on whatever arrives, in any
-- order and any number of times. The others send any block, proposal and vote, as long
-- as it needs no new signature of a correct one.
import Mathlib.Logic.Relation
import GeneralHotStuff.VoteCollection
import GeneralHotStuff.ChainedVotes

namespace general_hotstuff

open quorums (ReplicaID)

variable {Hash Sig : Type}

/-! ## Blocks by their content -/

namespace Config

/-- The block with hash `h` has `p` as its first parent. -/
def Parent (config : Config Hash Sig) (h p : Hash) : Prop :=
  ∃ data, config.get_hash data = h ∧ data.parent_hashes.head? = some p

/-- The certificate in the block with hash `h` is on `q`. -/
def QcOf (config : Config Hash Sig) (h q : Hash) : Prop :=
  ∃ data, config.get_hash data = h ∧ data.qc.obj_hash = q

/-- `b` is on the chain of first parents that starts at `a`. -/
def Above (config : Config Hash Sig) : Hash → Hash → Prop := Relation.ReflTransGen config.Parent

/-- The number of first parents from a block down to genesis. -/
inductive Depth (config : Config Hash Sig) : Hash → ℕ → Prop where
  | genesis : Depth config config.b0 0
  | next {h p : Hash} {n : ℕ} (hp : config.Parent h p) (hn : Depth config p n) :
      Depth config h (n + 1)

/-- Blocks with one hash name the same parents and the same certified block, and only genesis has
the hash of genesis. -/
structure CollisionFree (config : Config Hash Sig) : Prop where
  content : ∀ data data', config.get_hash data = config.get_hash data' →
    data.parent_hashes = data'.parent_hashes ∧ data.qc.obj_hash = data'.qc.obj_hash
  genesis : ∀ data, config.get_hash data = config.b0 → data.parent_hashes = []

variable {config : Config Hash Sig}

theorem CollisionFree.parent_unique (hc : CollisionFree config) {h p q : Hash}
    (hp : config.Parent h p) (hq : config.Parent h q) : p = q := by
  obtain ⟨data, hd, hhead⟩ := hp
  obtain ⟨data', hd', hhead'⟩ := hq
  rw [(hc.content data data' (hd.trans hd'.symm)).1, hhead'] at hhead
  exact (Option.some.inj hhead).symm

theorem CollisionFree.qcOf_unique (hc : CollisionFree config) {h p q : Hash}
    (hp : config.QcOf h p) (hq : config.QcOf h q) : p = q := by
  obtain ⟨data, hd, rfl⟩ := hp
  obtain ⟨data', hd', rfl⟩ := hq
  exact (hc.content data data' (hd.trans hd'.symm)).2

/-- The block of the certificate is a proper ancestor of the block. -/
def Extends (config : Config Hash Sig) (data : BlockData Hash Sig) : Prop :=
  ∀ p, data.parent_hashes.head? = some p → config.Above p data.qc.obj_hash

theorem CollisionFree.above_of_extends (hc : CollisionFree config) {data : BlockData Hash Sig}
    (he : config.Extends data) {p q : Hash} (hp : config.Parent (config.get_hash data) p)
    (hq : config.QcOf (config.get_hash data) q) : config.Above p q := by
  obtain ⟨data', hd', hhead⟩ := hp
  rw [hc.qcOf_unique hq ⟨data, rfl, rfl⟩]
  rw [(hc.content data' data hd').1] at hhead
  exact he p hhead

theorem CollisionFree.not_parent_b0 (hc : CollisionFree config) {p : Hash} :
    ¬ config.Parent config.b0 p := by
  rintro ⟨data, hd, hhead⟩
  rw [hc.genesis data hd] at hhead
  cases hhead

theorem CollisionFree.depth_unique (hc : CollisionFree config) {h : Hash} {m n : ℕ}
    (hm : config.Depth h m) (hn : config.Depth h n) : m = n := by
  induction hm generalizing n with
  | genesis =>
    cases hn with
    | genesis => rfl
    | next hp => exact absurd hp hc.not_parent_b0
  | next hp _ ih =>
    cases hn with
    | genesis => exact absurd hp hc.not_parent_b0
    | next hq hn' => rw [ih (hc.parent_unique hp hq ▸ hn')]

theorem Depth.above_b0 {h : Hash} {n : ℕ} (hn : config.Depth h n) : config.Above h config.b0 := by
  induction hn with
  | genesis => exact .refl
  | next hp _ ih => exact .head hp ih

/-- Along first parents the depth falls. -/
theorem CollisionFree.depth_of_above (hc : CollisionFree config) {a b : Hash} {m : ℕ}
    (h : config.Above a b) (hm : config.Depth a m) :
    ∃ n, config.Depth b n ∧ n ≤ m ∧ (a ≠ b → n < m) := by
  induction h with
  | refl => exact ⟨m, hm, le_rfl, fun hne => absurd rfl hne⟩
  | tail _ hp ih =>
    obtain ⟨n, hn, hle, -⟩ := ih
    cases hn with
    | genesis => exact absurd hp hc.not_parent_b0
    | next hq hn' =>
      have heq := hc.parent_unique hq hp
      exact ⟨_, heq ▸ hn', by omega, fun _ => by omega⟩

/-- Two blocks on one chain are on the chain of one of them. -/
theorem CollisionFree.above_linear (hc : CollisionFree config) {a b c : Hash}
    (hb : config.Above a b) (hc' : config.Above a c) : config.Above b c ∨ config.Above c b :=
  Relation.ReflTransGen.total_of_right_unique (fun _ _ _ => hc.parent_unique) hb hc'

/-- The depth as a number, zero where there is none. -/
noncomputable def depth (config : Config Hash Sig) (h : Hash) : ℕ :=
  open Classical in if hn : ∃ n, config.Depth h n then hn.choose else 0

theorem CollisionFree.depth_eq (hc : CollisionFree config) {h : Hash} {n : ℕ}
    (hn : config.Depth h n) : config.depth h = n := by
  have hex : ∃ n, config.Depth h n := ⟨n, hn⟩
  rw [depth, dif_pos hex]
  exact hc.depth_unique hex.choose_spec hn

theorem CollisionFree.depth_pos (hc : CollisionFree config) {h : Hash} {n : ℕ}
    (hn : config.Depth h n) (hne : h ≠ config.b0) : 0 < config.depth h := by
  rw [hc.depth_eq hn]
  cases hn with
  | genesis => exact absurd rfl hne
  | next => exact Nat.succ_pos _

/-! ## Quorums -/

/-- The voters are a quorum of configured replicas. -/
def Quorum (config : Config Hash Sig) (Q : Finset ReplicaID) : Prop :=
  (∀ i ∈ Q, i < config.nreplicas) ∧ config.rule.isQuorum Q = true

/-- Any two quorums share a correct replica. -/
def Intersecting (config : Config Hash Sig) (correct : ReplicaID → Prop) : Prop :=
  ∀ P Q, config.Quorum P → config.Quorum Q → ∃ i, i ∈ P ∧ i ∈ Q ∧ correct i

/-- In the threshold build it is enough that at most `nfaulty` replicas are not correct. -/
theorem intersecting_of_threshold {correct : ReplicaID → Prop} {faulty : Finset ReplicaID}
    (hpos : 0 < config.nreplicas)
    (hrule : config.rule = .threshold
      (quorums.on_init_nmajority config.nreplicas (quorums.start_nfaulty config.nreplicas)))
    (hfaulty : faulty.card ≤ quorums.start_nfaulty config.nreplicas)
    (hcorrect : ∀ i < config.nreplicas, i ∉ faulty → correct i) :
    config.Intersecting correct := by
  intro P Q hP hQ
  have hcount : ∀ A : Finset ReplicaID, config.Quorum A →
      config.nreplicas - (config.nreplicas - 1) / 3 ≤ A.card := by
    intro A hA
    simpa [hrule, QuorumRule.isQuorum, quorums.on_init_nmajority, quorums.start_nfaulty] using hA.2
  have hunion : (P ∪ Q).card ≤ config.nreplicas := by
    rw [← Finset.card_range config.nreplicas]
    refine Finset.card_le_card fun i hi => Finset.mem_range.mpr ?_
    rcases Finset.mem_union.mp hi with hi | hi
    · exact hP.1 i hi
    · exact hQ.1 i hi
  have hinter := Finset.card_union_add_card_inter P Q
  have hmore : faulty.card < (P ∩ Q).card := by
    have := hcount P hP
    have := hcount Q hQ
    rw [quorums.start_nfaulty] at hfaulty
    omega
  obtain ⟨i, hi, hif⟩ := Finset.exists_mem_notMem_of_card_lt_card hmore
  obtain ⟨hiP, hiQ⟩ := Finset.mem_inter.mp hi
  exact ⟨i, hiP, hiQ, hcorrect i (hP.1 i hiP) hif⟩

/-- The quorums of the configuration on the tree that grows from genesis. -/
noncomputable def setting (hc : CollisionFree config) {correct : ReplicaID → Prop}
    (hi : config.Intersecting correct) : chained_votes.Setting ReplicaID Hash where
  correct := correct
  quorum := config.Quorum
  above a b := config.Above a b ∧ ∃ n, config.Depth a n
  height := config.depth
  intersect := hi
  trans _ _ _ hab hbc := ⟨hab.1.trans hbc.1, hab.2⟩
  height_lt a b hab hne := by
    obtain ⟨hab, m, hm⟩ := hab
    obtain ⟨n, hn, -, hlt⟩ := hc.depth_of_above hab hm
    rw [hc.depth_eq hm, hc.depth_eq hn]
    exact hlt hne

end Config

/-! ## Certificates on the wire -/

/-- A certificate as `unserialize` makes it has a signature for its bits only. -/
def QuorumCert.Parsed (qc : QuorumCert Hash Sig) : Prop :=
  ∀ rid ∈ qc.signers, ∃ i < qc.rids.length, qc.rids[i]? = some true ∧ rid_of_bit i = rid

/-- The correct members of a quorum of configured replicas have voted for the block. -/
def Certified (config : Config Hash Sig) (correct : ReplicaID → Prop)
    (votes : List (ReplicaID × Hash)) (h : Hash) : Prop :=
  ∃ Q, config.Quorum Q ∧ ∀ i ∈ Q, correct i → (i, h) ∈ votes

/-- No signature of a correct replica verifies that it has not made, and no threshold signature
for which no quorum has signed. -/
def Unforged (config : Config Hash Sig) (correct : ReplicaID → Prop)
    (votes : List (ReplicaID × Hash)) (qc : QuorumCert Hash Sig) : Prop :=
  match config.scheme with
  | .secp256k1 => ∀ p ∈ qc.sigs, correct p.1 →
    config.sigVerify p.1 qc.obj_hash p.2 = true → (p.1, qc.obj_hash) ∈ votes
  | .bls => config.threshVerify qc.obj_hash qc.threshSig = true →
    Certified config correct votes qc.obj_hash

section Certificates

variable {config : Config Hash Sig} {correct : ReplicaID → Prop}
  {votes votes' : List (ReplicaID × Hash)}

theorem Certified.mono {h : Hash} (hc : Certified config correct votes h)
    (hsub : ∀ v ∈ votes, v ∈ votes') : Certified config correct votes' h := by
  obtain ⟨Q, hQ, hall⟩ := hc
  exact ⟨Q, hQ, fun i hi hci => hsub _ (hall i hi hci)⟩

theorem Unforged.mono {qc : QuorumCert Hash Sig} (hu : Unforged config correct votes qc)
    (hsub : ∀ v ∈ votes, v ∈ votes') : Unforged config correct votes' qc := by
  unfold Unforged at hu ⊢
  split
  · rename_i hs
    simp only [hs] at hu
    exact fun p hp hc hv => hsub _ (hu p hp hc hv)
  · rename_i hs
    simp only [hs] at hu
    exact fun hv => (hu hv).mono hsub

theorem QuorumCert.verifyBits_spec {qc : QuorumCert Hash Sig} {i : ℕ} {bits : List Bool}
    (h : qc.verifyBits config i bits = some true) {j : ℕ} (hj : bits[j]? = some true) :
    rid_of_bit (i + j) < config.nreplicas ∧ ∃ σ, (rid_of_bit (i + j), σ) ∈ qc.sigs ∧
      config.sigVerify (rid_of_bit (i + j)) qc.obj_hash σ = true := by
  induction bits generalizing i j with
  | nil => simp at hj
  | cons bit bits ih =>
    have hstep : ∀ {j : ℕ}, qc.verifyBits config (i + 1) bits = some true →
        (bit :: bits)[j + 1]? = some true → rid_of_bit (i + (j + 1)) < config.nreplicas ∧
          ∃ σ, (rid_of_bit (i + (j + 1)), σ) ∈ qc.sigs ∧
            config.sigVerify (rid_of_bit (i + (j + 1))) qc.obj_hash σ = true := by
      intro j hrest hj
      have := ih hrest (j := j) (by simpa using hj)
      rwa [show i + 1 + j = i + (j + 1) by omega] at this
    cases bit with
    | false =>
      cases j with
      | zero => simp at hj
      | succ j => exact hstep h hj
    | true =>
      simp only [verifyBits] at h
      split at h
      · rename_i hi
        split at h
        · rename_i hany
          cases j with
          | zero =>
            cases hσ : qc.sigs.lookup (rid_of_bit i) with
            | none => simp [hσ] at hany
            | some σ =>
              obtain ⟨before, after, hsplit, -⟩ := List.lookup_eq_some_iff.mp hσ
              exact ⟨hi, σ, by simp [hsplit], by simpa [hσ] using hany⟩
          | succ j => exact hstep h hj
        · cases h
      · cases h

/-- A certificate that arrives and verifies is on a certified block. -/
theorem Unforged.certified {qc : QuorumCert Hash Sig} (hu : Unforged config correct votes qc)
    (hp : qc.Parsed) (hv : qc.verify config = some true) :
    Certified config correct votes qc.obj_hash := by
  unfold Unforged at hu
  cases hs : config.scheme with
  | secp256k1 =>
    simp only [hs] at hu
    simp only [QuorumCert.verify, hs] at hv
    split at hv
    · rename_i hq
      have hbit : ∀ i ∈ qc.signers, i < config.nreplicas ∧
          ∃ σ, (i, σ) ∈ qc.sigs ∧ config.sigVerify i qc.obj_hash σ = true := by
        intro i hi
        obtain ⟨j, -, hj, hrid⟩ := hp i hi
        rw [← hrid]
        simpa using QuorumCert.verifyBits_spec hv hj
      refine ⟨qc.signers, ⟨fun i hi => (hbit i hi).1, hq⟩, fun i hi hc => ?_⟩
      obtain ⟨-, σ, hσ, hver⟩ := hbit i hi
      exact hu (i, σ) hσ hc hver
    · cases hv
  | bls =>
    simp only [hs] at hu
    simp only [QuorumCert.verify, hs, Option.some.injEq] at hv
    exact hu hv

end Certificates

/-! ## Worlds -/

/-- The states of the replicas and the votes that correct ones have sent, the newest first. -/
structure World (Hash Sig : Type) where
  core : ReplicaID → HotStuffCore Hash Sig
  votes : List (ReplicaID × Hash)

/-- The block that is voted for. -/
def Output.voted : Output Hash Sig → Option Hash
  | .do_vote _ vote => some vote.blk_hash
  | _ => none

/-- The blocks that the replica has sent a vote for, in order. -/
def HotStuffCore.votes_sent (s : HotStuffCore Hash Sig) : List Hash := s.out.filterMap Output.voted

namespace World

open HotStuffCore (Call)

variable [DecidableEq Hash]

/-- All replicas after `start`. -/
def start (config : Config Hash Sig) : World Hash Sig :=
  { core := HotStuffCore.on_init config
    votes := [] }

/-- The world after a call has left replica `r` in the state `s`. -/
def after (w : World Hash Sig) (r : ReplicaID) (s : HotStuffCore Hash Sig) : World Hash Sig :=
  { core := Function.update w.core r s
    votes := (s.votes_sent.drop (w.core r).votes_sent.length).reverse.map (r, ·) ++ w.votes }

/-- What `HotStuffBase` ensures before it calls the core of a replica, and what no one can send.
A block is delivered once its certificate is verified, the certified block is there and the
parents are delivered. A proposal comes from another replica and its block is delivered. A vote is
verified. -/
def Enabled (config : Config Hash Sig) (correct : ReplicaID → Prop) (w : World Hash Sig)
    (r : ReplicaID) : Call Hash Sig → Prop
  | .add_blk data => data.qc.Parsed ∧ Unforged config correct w.votes data.qc
  | .on_deliver_blk blk => ∃ b, (w.core r).storage blk = some b ∧ b.verify config = some true ∧
    ((w.core r).storage b.qc.obj_hash).isSome ∧
    ∀ p ∈ b.parent_hashes, (w.core r).delivered p = true
  | .on_propose _ parents _ => ∀ p ∈ parents, (w.core r).delivered p = true
  | .on_receive_proposal prop => prop.proposer ≠ r ∧ (w.core r).delivered prop.blk = true
  | .on_receive_vote vote => HotStuffCore.Verified config vote ∧
    (correct vote.voter → (vote.voter, vote.blk_hash) ∈ w.votes)
  | .set_vote_disabled _ => True

/-- A world that the correct replicas reach. Chains stay shorter than 2^32, and each step
satisfies `ok` in the world before it. -/
inductive Run (config : Config Hash Sig) (correct : ReplicaID → Prop)
    (ok : World Hash Sig → ReplicaID → Call Hash Sig → Prop) : World Hash Sig → Prop where
  | start : Run config correct ok (start config)
  | step {w : World Hash Sig} {r : ReplicaID} {c : Call Hash Sig} {s : HotStuffCore Hash Sig}
      (hw : Run config correct ok w) (hr : correct r) (hshort : (w.core r).Short)
      (he : w.Enabled config correct r c) (hok : ok w r c)
      (hs : ((w.core r).call config c).state? = some s) : Run config correct ok (w.after r s)

end World

end general_hotstuff
