-- The two builds side by side. A replica asks its quorum rule about configured replicas only,
-- so that two rules which agree on these lead to the same runs.
import GeneralHotStuff.QuorumConfs

namespace general_hotstuff

open quorums (ReplicaID)

variable {Hash Sig : Type} {config : Config Hash Sig} {correct : ReplicaID → Prop}

/-! ## Another rule -/

namespace Config

def with_rule (config : Config Hash Sig) (rule : QuorumRule) : Config Hash Sig :=
  { config with rule := rule }

/-- The rules decide alike about configured replicas. -/
def SameQuorums (config : Config Hash Sig) (rule : QuorumRule) : Prop :=
  ∀ Q : Finset ReplicaID, (∀ i ∈ Q, i < config.nreplicas) →
    config.rule.isQuorum Q = rule.isQuorum Q

variable {rule : QuorumRule}

theorem SameQuorums.quorum (h : config.SameQuorums rule) (Q : Finset ReplicaID) :
    config.Quorum Q ↔ (config.with_rule rule).Quorum Q := by
  unfold Quorum
  constructor
  · rintro ⟨hQ, hq⟩
    exact ⟨hQ, (h Q hQ).symm.trans hq⟩
  · rintro ⟨hQ, hq⟩
    exact ⟨hQ, (h Q hQ).trans hq⟩

theorem SameQuorums.certified (h : config.SameQuorums rule)
    (votes : List (ReplicaID × Hash)) (x : Hash) :
    Certified config correct votes x ↔ Certified (config.with_rule rule) correct votes x := by
  simp only [Certified, h.quorum]

theorem SameQuorums.unforged (h : config.SameQuorums rule)
    {votes : List (ReplicaID × Hash)} {qc : QuorumCert Hash Sig}
    (hu : Unforged config correct votes qc) :
    Unforged (config.with_rule rule) correct votes qc := by
  unfold Unforged at hu ⊢
  simp only [with_rule]
  split
  · rename_i hs
    simpa only [hs] using hu
  · rename_i hs
    simp only [hs] at hu
    exact fun hv => (h.certified votes _).mp (hu hv)

theorem with_rule_collisionFree (hc : config.CollisionFree) (rule : QuorumRule) :
    (config.with_rule rule).CollisionFree :=
  ⟨hc.content, hc.genesis⟩

end Config

/-! ## What a replica asks its rule -/

namespace QuorumCert

theorem verifyBits_with_rule (qc : QuorumCert Hash Sig) (rule : QuorumRule) (i : ℕ)
    (bits : List Bool) :
    qc.verifyBits (config.with_rule rule) i bits = qc.verifyBits config i bits := by
  induction bits generalizing i with
  | nil => rfl
  | cons bit bits ih =>
    cases bit with
    | false => exact ih (i + 1)
    | true =>
      simp only [verifyBits, ih]
      rfl

/-- A parsed certificate verifies under both rules or none. -/
theorem verify_with_rule {rule : QuorumRule} (h : config.SameQuorums rule)
    {qc : QuorumCert Hash Sig} (hp : qc.Parsed) (hv : qc.verify config = some true) :
    qc.verify (config.with_rule rule) = some true := by
  unfold verify at hv ⊢
  cases hs : config.scheme with
  | bls => simpa [hs, Config.with_rule] using hv
  | secp256k1 =>
    simp only [hs] at hv
    split at hv
    · rename_i hq
      have hsigners : ∀ i ∈ qc.signers, i < config.nreplicas := by
        intro i hi
        obtain ⟨j, -, hj, hrid⟩ := hp i hi
        have := (verifyBits_spec hv hj).1
        rwa [Nat.zero_add, hrid] at this
      have hq' : rule.isQuorum qc.signers = true := (h _ hsigners).symm.trans hq
      simpa [Config.with_rule, hs, hq'] using (verifyBits_with_rule qc rule 0 _).trans hv
    · cases hv

end QuorumCert

namespace HotStuffCore

variable [DecidableEq Hash] {s : HotStuffCore Hash Sig} {rule : QuorumRule}

/-- The stored blocks have votes of configured replicas, and those that wait for their delivery a
parsed certificate. -/
structure Known (config : Config Hash Sig) (s : HotStuffCore Hash Sig) : Prop where
  blocks : BlocksOk config s
  certs : s.CertsOk
  voted : ∀ h b, s.storage h = some b → ∀ i ∈ b.voted, i < config.nreplicas
  parsed : ∀ h b, s.storage h = some b → b.delivered = false → b.qc.Parsed

/-- The rule is asked about voters on one block, without and with a new one. -/
theorem on_receive_vote_with_rule (h : config.SameQuorums rule) (hs : Known config s)
    {vote : Vote Hash Sig} (hv : vote.voter < config.nreplicas) :
    s.on_receive_vote (config.with_rule rule) vote = s.on_receive_vote config vote := by
  unfold on_receive_vote
  cases hb : s.storage vote.blk_hash with
  | none => rfl
  | some b =>
    have hvoted := hs.voted _ b hb
    have hq := h b.voted hvoted
    have hq' := h (insert vote.voter b.voted) fun i hi => by
      rcases Finset.mem_insert.mp hi with rfl | hi
      · exact hv
      · exact hvoted i hi
    have hrule : (config.with_rule rule).rule = rule := rfl
    simp only [hrule, hq]
    by_cases hquorum : rule.isQuorum b.voted = true
    · simp [hquorum]
    by_cases hmem : vote.voter ∈ b.voted
    · simp [hmem]
    have hbecomes : rule.becomesQuorum b.voted.card (insert vote.voter b.voted) =
        config.rule.becomesQuorum b.voted.card (insert vote.voter b.voted) := by
      rw [rule.becomesQuorum_eq hmem (by simpa using hquorum),
        config.rule.becomesQuorum_eq hmem (by rw [hq]; simpa using hquorum), hq']
    simp only [hbecomes]
    rfl

theorem on_init_known (config : Config Hash Sig) (id : ReplicaID) :
    Known config (on_init config id) where
  blocks := on_init_blocksOk config id
  certs := on_init_certsOk config id
  voted h b hb i hi := by
    by_cases hh : h = config.b0
    · simp only [on_init, hh, Function.update_self, Option.some.injEq] at hb
      subst hb
      simpa [genesis] using hi
    · simp [on_init, hh] at hb
  parsed h b hb hd := by
    by_cases hh : h = config.b0
    · simp only [on_init, hh, Function.update_self, Option.some.injEq] at hb
      subst hb
      cases hd
    · simp [on_init, hh] at hb

omit [DecidableEq Hash] in
/-- The stored blocks, their votes and certificates stay. -/
theorem Known.frame {s' : HotStuffCore Hash Sig} (h : Known config s)
    (hblocks : BlocksOk config s') (hcerts : s'.CertsOk) (hs : SameShape s s')
    (hv : SameVotes s s') : Known config s' where
  blocks := hblocks
  certs := hcerts
  voted x b' hb' i hi := by
    obtain ⟨b, hb, -, hvoted⟩ := hv.block hb'
    exact h.voted x b hb i (hvoted ▸ hi)
  parsed x b' hb' hd := by
    obtain ⟨b, hb, hsh⟩ := (hs.symm x).block hb'
    have hqc : b.qc = b'.qc := congrArg (·.qc) hsh
    exact hqc ▸ h.parsed x b hb ((congrArg (·.delivered) hsh).trans hd)

/-- One block is written. -/
theorem Known.put {s' : HotStuffCore Hash Sig} (h : Known config s)
    (hblocks : BlocksOk config s') (hcerts : s'.CertsOk) {x : Hash} {b : Block Hash Sig}
    (hs : s'.storage = (s.put x b).storage) (hvoted : ∀ i ∈ b.voted, i < config.nreplicas)
    (hparsed : b.delivered = false → b.qc.Parsed) : Known config s' where
  blocks := hblocks
  certs := hcerts
  voted y c hc i hi := by
    rw [hs] at hc
    by_cases hy : y = x
    · rw [hy, storage_put_self, Option.some.injEq] at hc
      exact hvoted i (hc ▸ hi)
    · rw [storage_put_of_ne s b hy] at hc
      exact h.voted y c hc i hi
  parsed y c hc hd := by
    rw [hs] at hc
    by_cases hy : y = x
    · rw [hy, storage_put_self, Option.some.injEq] at hc
      exact hc ▸ hparsed (hc ▸ hd)
    · rw [storage_put_of_ne s b hy] at hc
      exact h.parsed y c hc hd

theorem kept_known (config : Config Hash Sig) :
    Kept config fun s : HotStuffCore Hash Sig => Known config s where
  update s nblk h hd := by
    intro s' hs'
    have hsame := update_sameShape config s nblk s' hs'
    exact h.frame (h.blocks.of_sameShape hsame) (update_certsOk config h.blocks h.certs hd s' hs')
      hsame (update_sameVotes config s nblk s' hs')
  vote_on s prop h := by
    intro s' hs'
    have hcerts := ((kept_certsOk config).vote_on s prop ⟨h.blocks, h.certs⟩) s' hs'
    have hstorage : s'.storage = s.storage := by
      rcases vote_on_cases config prop s with ⟨-, ho⟩ | ho | ⟨-, ho⟩
      · rw [ho] at hs'
        cases hs'
      · rw [ho] at hs'
        exact Option.some.inj hs' ▸ rfl
      · rw [ho] at hs'
        exact Option.some.inj hs' ▸ rfl
    exact h.frame hcerts.1 hcerts.2 (.of_storage_eq hstorage) (.of_storage_eq hstorage)
  broadcast s _ h := h.frame (h.blocks.of_sameShape (SameShape.of_storage_eq (s := s) rfl))
    ⟨h.certs.hqc, h.certs.stored, h.certs.self_qc⟩ (.of_storage_eq rfl) (.of_storage_eq rfl)

/-- A call that can occur asks about configured replicas, and keeps it so. -/
theorem Known.call (hc : config.CollisionFree) {w : World Hash Sig} {r : ReplicaID}
    (h : Known config (w.core r)) (hshort : (w.core r).Short) {c : Call Hash Sig}
    (he : w.Enabled config correct r c) :
    ((w.core r).call config c).Leaves (Known config) := by
  intro s' hs'
  have hblocks := call_blocksOk config h.blocks hshort c s' hs'
  have hcerts := call_certsOk config h.blocks h.certs hshort c s' hs'
  have hk := kept_known config
  cases c with
  | add_blk data =>
    cases hb : (w.core r).storage (config.get_hash data) with
    | none =>
      rw [call_add_blk_of_none hb] at hs'
      have hput := (Option.some.inj hs').symm
      exact h.put hblocks hcerts (congrArg (·.storage) hput) (by simp [Block.unserialize])
        fun _ => he.1
    | some b =>
      rw [call_add_blk_of_isSome (by simp [hb])] at hs'
      exact Option.some.inj hs' ▸ h
  | on_deliver_blk blk =>
    obtain ⟨b, hb, -⟩ := he
    cases hd : b.delivered with
    | true =>
      rw [HotStuffCore.call, on_deliver_blk_of_delivered hb hd] at hs'
      exact Option.some.inj hs' ▸ h
    | false =>
      obtain ⟨b', t, hdel, rfl, -⟩ := on_deliver_blk_leaves hb hd s' hs'
      refine h.put hblocks hcerts rfl (fun i hi => ?_) fun _ => ?_
      · exact h.voted blk b hb i (hdel.votes_eq.2.1 ▸ hi)
      · rw [hdel.toBlockData_eq]
        exact h.parsed blk b hb hd
  | on_propose cmds parents extra =>
    refine hk.on_propose h cmds parents extra (fun p ps hps => ?_) s' hs'
    obtain ⟨b, t, hdel, hd, -, hvoted, -⟩ := on_deliver_proposed hc
      (fun b hne hb => (h.blocks.law _ b hne hb).hash) h.certs (hps ▸ he) cmds extra rfl
    have hblocks' := deliver_proposed_blocksOk h.blocks hshort cmds p ps extra
    have hstored : ((w.core r).store_proposed config cmds p ps extra).CertsOk :=
      store_proposed_certsOk h.certs cmds p ps extra
    have hstate := congrArg Outcome.state? hdel
    have hvotes := on_deliver_blk_sameVotes _ _ _ hstate
    have hcerts' := hstored.frame (on_deliver_blk_grows _ _ _ hstate) hvotes.1 hvotes.2
    rw [hdel, Outcome.leaves_ok] at hblocks' ⊢
    refine h.put hblocks' hcerts' rfl (fun i hi => ?_) fun hd' => ?_
    · obtain ⟨c, hc, hic⟩ := hvoted i hi
      exact h.voted _ c hc i hic
    · rw [hd] at hd'
      cases hd'
  | on_receive_proposal prop => exact hk.on_receive_proposal h prop s' hs'
  | on_receive_vote vote =>
    have hcount : ∀ b, (w.core r).storage vote.blk_hash = some b →
        ∀ i ∈ insert vote.voter b.voted, i < config.nreplicas := by
      intro b hb i hi
      rcases Finset.mem_insert.mp hi with rfl | hi
      · exact he.1.1
      · exact h.voted _ b hb i hi
    rcases on_receive_vote_cases config vote (w.core r) with ho | ho | ⟨b, hb, hd, -, -, ho⟩
    · rw [HotStuffCore.call, ho] at hs'
      exact Option.some.inj hs' ▸ h
    · rw [HotStuffCore.call, ho] at hs'
      exact Option.some.inj hs' ▸ h
    · have hdel : ∀ {c : Block Hash Sig}, c.delivered = b.delivered → c.delivered = false →
          c.qc.Parsed := by
        intro c hcd hc'
        rw [hcd, hd] at hc'
        cases hc'
      rw [HotStuffCore.call] at hs'
      generalize (w.core r).on_receive_vote config vote = o at ho hs'
      cases ho with
      | mismatch ha =>
        obtain rfl := Option.some.inj hs'
        exact h.put hblocks hcerts rfl (hcount b hb) (hdel rfl)
      | collected qc' ha hbq =>
        obtain rfl := Option.some.inj hs'
        exact h.put hblocks hcerts rfl (hcount b hb) (hdel rfl)
      | computed qc' ha hbq =>
        obtain rfl := Option.some.inj hs'
        exact h.put hblocks hcerts rfl (hcount b hb) (hdel rfl)
  | set_vote_disabled f =>
    obtain rfl := Option.some.inj hs'
    exact h.frame hblocks hcerts (.of_storage_eq rfl) (.of_storage_eq rfl)

theorem call_with_rule (h : config.SameQuorums rule) (hs : Known config s) {c : Call Hash Sig}
    (hv : ∀ vote, c = .on_receive_vote vote → vote.voter < config.nreplicas) :
    s.call (config.with_rule rule) c = s.call config c := by
  cases c with
  | on_receive_vote vote => exact on_receive_vote_with_rule h hs (hv vote rfl)
  | add_blk data => rfl
  | on_deliver_blk blk => rfl
  | on_propose cmds parents extra => rfl
  | on_receive_proposal prop => rfl
  | set_vote_disabled f => rfl

end HotStuffCore

/-! ## Runs -/

namespace World

open HotStuffCore (Call Known)

variable [DecidableEq Hash] {ok : World Hash Sig → ReplicaID → Call Hash Sig → Prop}
  {w : World Hash Sig} {rule : QuorumRule}

theorem Run.known (hc : config.CollisionFree) (hw : Run config correct ok w) (r : ReplicaID) :
    Known config (w.core r) := by
  induction hw with
  | start => exact HotStuffCore.on_init_known config r
  | @step w r' c s hw hr hshort he hok hs ih =>
    by_cases heq : r = r'
    · subst heq
      simpa [World.after] using ih.call hc hshort he s hs
    · simpa [World.after, heq] using ih

omit [DecidableEq Hash] in
theorem after_same (w : World Hash Sig) (r : ReplicaID) : w.after r (w.core r) = w := by
  simp [World.after]

theorem Enabled.with_rule (h : config.SameQuorums rule) {r : ReplicaID} {c : Call Hash Sig}
    (hs : Known config (w.core r)) (he : w.Enabled config correct r c)
    (hwaits : ∀ blk b, c = .on_deliver_blk blk → (w.core r).storage blk = some b →
      b.delivered = false) : w.Enabled (config.with_rule rule) correct r c := by
  cases c with
  | add_blk data => exact ⟨he.1, h.unforged he.2⟩
  | on_deliver_blk blk =>
    obtain ⟨b, hb, hv, hq, hp⟩ := he
    refine ⟨b, hb, ?_, hq, hp⟩
    unfold Block.verify at hv ⊢
    split
    · rfl
    · rename_i hne
      have hne : b.qc.obj_hash ≠ config.b0 := hne
      rw [if_neg hne] at hv
      exact QuorumCert.verify_with_rule h (hs.parsed blk b hb (hwaits blk b rfl hb)) hv
  | on_propose cmds parents extra => exact he
  | on_receive_proposal prop => exact he
  | on_receive_vote vote => exact he
  | set_vote_disabled f => trivial

/-- Rules that agree on configured replicas lead to the same runs. -/
theorem Run.with_rule (h : config.SameQuorums rule) (hc : config.CollisionFree)
    (hw : Run config correct ok w) : Run (config.with_rule rule) correct ok w := by
  induction hw with
  | start => exact .start
  | @step w r c s hw hr hshort he hok hs ih =>
    have hknown := hw.known hc r
    -- a block that is delivered already is left alone, and its certificate may be an own one
    by_cases hwaits : ∀ blk b, c = .on_deliver_blk blk → (w.core r).storage blk = some b →
        b.delivered = false
    · refine ih.step hr hshort (he.with_rule h hknown hwaits) hok ?_
      rw [HotStuffCore.call_with_rule h hknown fun vote heq => ?_]
      · exact hs
      · subst heq
        exact he.1.1
    · push Not at hwaits
      obtain ⟨blk, b, rfl, hb, hd⟩ := hwaits
      rw [HotStuffCore.call,
        HotStuffCore.on_deliver_blk_of_delivered hb (by simpa using hd)] at hs
      rw [← Option.some.inj hs, after_same]
      exact ih

/-- Both rules lead to the same runs. -/
theorem Run.with_rule_iff (h : config.SameQuorums rule) (hc : config.CollisionFree) :
    Run config correct ok w ↔ Run (config.with_rule rule) correct ok w := by
  refine ⟨Run.with_rule h hc, fun hw => ?_⟩
  have hback : (config.with_rule rule).SameQuorums config.rule := fun Q hQ => (h Q hQ).symm
  have hrun : Run ((config.with_rule rule).with_rule config.rule) correct ok w :=
    Run.with_rule hback (Config.with_rule_collisionFree hc rule) hw
  exact hrun

/-! ## The formula of two thirds -/

omit [DecidableEq Hash] in
theorem sameQuorums_thres (hpos : 0 < config.nreplicas)
    (hrule : config.rule = .threshold
      (quorums.on_init_nmajority config.nreplicas (quorums.start_nfaulty config.nreplicas))) :
    config.SameQuorums
      (.generalized (quorums.evalFomula (quorum_confs.quorums_thres config.nreplicas))) := by
  intro Q hQ
  have hall : (List.range config.nreplicas).toFinset ∩ Q = Q := by
    refine Finset.inter_eq_right.mpr fun i hi => ?_
    simpa using hQ i hi
  have heval := quorum_confs.evalFomula_elements (k := ↑((2 * config.nreplicas + 1 + 3 - 1) / 3))
    (List.nodup_range (n := config.nreplicas)) (A := Q)
  rw [hall] at heval
  have hsize : quorums.on_init_nmajority config.nreplicas (quorums.start_nfaulty config.nreplicas) =
      (2 * config.nreplicas + 1 + 3 - 1) / 3 := by
    unfold quorums.on_init_nmajority quorums.start_nfaulty
    omega
  rw [Bool.eq_iff_iff, hrule, hsize]
  simp only [QuorumRule.isQuorum, decide_eq_true_eq]
  rw [quorum_confs.quorums_thres, heval]
  exact Nat.cast_le.symm

/-- The generalized build with the formula `quorums_thres` of `n` replicas runs like the threshold
build: what the correct replicas do in one of them they can do in the other. -/
theorem both_builds_have_the_same_runs {config' : Config Hash Sig} {p : ℕ} (hp : p.Prime)
    (hpos : 0 < config.nreplicas) (hsize : config.nreplicas < p)
    (hrule : config.rule = .threshold
      (quorums.on_init_nmajority config.nreplicas (quorums.start_nfaulty config.nreplicas)))
    (hsame : config' = { config with rule := config'.rule }) {with_msp : Bool}
    (huses : config'.UsesFormula with_msp p (quorum_confs.quorums_thres config.nreplicas))
    (hc : config.CollisionFree) :
    Run config correct ok w ↔ Run config' correct ok w := by
  have hbound : (quorum_confs.quorums_thres config.nreplicas).AllNodes
      fun k n => 1 ≤ k ∧ n < p := by
    refine .mk ⟨?_, by simpa using hsize⟩ (by simp)
    omega
  have hrule' := huses.rule hp hbound
  rw [hsame, hrule']
  exact Run.with_rule_iff (sameQuorums_thres hpos hrule) hc

theorem four_replicas_run_alike :
    ∃ w, Run (coded_replicas false) (· < 3) Direct w ∧ (w.core 1).b_exec = chain_code 2 ∧
      (Run (coded_replicas false) (· < 3) Direct w ↔
        Run (formula_replicas false (quorum_confs.quorums_thres 4) 4 Config.four_le) (· < 3)
          Direct w) := by
  obtain ⟨w, hrun, -, -, hexec⟩ := straight_run_ends false
  refine ⟨w, hrun, hexec, both_builds_have_the_same_runs (p := 5) (by decide) (by decide)
    (by decide) ?_ rfl (formula_replicas_uses false _ _ _ (by decide) ?_ true)
    (coded_collisionFree false)⟩
  · exact congrArg QuorumRule.threshold (by decide)
  · exact .mk (by decide) (by simp)

end World

end general_hotstuff
