-- How one replica collects the votes on a block: `voted` and the parts of `self_qc` are
-- two records of the same votes. They agree as long as no block that has votes is
-- proposed once more, since `on_propose` empties the second record only.
import GeneralHotStuff.CommitLog

namespace general_hotstuff

open quorums (ReplicaID)

variable {Hash Sig : Type}

/-! ## Collected parts -/

/-- The certificate holds valid signatures of exactly these voters on the block, and its bits are
set for no one else. -/
structure QuorumCert.Collects (config : Config Hash Sig) (blk_hash : Hash)
    (voted : Finset ReplicaID) (qc : QuorumCert Hash Sig) : Prop where
  obj_hash : qc.obj_hash = blk_hash
  signers : qc.signers = voted
  valid : ∀ p ∈ qc.sigs, config.sigVerify p.1 blk_hash p.2 = true
  length : qc.rids.length = config.nreplicas
  bits : ∀ i, qc.rids[i]? = some true → i ∈ qc.signers

namespace QuorumCert

theorem create_quorum_cert_collects (config : Config Hash Sig) (blk_hash : Hash) :
    (create_quorum_cert config blk_hash).Collects config blk_hash ∅ where
  obj_hash := rfl
  signers := rfl
  valid p hp := by cases hp
  length := List.length_replicate
  bits i hi := by simp [create_quorum_cert, List.getElem?_replicate] at hi

/-- The voter's own valid part adds the voter to a certificate that does not have it. -/
theorem Collects.add_part [DecidableEq Hash] {config : Config Hash Sig} {blk_hash : Hash}
    {voted : Finset ReplicaID} {qc : QuorumCert Hash Sig} (h : qc.Collects config blk_hash voted)
    {rid : ReplicaID} (hrid : rid ∉ voted) {pc : PartCert Hash Sig} (hobj : pc.obj_hash = blk_hash)
    (hsig : config.sigVerify rid blk_hash pc.sig = true) :
    ∃ qc', qc.add_part rid pc = some qc' ∧ qc'.Collects config blk_hash (insert rid voted) := by
  have hnew : rid ∉ qc.signers := h.signers ▸ hrid
  have hsigners : ({ qc with
      sigs := qc.sigs ++ [(rid, pc.sig)]
      rids := qc.rids.set rid true } : QuorumCert Hash Sig).signers = insert rid qc.signers := by
    rw [QuorumCert.signers, List.map_append, List.toFinset_append, Finset.union_comm,
      List.map_singleton, List.toFinset_cons, List.toFinset_nil, insert_empty_eq, Finset.insert_eq]
    rfl
  refine ⟨{ qc with sigs := qc.sigs ++ [(rid, pc.sig)], rids := qc.rids.set rid true },
    by simp [QuorumCert.add_part, hobj, h.obj_hash, hnew], h.obj_hash, ?_, fun p hp => ?_, ?_,
    fun i hi => ?_⟩
  · rw [hsigners, h.signers]
  · rcases List.mem_append.mp hp with hp | hp
    · exact h.valid p hp
    · rw [List.mem_singleton.mp hp]
      exact hsig
  · exact List.length_set.trans h.length
  · rw [hsigners, Finset.mem_insert]
    by_cases hri : rid = i
    · exact .inl hri.symm
    · exact .inr (h.bits i (by rwa [List.getElem?_set_ne hri] at hi))

theorem lookup_of_mem_signers {qc : QuorumCert Hash Sig} {i : ReplicaID} (hi : i ∈ qc.signers) :
    ∃ σ, qc.sigs.lookup i = some σ ∧ (i, σ) ∈ qc.sigs := by
  rw [signers, List.mem_toFinset] at hi
  obtain ⟨p, hp, hpi⟩ := List.mem_map.mp hi
  have hsome : (qc.sigs.lookup i).isSome := List.lookup_isSome_iff.mpr ⟨p, hp, by simp [hpi]⟩
  obtain ⟨σ, hσ⟩ := Option.isSome_iff_exists.mp hsome
  obtain ⟨before, after, hsplit, -⟩ := List.lookup_eq_some_iff.mp hσ
  exact ⟨σ, hσ, by simp [hsplit]⟩

/-- The bits from `i` on verify when each belongs to a valid signature of a configured replica. -/
theorem verifyBits_eq_true {config : Config Hash Sig} {qc : QuorumCert Hash Sig} (i : ℕ)
    (bits : List Bool) (hlen : i + bits.length = config.nreplicas)
    (hbits : ∀ j, bits[j]? = some true → i + j ∈ qc.signers)
    (hvalid : ∀ p ∈ qc.sigs, config.sigVerify p.1 qc.obj_hash p.2 = true) :
    qc.verifyBits config i bits = some true := by
  induction bits generalizing i with
  | nil => rfl
  | cons bit bits ih =>
    have htail := ih (i + 1) (by simp at hlen; omega) fun j hj => by
      have := hbits (j + 1) (by simpa using hj)
      rwa [show i + (j + 1) = i + 1 + j by omega] at this
    cases bit with
    | false => simpa [verifyBits] using htail
    | true =>
      obtain ⟨σ, hlookup, hmem⟩ := lookup_of_mem_signers (by simpa using hbits 0 rfl)
      have hi : i < config.nreplicas := by simp at hlen; omega
      simp [verifyBits, rid_of_bit_of_lt hi, hi, hlookup, hvalid (i, σ) hmem, htail]

/-- The combination of a quorum's parts verifies. -/
def Combines (config : Config Hash Sig) : Prop :=
  config.scheme = .bls → ∀ (h : Hash) (sigs : List (ReplicaID × Sig)),
    config.rule.isQuorum (sigs.map Prod.fst).toFinset = true →
    (∀ p ∈ sigs, config.sigVerify p.1 h p.2 = true) →
    config.threshVerify h (some (config.recover sigs)) = true

theorem Collects.verify_compute {config : Config Hash Sig} (hbls : Combines config)
    {blk_hash : Hash} {voted : Finset ReplicaID} {qc : QuorumCert Hash Sig}
    (h : qc.Collects config blk_hash voted) (hq : config.rule.isQuorum voted = true) :
    (qc.compute config).verify config = some true := by
  cases hs : config.scheme with
  | secp256k1 =>
    have hlen : 0 + qc.rids.length = config.nreplicas := by rw [h.length, Nat.zero_add]
    have hbits := verifyBits_eq_true 0 qc.rids hlen (fun j hj => by simpa using h.bits j hj)
      (h.obj_hash ▸ h.valid)
    simp [verify, compute, hs, h.signers, hq, hbits]
  | bls =>
    have hq' : config.rule.isQuorum qc.signers = true := h.signers ▸ hq
    have hver := hbls hs blk_hash qc.sigs hq' h.valid
    simp [verify, compute, hs, h.obj_hash, hver]

end QuorumCert

/-- The test after a vote tells whether the voters have become a quorum. -/
theorem QuorumRule.becomesQuorum_eq (rule : QuorumRule) {voted : Finset ReplicaID}
    {rid : ReplicaID} (hrid : rid ∉ voted) (hq : rule.isQuorum voted = false) :
    rule.becomesQuorum voted.card (insert rid voted) = rule.isQuorum (insert rid voted) := by
  cases rule with
  | generalized isAuthorizedGroup => rfl
  | threshold nmajority =>
    have hlt : voted.card < nmajority := by simpa [isQuorum] using hq
    rw [becomesQuorum, isQuorum, Finset.card_insert_of_notMem hrid, decide_eq_decide]
    omega

namespace HotStuffCore

/-! ## The two records -/

/-- The voters and the certificate of a block tell of the same votes. -/
def Records (config : Config Hash Sig) (h : Hash) (b : Block Hash Sig) : Prop :=
  match b.self_qc with
  | none => b.voted = ∅
  | some qc => qc.Collects config h b.voted

variable [DecidableEq Hash]

/-- The certificates that were computed for `blk`. -/
def certificates (s : HotStuffCore Hash Sig) (blk : Hash) : List (QuorumCert Hash Sig) :=
  s.out.filterMap fun o => match o with
    | .certificate h qc => if h = blk then some qc else none
    | _ => none

structure Collecting (config : Config Hash Sig) (s : HotStuffCore Hash Sig) : Prop where
  records : ∀ h b, h ≠ config.b0 → s.storage h = some b →
    config.rule.isQuorum b.voted = false → Records config h b
  count : ∀ h b, h ≠ config.b0 → s.storage h = some b →
    (s.certificates h).length = if config.rule.isQuorum b.voted = true ∧ b.voted ≠ ∅ then 1 else 0
  fresh : ∀ h, s.storage h = none → s.certificates h = []
  computed : ∀ h qc, h ≠ config.b0 → qc ∈ s.certificates h →
    ∃ voted qc0, QuorumCert.Collects config h voted qc0 ∧ config.rule.isQuorum voted = true ∧
      qc = qc0.compute config

theorem Collecting.frame {config : Config Hash Sig} {s s' : HotStuffCore Hash Sig}
    (h : Collecting config s) (hv : SameVotes s s')
    (hc : ∀ x, s'.certificates x = s.certificates x) : Collecting config s' where
  records x b' hx hb' hq := by
    obtain ⟨b, hb, hqc, hvoted⟩ := hv.block hb'
    have hr := h.records x b hx hb (hvoted ▸ hq)
    rwa [Records, ← hqc, ← hvoted] at hr
  count x b' hx hb' := by
    obtain ⟨b, hb, -, hvoted⟩ := hv.block hb'
    rw [hc, h.count x b hx hb, hvoted]
  fresh x hx := by
    have hn := hv x
    rw [hx, Option.map_none, eq_comm, Option.map_eq_none_iff] at hn
    rw [hc, h.fresh x hn]
  computed x qc hx hqc := h.computed x qc hx (hc x ▸ hqc)

/-- A block is written and no certificate is computed. -/
theorem Collecting.put {config : Config Hash Sig} {s : HotStuffCore Hash Sig} {x : Hash}
    {b : Block Hash Sig} (h : Collecting config s)
    (hr : x ≠ config.b0 → config.rule.isQuorum b.voted = false → Records config x b)
    (hn : x ≠ config.b0 → (s.certificates x).length =
      if config.rule.isQuorum b.voted = true ∧ b.voted ≠ ∅ then 1 else 0) :
    Collecting config (s.put x b) where
  records y c hy hc hq := by
    by_cases hyx : y = x
    · subst hyx
      rw [storage_put_self, Option.some.injEq] at hc
      subst hc
      exact hr hy hq
    · exact h.records y c hy ((storage_put_of_ne s b hyx).symm.trans hc) hq
  count y c hy hc := by
    by_cases hyx : y = x
    · subst hyx
      rw [storage_put_self, Option.some.injEq] at hc
      subst hc
      exact hn hy
    · exact h.count y c hy ((storage_put_of_ne s b hyx).symm.trans hc)
  fresh y hy := by
    by_cases hyx : y = x
    · rw [hyx, storage_put_self] at hy
      cases hy
    · exact h.fresh y ((storage_put_of_ne s b hyx).symm.trans hy)
  computed y qc hy hqc := h.computed y qc hy hqc

/-! ## Calls that collect nothing -/

theorem certificates_append {s s' : HotStuffCore Hash Sig} {more : List (Output Hash Sig)}
    (hout : s'.out = s.out ++ more) (hmore : ∀ h qc, .certificate h qc ∉ more) (blk : Hash) :
    s'.certificates blk = s.certificates blk := by
  rw [certificates, hout, List.filterMap_append, certificates]
  have hnone : (more.filterMap fun o => match o with
      | .certificate h qc => if h = blk then some qc else none
      | _ => none) = [] := by
    refine List.filterMap_eq_nil_iff.mpr fun o ho => ?_
    cases o with
    | certificate h qc => exact absurd ho (hmore h qc)
    | do_consensus blk => rfl
    | do_decide fin => rfl
    | do_vote p v => rfl
    | do_broadcast_proposal p => rfl
  rw [hnone, List.append_nil]

omit [DecidableEq Hash] in
theorem commit_outputs_no_certificate (s : HotStuffCore Hash Sig) (blks : List Hash) (h : Hash)
    (qc : QuorumCert Hash Sig) : .certificate h qc ∉ blks.flatMap s.commit_outputs := by
  intro hmem
  have hcommit := (List.mem_filter.mp ((filter_commit_outputs s blks).symm ▸ hmem)).2
  cases hcommit

theorem Collecting.update {config : Config Hash Sig} {s : HotStuffCore Hash Sig}
    (h : Collecting config s) (nblk : Hash) :
    (s.update config nblk).Leaves (Collecting config) := by
  intro s' hs'
  refine h.frame (update_sameVotes config s nblk s' hs') fun x => ?_
  cases hb : s.storage nblk with
  | none => simp [HotStuffCore.update, hb, Outcome.state?] at hs'
  | some b =>
    rcases update_cases config hb with hu | ⟨-, hu⟩ | ⟨blk1, blk, -, hu⟩
    · rw [hu] at hs'
      exact Option.some.inj hs' ▸ rfl
    · rw [hu] at hs'
      cases hs'
    · rw [hu] at hs'
      rcases commit_cases (s.touched config nblk b) blk with ⟨-, hc⟩ | hc | ⟨passed, -, hc⟩
      · rw [hc] at hs'
        cases hs'
      · rw [hc] at hs'
        exact Option.some.inj hs' ▸ rfl
      · rw [hc] at hs'
        obtain rfl := Option.some.inj hs'
        exact certificates_append (s := s.touched config nblk b) (commit_all_out _ _)
          (commit_outputs_no_certificate _ _) x

theorem kept_collecting (config : Config Hash Sig) :
    Kept config (Collecting config) where
  update s nblk h _ := h.update nblk
  vote_on s prop h := by
    rcases vote_on_cases config prop s with ⟨-, hv⟩ | hv | ⟨-, hv⟩
    · exact hv ▸ Outcome.leaves_undefined
    · exact hv ▸ Outcome.leaves_ok.mpr h
    · rw [hv, Outcome.leaves_ok]
      refine h.frame (SameVotes.of_storage_eq rfl) (certificates_append rfl fun x qc hx => ?_)
      split at hx
      · cases hx
      · cases List.mem_singleton.mp hx
  broadcast s prop h := by
    refine h.frame (SameVotes.of_storage_eq rfl) (certificates_append rfl fun x qc hx => ?_)
    cases List.mem_singleton.mp hx

theorem Collecting.on_deliver_blk {config : Config Hash Sig} {s : HotStuffCore Hash Sig}
    (h : Collecting config s) (blk : Hash) : (s.on_deliver_blk blk).Leaves (Collecting config) := by
  intro s' hs'
  refine h.frame (on_deliver_blk_sameVotes s blk s' hs').2 ?_
  obtain ⟨more, hout, hmore⟩ := (on_deliver_blk_quiet s blk s' hs').out
  cases hb : s.storage blk with
  | none => simp [HotStuffCore.on_deliver_blk, hb, Outcome.state?] at hs'
  | some b =>
    cases hd : b.delivered with
    | true =>
      rw [on_deliver_blk_of_delivered hb hd] at hs'
      exact fun x => Option.some.inj hs' ▸ rfl
    | false =>
      obtain ⟨b', t, -, rfl, -⟩ := on_deliver_blk_leaves hb hd s' hs'
      exact fun x => rfl

/-! ## Votes and proposals -/

/-- What `Vote::verify` checks. Only a configured replica has a public key. -/
def Verified (config : Config Hash Sig) (vote : Vote Hash Sig) : Prop :=
  vote.voter < config.nreplicas ∧ vote.cert.obj_hash = vote.blk_hash ∧
    config.sigVerify vote.voter vote.blk_hash vote.cert.sig = true

theorem Records.add_part {config : Config Hash Sig} {vote : Vote Hash Sig} {b : Block Hash Sig}
    (h : Records config vote.blk_hash b) (hv : Verified config vote) (hnew : vote.voter ∉ b.voted) :
    ∃ qc', (b.self_qc.getD (.create_quorum_cert config vote.blk_hash)).add_part vote.voter
        vote.cert = some qc' ∧
      qc'.Collects config vote.blk_hash (insert vote.voter b.voted) := by
  have hstart : (b.self_qc.getD (.create_quorum_cert config vote.blk_hash)).Collects config
      vote.blk_hash b.voted := by
    cases hqc : b.self_qc with
    | none =>
      simp only [Records, hqc] at h
      rw [h]
      exact QuorumCert.create_quorum_cert_collects config vote.blk_hash
    | some qc =>
      simp only [Records, hqc] at h
      exact h
  exact hstart.add_part hnew hv.2.1 hv.2.2

/-- The first quorum of voters on a block is written together with its certificate. -/
theorem Collecting.compute {config : Config Hash Sig} {s s' : HotStuffCore Hash Sig} {x : Hash}
    {b c : Block Hash Sig} {qc0 : QuorumCert Hash Sig} (h : Collecting config s)
    (hb : s.storage x = some b) (hq : config.rule.isQuorum b.voted = false)
    (hq' : config.rule.isQuorum c.voted = true) (hne : c.voted ≠ ∅)
    (hcol : x ≠ config.b0 → qc0.Collects config x c.voted)
    (hst : s'.storage = (s.put x c).storage)
    (hout : s'.out = s.out ++ [.certificate x (qc0.compute config)]) : Collecting config s' := by
  have hself : s'.certificates x = s.certificates x ++ [qc0.compute config] := by
    simp [certificates, hout]
  have hother : ∀ y, y ≠ x → s'.certificates y = s.certificates y := by
    intro y hy
    simp [certificates, hout, Ne.symm hy]
  have hput : ∀ y, y ≠ x → s'.storage y = s.storage y := by
    intro y hy
    rw [hst, storage_put_of_ne s c hy]
  have hxs : s'.storage x = some c := by rw [hst, storage_put_self]
  refine ⟨fun y d hy hd hcq => ?_, fun y d hy hd => ?_, fun y hy => ?_, fun y qc hy hqc => ?_⟩
  · by_cases hyx : y = x
    · rw [hyx, hxs, Option.some.injEq] at hd
      rw [← hd, hq'] at hcq
      cases hcq
    · exact h.records y d hy (hput y hyx ▸ hd) hcq
  · by_cases hyx : y = x
    · rw [hyx, hxs, Option.some.injEq] at hd
      rw [hyx, hself, List.length_append, h.count x b (hyx ▸ hy) hb, hq, ← hd, hq']
      simp [hne]
    · rw [hother y hyx]
      exact h.count y d hy (hput y hyx ▸ hd)
  · by_cases hyx : y = x
    · rw [hyx, hxs] at hy
      cases hy
    · rw [hother y hyx]
      exact h.fresh y (hput y hyx ▸ hy)
  · by_cases hyx : y = x
    · rw [hyx, hself] at hqc
      rcases List.mem_append.mp hqc with hqc | hqc
      · exact hyx ▸ h.computed x qc (hyx ▸ hy) hqc
      · exact ⟨c.voted, qc0, hyx ▸ hcol (hyx ▸ hy), hq', List.mem_singleton.mp hqc⟩
    · exact h.computed y qc hy (hother y hyx ▸ hqc)

theorem Collecting.on_receive_vote {config : Config Hash Sig} {s : HotStuffCore Hash Sig}
    (h : Collecting config s) {vote : Vote Hash Sig} (hv : Verified config vote) :
    (s.on_receive_vote config vote).Leaves (Collecting config) := by
  rcases on_receive_vote_cases config vote s with ho | ho | ⟨b, hb, -, hq, hnew, ho⟩
  · exact ho ▸ Outcome.leaves_throw.mpr h
  · exact ho ▸ Outcome.leaves_ok.mpr h
  have hpart : vote.blk_hash ≠ config.b0 → _ := fun hne =>
    (h.records vote.blk_hash b hne hb hq).add_part hv hnew
  have hbecomes := config.rule.becomesQuorum_eq hnew hq
  generalize s.on_receive_vote config vote = o at ho ⊢
  cases ho with
  | mismatch ha =>
    rw [Outcome.leaves_throw]
    refine h.put (fun hne _ => ?_) fun hne => ?_
    · obtain ⟨qc', hqc', -⟩ := hpart hne
      rw [ha] at hqc'
      cases hqc'
    · obtain ⟨qc', hqc', -⟩ := hpart hne
      rw [ha] at hqc'
      cases hqc'
  | collected qc' ha hbq =>
    rw [Outcome.leaves_ok]
    refine h.put (fun hne _ => ?_) fun hne => ?_
    · obtain ⟨qc'', hqc'', hcol⟩ := hpart hne
      rw [ha, Option.some.injEq] at hqc''
      exact hqc'' ▸ hcol
    · rw [h.count _ b hne hb, hq, ← hbecomes, hbq]
      simp
  | computed qc' ha hbq =>
    rw [Outcome.leaves_ok]
    refine h.compute (c := { b with
      voted := insert vote.voter b.voted
      self_qc := some (qc'.compute config) }) hb hq (hbecomes ▸ hbq)
      (Finset.insert_ne_empty _ _) (fun hne => ?_) rfl rfl
    obtain ⟨qc'', hqc'', hcol⟩ := hpart hne
    rw [ha, Option.some.injEq] at hqc''
    exact hqc'' ▸ hcol

theorem Collecting.store_proposed {config : Config Hash Sig} {s : HotStuffCore Hash Sig}
    (h : Collecting config s) {cmds : List Hash} {p : Hash} {ps : List Hash} {extra : List UInt8}
    (hfree : config.get_hash (s.proposed cmds (p :: ps) extra) ≠ config.b0 →
      ∀ b, s.storage (config.get_hash (s.proposed cmds (p :: ps) extra)) = some b →
        b.voted = ∅ ∨ config.rule.isQuorum b.voted = true) :
    Collecting config (s.store_proposed config cmds p ps extra) := by
  cases hb : s.storage (config.get_hash (s.proposed cmds (p :: ps) extra)) with
  | none =>
    rw [store_proposed_of_none hb]
    refine (h.put (fun _ _ => ?_) fun _ => ?_).frame (SameVotes.of_storage_eq rfl) fun _ => rfl
    · exact QuorumCert.create_quorum_cert_collects config _
    · rw [h.fresh _ hb]
      simp [with_empty_qc, new_block]
  | some b =>
    rw [store_proposed_of_some hb]
    refine (h.put (fun hne hq => ?_) fun hne => ?_).frame (SameVotes.of_storage_eq rfl) fun _ => rfl
    · rcases hfree hne b hb with hvoted | hquorum
      · have hcollects := QuorumCert.create_quorum_cert_collects config
          (config.get_hash (s.proposed cmds (p :: ps) extra))
        rw [← hvoted] at hcollects
        exact hcollects
      · exact absurd (hquorum.symm.trans hq) (by simp)
    · exact h.count _ b hne hb

/-- Votes are verified before they are counted, and no block with votes but without a quorum is
proposed once more. -/
def CollectsOnce (config : Config Hash Sig) (s : HotStuffCore Hash Sig) : Call Hash Sig → Prop
  | .on_receive_vote vote => Verified config vote
  | .on_propose cmds parents extra =>
    config.get_hash (s.proposed cmds parents extra) ≠ config.b0 →
      ∀ b, s.storage (config.get_hash (s.proposed cmds parents extra)) = some b →
        b.voted = ∅ ∨ config.rule.isQuorum b.voted = true
  | _ => True

instance (config : Config Hash Sig) (vote : Vote Hash Sig) : Decidable (Verified config vote) :=
  inferInstanceAs (Decidable (_ ∧ _ ∧ _))

instance (config : Config Hash Sig) (s : HotStuffCore Hash Sig) :
    ∀ c, Decidable (s.CollectsOnce config c)
  | .on_receive_vote vote => inferInstanceAs (Decidable (Verified config vote))
  | .on_propose cmds parents extra =>
    decidable_of_iff (config.get_hash (s.proposed cmds parents extra) ≠ config.b0 →
      ∀ b ∈ s.storage (config.get_hash (s.proposed cmds parents extra)),
        b.voted = ∅ ∨ config.rule.isQuorum b.voted = true) Iff.rfl
  | .add_blk _ => .isTrue trivial
  | .on_deliver_blk _ => .isTrue trivial
  | .on_receive_proposal _ => .isTrue trivial
  | .set_vote_disabled _ => .isTrue trivial

theorem call_collecting (config : Config Hash Sig) {s : HotStuffCore Hash Sig}
    (h : Collecting config s) {c : Call Hash Sig} (hc : s.CollectsOnce config c) :
    (s.call config c).Leaves (Collecting config) := by
  have hk := kept_collecting config
  cases c with
  | add_blk data =>
    cases hb : s.storage (config.get_hash data) with
    | none =>
      rw [call_add_blk_of_none hb, Outcome.leaves_ok]
      refine h.put (fun _ _ => rfl) fun _ => ?_
      rw [h.fresh _ hb]
      simp [Block.unserialize]
    | some b =>
      rw [call_add_blk_of_isSome (by simp [hb]), Outcome.leaves_ok]
      exact h
  | on_deliver_blk blk => exact h.on_deliver_blk blk
  | on_propose cmds parents extra =>
    refine hk.on_propose h cmds parents extra fun p ps hps => ?_
    subst hps
    exact (h.store_proposed hc).on_deliver_blk _
  | on_receive_proposal prop => exact hk.on_receive_proposal h prop
  | on_receive_vote vote => exact h.on_receive_vote hc
  | set_vote_disabled f =>
    exact Outcome.leaves_ok.mpr (h.frame (SameVotes.of_storage_eq rfl) fun _ => rfl)

theorem on_init_collecting (config : Config Hash Sig) (id : ReplicaID) :
    Collecting config (on_init config id) where
  records h b hh hb := by simp [on_init, hh] at hb
  count h b hh hb := by simp [on_init, hh] at hb
  fresh h _ := rfl
  computed h qc _ hqc := by cases hqc

/-- Until there is a quorum the voters on the block are the signers of its certificate. The
certificate is computed once there is, out of valid signatures of a quorum, and verifies. -/
structure CollectedExactly (config : Config Hash Sig) (s : HotStuffCore Hash Sig) (h : Hash)
    (b : Block Hash Sig) : Prop where
  signers : config.rule.isQuorum b.voted = false → b.self_qc.elim ∅ (·.signers) = b.voted
  once : (s.certificates h).length =
    if config.rule.isQuorum b.voted = true ∧ b.voted ≠ ∅ then 1 else 0
  quorum : ∀ qc ∈ s.certificates h, ∃ qc0 : QuorumCert Hash Sig, qc = qc0.compute config ∧
    config.rule.isQuorum qc0.signers = true ∧
    ∀ p ∈ qc0.sigs, config.sigVerify p.1 h p.2 = true
  verifies : ∀ qc ∈ s.certificates h, qc.obj_hash = h ∧ qc.verify config = some true

/-- In every run in which votes are verified and no block with votes but without a quorum is
proposed once more, the votes on every block are collected exactly. -/
theorem the_votes_are_collected_exactly {config : Config Hash Sig}
    (hbls : QuorumCert.Combines config) {id : ReplicaID} {s : HotStuffCore Hash Sig}
    (hrun : Run config id (CollectsOnce config) s) {h : Hash} (hh : h ≠ config.b0)
    {b : Block Hash Sig} (hb : s.storage h = some b) : CollectedExactly config s h b := by
  have hcol : Collecting config s := by
    clear hb
    induction hrun with
    | init => exact on_init_collecting config id
    | step _ hc hs ih => exact call_collecting config ih hc _ hs
  refine ⟨fun hq => ?_, hcol.count h b hh hb, fun qc hqc => ?_, fun qc hqc => ?_⟩
  · have hr := hcol.records h b hh hb hq
    cases hqc : b.self_qc with
    | none =>
      simp only [Records, hqc] at hr
      exact hr.symm
    | some qc =>
      simp only [Records, hqc] at hr
      exact hr.signers
  · obtain ⟨voted, qc0, hcollects, hq, rfl⟩ := hcol.computed h qc hh hqc
    exact ⟨qc0, rfl, by rw [hcollects.signers, hq], hcollects.valid⟩
  · obtain ⟨voted, qc0, hcollects, hq, rfl⟩ := hcol.computed h qc hh hqc
    exact ⟨(QuorumCert.compute_obj_hash config qc0).trans hcollects.obj_hash,
      hcollects.verify_compute hbls hq⟩

/-- A verified vote of a replica of `four_replicas`. -/
def vote_of (rid : ReplicaID) (h : Fin 8) : Vote (Fin 8) (ReplicaID × Fin 8) :=
  ⟨rid, h, ⟨h, (rid, h)⟩⟩

/-- A block on genesis, proposed before the votes of three replicas arrive. -/
def proposed_first : List (Call (Fin 8) (ReplicaID × Fin 8)) :=
  [.on_propose [hash_of 5] [hash_of 0] [1], .on_receive_vote (vote_of 0 (hash_of 1)),
    .on_receive_vote (vote_of 1 (hash_of 1)), .on_receive_vote (vote_of 1 (hash_of 1)),
    .on_receive_vote (vote_of 2 (hash_of 1))]

theorem the_votes_on_a_new_block_are_collected_exactly :
    ∃ s b, play (four_replicas false) (CollectsOnce (four_replicas false))
        (on_init (four_replicas false) 0) proposed_first = some s ∧
      s.storage (hash_of 1) = some b ∧ CollectedExactly (four_replicas false) s (hash_of 1) b := by
  obtain ⟨s, hs⟩ := Option.isSome_iff_exists.mp
    (show (play (four_replicas false) (CollectsOnce (four_replicas false))
      (on_init (four_replicas false) 0) proposed_first).isSome by decide +kernel)
  have hb : ((play (four_replicas false) (CollectsOnce (four_replicas false))
      (on_init (four_replicas false) 0) proposed_first).bind (·.storage (hash_of 1))).isSome := by
    decide +kernel
  rw [hs, Option.bind_some] at hb
  obtain ⟨b, hb⟩ := Option.isSome_iff_exists.mp hb
  exact ⟨s, b, hs, hb, the_votes_are_collected_exactly (fun h => by cases h) (Run.init.play hs)
    (by decide) hb⟩

/-- What `vote_handler` ensures. -/
def VotesVerified (config : Config Hash Sig) (_ : HotStuffCore Hash Sig) : Call Hash Sig → Prop
  | .on_receive_vote vote => Verified config vote
  | _ => True

instance (config : Config Hash Sig) (s : HotStuffCore Hash Sig) :
    ∀ c, Decidable (s.VotesVerified config c)
  | .on_receive_vote vote => inferInstanceAs (Decidable (Verified config vote))
  | .on_propose _ _ _ => .isTrue trivial
  | .add_blk _ => .isTrue trivial
  | .on_deliver_blk _ => .isTrue trivial
  | .on_receive_proposal _ => .isTrue trivial
  | .set_vote_disabled _ => .isTrue trivial

/-- The same block, which arrives with a vote before the replica proposes it. -/
def voted_first : List (Call (Fin 8) (ReplicaID × Fin 8)) :=
  [.add_blk ⟨[hash_of 0], [hash_of 5], .create_quorum_cert (four_replicas false) (hash_of 0), [1]⟩,
    .on_deliver_blk (hash_of 1), .on_receive_vote (vote_of 1 (hash_of 1)),
    .on_propose [hash_of 5] [hash_of 0] [1], .on_receive_vote (vote_of 0 (hash_of 1)),
    .on_receive_vote (vote_of 2 (hash_of 1))]

/-- The early vote counts for the quorum, but its signature is missing in the certificate. -/
theorem an_early_vote_is_lost_from_the_certificate :
    ∃ s b, Run (four_replicas false) 0 (VotesVerified (four_replicas false)) s ∧
      s.storage (hash_of 1) = some b ∧ b.voted = {0, 1, 2} ∧
      ∃ qc, s.certificates (hash_of 1) = [qc] ∧ qc.signers = {0, 2} ∧
        qc.verify (four_replicas false) = some false := by
  obtain ⟨s, hs⟩ := Option.isSome_iff_exists.mp
    (show (play (four_replicas false) (VotesVerified (four_replicas false))
      (on_init (four_replicas false) 0) voted_first).isSome by decide +kernel)
  have hvoted : ((play (four_replicas false) (VotesVerified (four_replicas false))
      (on_init (four_replicas false) 0) voted_first).bind (·.storage (hash_of 1))).map (·.voted) =
        some {0, 1, 2} := by
    decide +kernel
  have hcert : (play (four_replicas false) (VotesVerified (four_replicas false))
      (on_init (four_replicas false) 0) voted_first).map (fun s => (s.certificates (hash_of 1)).map
        fun qc => (qc.signers, qc.verify (four_replicas false))) =
          some [({0, 2}, some false)] := by
    decide +kernel
  rw [hs, Option.bind_some] at hvoted
  rw [hs, Option.map_some, Option.some.injEq] at hcert
  obtain ⟨b, hb, hvoted⟩ := Option.map_eq_some_iff.mp hvoted
  obtain ⟨qc, hqc, hver⟩ := List.map_eq_singleton_iff.mp hcert
  rw [Prod.mk.injEq] at hver
  exact ⟨s, b, Run.init.play hs, hb, hvoted, qc, hqc, hver.1, hver.2⟩

end HotStuffCore

end general_hotstuff
