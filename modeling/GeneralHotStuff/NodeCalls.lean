-- Each call of `HotStuffCore` at a correct replica in a world: the invariant is kept, and a
-- vote is in order when the call keeps to the lock. From this the runs of the world.
import GeneralHotStuff.BlockLinks
import GeneralHotStuff.NodeSteps

namespace general_hotstuff

open quorums (ReplicaID)

namespace HotStuffCore

variable {Hash Sig : Type} {config : Config Hash Sig} {correct : ReplicaID → Prop} {r : ReplicaID}
  {votes : List (ReplicaID × Hash)} {s s' : HotStuffCore Hash Sig}

/-! ## Proposals -/

/-- The vote that the call may send keeps to the lock. -/
def SafeCall (s : HotStuffCore Hash Sig) : Call Hash Sig → Prop
  | .on_propose _ parents _ => ∀ p, parents.head? = some p → s.SafeVote p s.hqc.1
  | .on_receive_proposal prop => ∀ p q, (s.parents prop.blk).head? = some p →
    s.qc_ref prop.blk = some q → s.SafeVote p q
  | _ => True

theorem BlocksOk.refs_of_height (hok : BlocksOk config s) {x : Hash} (hd : s.delivered x = true)
    (hpos : 0 < s.height x) : ∃ p q, (s.parents x).head? = some p ∧ s.qc_ref x = some q := by
  obtain ⟨b, hb, hbd⟩ := exists_of_delivered hd
  have hne : x ≠ config.b0 := by
    intro heq
    rw [heq, hok.b0_height] at hpos
    exact Nat.lt_irrefl 0 hpos
  obtain ⟨p, ps, -, hps, -, hq, -⟩ := (hok.law x b hne hb).linked hbd
  exact ⟨p, b.qc.obj_hash, by rw [parents_eq hb, hps]; rfl, by rw [qc_ref_eq hb, hq]⟩

theorem StoredOk.put [DecidableEq Hash] (h : StoredOk config correct votes s) {x : Hash}
    {b : Block Hash Sig} (hw : b.delivered = false → Parsed config correct votes b)
    (hr : b.delivered = true → Rooted config correct votes b.qc.obj_hash)
    (hv : x ≠ config.b0 → ∀ i ∈ b.voted, i < config.nreplicas ∧ (correct i → (i, x) ∈ votes)) :
    StoredOk config correct votes (s.put x b) := by
  have hput : ∀ y c, (s.put x b).storage y = some c → (y = x ∧ c = b) ∨ s.storage y = some c := by
    intro y c hc
    by_cases hy : y = x
    · rw [hy, storage_put_self, Option.some.injEq] at hc
      exact .inl ⟨hy, hc.symm⟩
    · exact .inr ((storage_put_of_ne s b hy).symm.trans hc)
  refine ⟨fun y c hc hd => ?_, fun y c hc hd => ?_, fun y c hy hc => ?_⟩
  · rcases hput y c hc with ⟨-, rfl⟩ | hc
    · exact hw hd
    · exact h.waiting y c hc hd
  · rcases hput y c hc with ⟨-, rfl⟩ | hc
    · exact hr hd
    · exact h.rooted y c hc hd
  · rcases hput y c hc with ⟨rfl, rfl⟩ | hc
    · exact hv hy
    · exact h.voted y c hy hc

variable [DecidableEq Hash]

/-- The replica that has stored and delivered the block it proposes. -/
theorem NodeOk.deliver_proposed (hc : config.CollisionFree) (h : NodeOk config correct r votes s)
    (hshort : s.Short) {p : Hash} {ps : List Hash} (hps : ∀ y ∈ p :: ps, s.delivered y = true)
    (cmds : List Hash) (extra : List UInt8) {x : Hash}
    (hx : config.get_hash (s.proposed cmds (p :: ps) extra) = x) :
    ∃ b t, (s.store_proposed config cmds p ps extra).on_deliver_blk x =
        .ok { s.put x b with tails := t } ∧
      NodeOk config correct r votes { s.put x b with tails := t } ∧
      Grows s { s.put x b with tails := t } := by
  obtain ⟨b, t, hdel, hd, hqc, hvoted, -⟩ := on_deliver_proposed hc
    (fun b hne hb => (h.blocks.law x b hne hb).hash) h.certs hps cmds extra hx
  refine ⟨b, t, hdel, ?_⟩
  have hstate : ((s.store_proposed config cmds p ps extra).on_deliver_blk x).state? =
      some { s.put x b with tails := t } := congrArg Outcome.state? hdel
  have hstored : StoredOk config correct votes (s.put x b) := by
    refine h.stored.put (fun hd' => ?_) (fun _ => hqc ▸ h.hqc) fun hne i hi => ?_
    · rw [hd] at hd'
      cases hd'
    · obtain ⟨c, hcs, hic⟩ := hvoted i hi
      exact h.stored.voted x c hne hcs i hic
  subst hx
  have hblocks := deliver_proposed_blocksOk h.blocks hshort cmds p ps extra _ hstate
  have hg := (store_proposed_grows config s cmds p ps extra).trans
    (on_deliver_blk_grows _ _ _ hstate)
  obtain ⟨hhqc, hv⟩ := on_deliver_blk_sameVotes _ _ _ hstate
  have hcerts := (store_proposed_certsOk h.certs cmds p ps extra).frame
    (on_deliver_blk_grows _ _ _ hstate) hhqc hv
  have hlog := h.log.quiet h.blocks.grounded ((store_proposed_quiet config s cmds p ps extra).trans
    (on_deliver_blk_quiet _ _ _ hstate))
  exact ⟨h.frame hblocks hcerts hlog hg rfl rfl rfl le_rfl (hg.delivered h.hqc_delivered) h.hqc
    ⟨hstored.waiting, hstored.rooted, hstored.voted⟩, hg⟩

/-! ## The other calls -/

/-- The call keeps the invariant and sends no vote. -/
def Silent (config : Config Hash Sig) (correct : ReplicaID → Prop) (r : ReplicaID)
    (votes : List (ReplicaID × Hash)) (s s' : HotStuffCore Hash Sig) : Prop :=
  s'.votes_sent = s.votes_sent ∧ NodeOk config correct r votes s'

theorem NodeOk.add_blk (h : NodeOk config correct r votes s) (hshort : s.Short)
    {data : BlockData Hash Sig} (hp : data.qc.Parsed)
    (hu : Unforged config correct votes data.qc) :
    (s.call config (.add_blk data)).Leaves (Silent config correct r votes s) := by
  have hblocks := call_blocksOk config h.blocks hshort (.add_blk data)
  have hcerts := call_certsOk config h.blocks h.certs hshort (.add_blk data)
  have hlog := call_logOk config h.blocks h.log hshort (.add_blk data)
  cases hb : s.storage (config.get_hash data) with
  | none =>
    rw [call_add_blk_of_none hb, Outcome.leaves_ok] at hblocks hcerts hlog ⊢
    have hg := Grows.put_new hb (.unserialize data)
    have hstored : StoredOk config correct votes
        (s.put (config.get_hash data) (.unserialize data)) :=
      h.stored.put (fun _ => ⟨rfl, rfl, rfl, hp, hu⟩) (fun hd => by cases hd)
        fun _ i hi => by simp [Block.unserialize] at hi
    exact ⟨rfl, h.frame hblocks hcerts hlog hg rfl rfl rfl le_rfl (hg.delivered h.hqc_delivered)
      h.hqc hstored⟩
  | some b =>
    rw [call_add_blk_of_isSome (by simp [hb]), Outcome.leaves_ok]
    exact ⟨rfl, h⟩

/-- The certificate of a block is verified before the block is delivered. -/
theorem NodeOk.on_deliver_blk (h : NodeOk config correct r votes s) (hshort : s.Short)
    {blk : Hash} {b : Block Hash Sig} (hb : s.storage blk = some b)
    (hv : b.verify config = some true) (hq : (s.storage b.qc.obj_hash).isSome)
    (hp : ∀ p ∈ b.parent_hashes, s.delivered p = true) :
    (s.on_deliver_blk blk).Leaves (Silent config correct r votes s) := by
  have hblocks := on_deliver_blk_blocksOk h.blocks hshort blk
  have hvotes := on_deliver_blk_sameVotes s blk
  have hg := on_deliver_blk_grows s blk
  have hquiet := on_deliver_blk_quiet s blk
  cases hd : b.delivered with
  | true =>
    rw [on_deliver_blk_of_delivered hb hd, Outcome.leaves_ok]
    exact ⟨rfl, h⟩
  | false =>
    have hwait := h.stored.waiting blk b hb hd
    have hroot : Rooted config correct votes b.qc.obj_hash := by
      by_cases hgen : b.qc.obj_hash = config.b0
      · exact .inl hgen
      · rw [Block.verify, if_neg hgen] at hv
        exact .inr (hwait.unforged.certified hwait.parsed hv)
    cases hph : b.parent_hashes with
    | nil => simp [HotStuffCore.on_deliver_blk, hb, hd, hph]
    | cons p ps =>
      rw [hph] at hp
      rw [on_deliver_blk_ok hb hd hph hp hq, Outcome.leaves_ok] at hblocks hvotes hg hquiet ⊢
      have hstored := h.stored.put (x := blk) (b := { b with
          parents := p :: ps
          height := (s.height p + 1) % 2 ^ 32
          qc_ref := some b.qc.obj_hash
          delivered := true }) (fun hd' => by cases hd') (fun _ => hroot)
        fun hne i hi => h.stored.voted blk b hne hb i hi
      exact ⟨rfl, h.frame hblocks (h.certs.frame hg hvotes.1 hvotes.2)
        (h.log.quiet h.blocks.grounded hquiet)
        hg rfl rfl rfl le_rfl (hg.delivered h.hqc_delivered) h.hqc
        ⟨hstored.waiting, hstored.rooted, hstored.voted⟩⟩

/-- A counted vote is on a delivered block. -/
theorem NodeOk.count (h : NodeOk config correct r votes s) {vote : Vote Hash Sig}
    {b c : Block Hash Sig} (hb : s.storage vote.blk_hash = some b) (hd : b.delivered = true)
    (hsh : shape c = shape b) (hdec : c.decision = b.decision)
    (hcert : ∀ qc, c.self_qc = some qc → qc.obj_hash = vote.blk_hash)
    (hvoted : c.voted = insert vote.voter b.voted) (hv : Verified config vote)
    (hsent : correct vote.voter → (vote.voter, vote.blk_hash) ∈ votes) :
    NodeOk config correct r votes (s.put vote.blk_hash c) := by
  have hput := put_sameShape hb hsh
  have hcd : c.delivered = true := (congrArg (·.delivered) hsh).trans hd
  have hqc : c.qc = b.qc := congrArg (·.qc) hsh
  refine h.frame (h.blocks.of_sameShape hput) (h.certs.put hcert)
    (h.log.quiet h.blocks.grounded (Quiet.put_votes hb hsh hdec)) hput.grows rfl rfl rfl le_rfl
    (hput.grows.delivered h.hqc_delivered) h.hqc ?_
  refine h.stored.put (fun hd' => ?_) (fun _ => hqc ▸ h.stored.rooted _ b hb hd) fun hne i hi => ?_
  · rw [hcd] at hd'
    cases hd'
  · rw [hvoted] at hi
    rcases Finset.mem_insert.mp hi with rfl | hi
    · exact ⟨hv.1, hsent⟩
    · exact h.stored.voted _ b hne hb i hi

omit [DecidableEq Hash] in
theorem NodeOk.update_hqc (h : NodeOk config correct r votes s) {x : Hash}
    {qc : QuorumCert Hash Sig} (hobj : qc.obj_hash = x) (hx : s.delivered x = true)
    (hroot : Rooted config correct votes x) :
    NodeOk config correct r votes (s.update_hqc x qc) := by
  unfold HotStuffCore.update_hqc
  split
  · exact h.frame (h.blocks.of_sameShape (SameShape.of_storage_eq (s := s) rfl))
      ⟨hobj, (exists_of_delivered hx).elim fun b hb => by simp [hb.1], h.certs.self_qc⟩
      (h.log.quiet h.blocks.grounded (.of_storage_eq rfl rfl rfl ⟨[], by simp, by simp⟩))
      (Grows.refl s) rfl
      rfl rfl le_rfl hx hroot ⟨h.stored.waiting, h.stored.rooted, h.stored.voted⟩
  · exact h

theorem NodeOk.on_receive_vote (h : NodeOk config correct r votes s) {vote : Vote Hash Sig}
    (hv : Verified config vote)
    (hsent : correct vote.voter → (vote.voter, vote.blk_hash) ∈ votes) :
    (s.on_receive_vote config vote).Leaves (Silent config correct r votes s) := by
  rcases on_receive_vote_cases config vote s with ho | ho | ⟨b, hb, hd, hq, hnew, ho⟩
  · exact ho ▸ Outcome.leaves_throw.mpr ⟨rfl, h⟩
  · exact ho ▸ Outcome.leaves_ok.mpr ⟨rfl, h⟩
  have hstart := h.certs.started config hb
  have hbecomes := config.rule.becomesQuorum_eq hnew hq
  generalize s.on_receive_vote config vote = o at ho ⊢
  cases ho with
  | mismatch ha =>
    rw [Outcome.leaves_throw]
    exact ⟨rfl, h.count hb hd rfl rfl (fun qc hqc => Option.some.inj hqc ▸ hstart) rfl hv hsent⟩
  | collected qc' ha hbq =>
    rw [Outcome.leaves_ok]
    have hobj := (QuorumCert.add_part_obj_hash ha).trans hstart
    exact ⟨rfl, h.count hb hd rfl rfl (fun qc hqc => Option.some.inj hqc ▸ hobj) rfl hv hsent⟩
  | computed qc' ha hbq =>
    rw [Outcome.leaves_ok]
    have hobj : (qc'.compute config).obj_hash = vote.blk_hash := by
      rw [QuorumCert.compute_obj_hash, QuorumCert.add_part_obj_hash ha, hstart]
    have hput : NodeOk config correct r votes (s.put vote.blk_hash { b with
        voted := insert vote.voter b.voted
        self_qc := some (qc'.compute config) }) :=
      h.count hb hd rfl rfl (fun qc hqc => Option.some.inj hqc ▸ hobj) rfl hv hsent
    -- the voters are a quorum, so the block is certified
    have hroot : Rooted config correct votes vote.blk_hash := by
      by_cases hne : vote.blk_hash = config.b0
      · exact .inl hne
      · have hvoted := hput.stored.voted vote.blk_hash _ hne (storage_put_self s _ _)
        exact .inr ⟨_, ⟨fun i hi => (hvoted i hi).1, hbecomes.symm.trans hbq⟩,
          fun i hi hci => (hvoted i hi).2 hci⟩
    have hblk := (put_sameShape hb (c := { b with
      voted := insert vote.voter b.voted
      self_qc := some (qc'.compute config) }) rfl).grows.delivered ((delivered_eq hb).trans hd)
    have hraise := hput.update_hqc hobj hblk hroot
    rw [update_hqc_eq] at hraise
    exact ⟨votes_sent_append rfl (by simp [Output.voted]),
      hraise.out [.certificate vote.blk_hash (qc'.compute config)]
        (by simp [Output.isCommit])⟩

section Calls


variable (hc : config.CollisionFree) (hi : config.Intersecting correct)

theorem NodeOk.on_receive_proposal (h : NodeOk config correct r votes s) {prop : Proposal Hash}
    (hne : prop.proposer ≠ s.id) (hx : s.delivered prop.blk = true) :
    (s.on_receive_proposal config prop).Leaves (Casts config correct r votes
      (fun x => s.SafeCall (.on_receive_proposal prop) → InOrder hc hi r votes x) s) := by
  rw [HotStuffCore.on_receive_proposal, if_neg hne, if_pos hx]
  refine (h.update hc hx).bind (fun s1 hs => .none hs.2.1.votes_sent hs.1)
    fun s1 ⟨h1, hu, hready⟩ => ?_
  refine (h1.vote_on hc ((hu.shape _).delivered.trans hx) hready fun ho hd hsafe => ?_).mono
    fun s2 h2 => h2.of_votes_sent hu.votes_sent
  have hpos : 0 < s.height prop.blk := by
    rw [← (hu.shape _).height]
    exact Nat.zero_lt_of_lt (opinion_eq_true ho).1
  obtain ⟨p, q, hp, hq⟩ := h.blocks.refs_of_height hx hpos
  exact h.in_order_of_opinion hc hi h1 hu hx hp hq (hsafe p q hp hq) hd ho

omit [DecidableEq Hash] in
/-- The heights and the chains that the vote looks at are there before the block is stored. -/
theorem SafeVote.of_grows (hok : BlocksOk config s) (hg : Grows s s') {p q : Hash}
    (hp : s.delivered p = true) (hq : s.delivered q = true) (hl : s.delivered s.b_lock = true)
    (hlock : s'.b_lock = s.b_lock) (hv : s'.vheight = s.vheight)
    (hd : s'.vote_disabled = s.vote_disabled) (h : s.SafeVote p q) : s'.SafeVote p q := by
  rw [SafeVote, hlock, hv, hd, (hg.sameAt hp).height, (hg.sameAt hq).height, (hg.sameAt hl).height]
  rcases h with h | h | h | h | h
  · exact .inl h
  · exact .inr (.inl h)
  · exact .inr (.inr (.inl h))
  · exact .inr (.inr (.inr (.inl (hok.above_of_grows hg hp h))))
  · exact .inr (.inr (.inr (.inr (hok.above_of_grows hg hp h))))

theorem NodeOk.on_propose (h : NodeOk config correct r votes s) (hshort : s.Short)
    (cmds parents : List Hash) (extra : List UInt8)
    (hps : ∀ y ∈ parents, s.delivered y = true) :
    (s.on_propose config cmds parents extra).Leaves (Casts config correct r votes
      (fun x => s.SafeCall (.on_propose cmds parents extra) → InOrder hc hi r votes x) s) := by
  cases parents with
  | nil => exact Outcome.leaves_throw.mpr (.none rfl h)
  | cons p ps =>
    simp only [HotStuffCore.on_propose]
    generalize hx : config.get_hash (s.proposed cmds (p :: ps) extra) = x
    obtain ⟨b, t, hdel, h1, hg⟩ := h.deliver_proposed hc hshort hps cmds extra hx
    have hxd := delivered_of_on_deliver_blk hdel
    rw [hdel]
    have hparent : config.Parent x p := ⟨_, hx, rfl⟩
    have hqc : config.QcOf x s.hqc.1 := ⟨_, hx, h.certs.hqc⟩
    have hne : x ≠ config.b0 := fun heq => hc.not_parent_b0 (heq ▸ hparent)
    have hsafe1 : s.SafeCall (.on_propose cmds (p :: ps) extra) →
        HotStuffCore.SafeVote { s.put x b with tails := t } p s.hqc.1 := fun hsafe =>
      SafeVote.of_grows h.blocks hg (hps p List.mem_cons_self) h.hqc_delivered h.lock_delivered rfl
        rfl rfl (hsafe p rfl)
    have hsent : HotStuffCore.votes_sent { s.put x b with tails := t } = s.votes_sent := rfl
    have hid : HotStuffCore.id { s.put x b with tails := t } = s.id := rfl
    generalize { s.put x b with tails := t } = s1 at h1 hxd hsafe1 hsent hid
    rw [Outcome.andThen]
    refine (h1.update hc hxd).bind (fun s2 hs => .none (hs.2.1.votes_sent.trans hsent) hs.1)
      fun s2 hs2 => ?_
    obtain ⟨h2, hu, hready⟩ := hs2
    have hsent2 := hu.votes_sent.trans hsent
    split
    · exact Outcome.leaves_throw.mpr (.none hsent2 h2)
    rw [HotStuffCore.on_receive_proposal, if_pos (hu.id.trans hid).symm]
    refine Outcome.Leaves.bind (P := Casts config correct r votes
      (fun x => s.SafeCall (.on_propose cmds (p :: ps) extra) → InOrder hc hi r votes x) s) ?_
      (fun _ h3 => h3) fun s3 h3 => Outcome.leaves_ok.mpr (h3.broadcast _)
    refine (h2.vote_on hc ((hu.shape x).delivered.trans hxd) hready fun ho hd hsafe => ?_).mono
      fun s3 h3 => h3.of_votes_sent hsent2
    exact h1.in_order_of_opinion hc hi h2 hu hxd (h1.blocks.parents_of_parent hc hxd hparent)
      (h1.blocks.qc_ref_of_qcOf hc hne hxd hqc) (hsafe1 hsafe) hd ho

omit [DecidableEq Hash] in
theorem Silent.casts {order : Hash → Prop} (h : Silent config correct r votes s s') :
    Casts config correct r votes order s s' := .none h.1 h.2

/-- A call that can occur keeps the invariant, and sends at most one vote, which is in order when
the call is safe. -/
theorem NodeOk.call {w : World Hash Sig} (h : NodeOk config correct r w.votes (w.core r))
    (hshort : (w.core r).Short) {c : Call Hash Sig} (he : w.Enabled config correct r c) :
    ((w.core r).call config c).Leaves (Casts config correct r w.votes
      (fun x => (w.core r).SafeCall c → InOrder hc hi r w.votes x) (w.core r)) := by
  cases c with
  | add_blk data => exact (h.add_blk hshort he.1 he.2).mono fun _ hs => hs.casts
  | on_deliver_blk blk =>
    obtain ⟨b, hb, hv, hq, hp⟩ := he
    exact (h.on_deliver_blk hshort hb hv hq hp).mono fun _ hs => hs.casts
  | on_propose cmds parents extra => exact h.on_propose hc hi hshort cmds parents extra he
  | on_receive_proposal prop =>
    exact h.on_receive_proposal hc hi (h.id.symm ▸ he.1) he.2
  | on_receive_vote vote => exact (h.on_receive_vote he.1 he.2).mono fun _ hs => hs.casts
  | set_vote_disabled f =>
    have hframe : NodeOk config correct r w.votes { w.core r with vote_disabled := f } :=
      h.frame (h.blocks.of_sameShape (SameShape.of_storage_eq (s := w.core r) rfl))
        ⟨h.certs.hqc, h.certs.stored, h.certs.self_qc⟩
        (h.log.quiet h.blocks.grounded (.of_storage_eq rfl rfl rfl ⟨[], by simp, by simp⟩))
        (Grows.refl (w.core r)) rfl rfl rfl le_rfl h.hqc_delivered h.hqc
        ⟨h.stored.waiting, h.stored.rooted, h.stored.voted⟩
    exact Outcome.leaves_ok.mpr (.none rfl hframe)

end Calls

end HotStuffCore

end general_hotstuff
