-- The calls that go well. A replica votes for a block whose certificate is as high as its lock,
-- the proposer of the block votes for it as well, and the votes of a quorum make the
-- certificate of the block the highest one.
import GeneralHotStuff.Breaches
import GeneralHotStuff.CommitRule

namespace general_hotstuff

open quorums (ReplicaID)

namespace HotStuffCore

variable {Hash Sig : Type} {config : Config Hash Sig} {correct : ReplicaID → Prop} {r : ReplicaID}
  {votes : List (ReplicaID × Hash)} {s s' : HotStuffCore Hash Sig}

/-! ## The lock -/

/-- What a delivered block refers to by certificate is on its chain. -/
def Anchored (config : Config Hash Sig) (s : HotStuffCore Hash Sig) : Prop :=
  ∀ y z, s.delivered y = true → s.qc_ref y = some z → config.Above y z

variable [DecidableEq Hash]

/-- The lock does not get above the certificate that `update` starts from. -/
theorem NodeOk.lock_le_of_update (hc : config.CollisionFree)
    (h : NodeOk config correct r votes s) (hanch : Anchored config s) {nblk q : Hash}
    (hd : s.delivered nblk = true) (hq : s.qc_ref nblk = some q)
    (hlock : s.height s.b_lock ≤ s.height q) (hu : s.update config nblk = .ok s') :
    s'.height s'.b_lock ≤ s.height q := by
  obtain ⟨b, hb, -⟩ := exists_of_delivered hd
  have hleaves := update_leaves config hb s' (by rw [hu]; rfl)
  obtain ⟨exec, storage, out, hframe⟩ := hleaves.frame
  have hsame : s'.b_lock = (s.touched config nblk b).b_lock := by rw [hframe]
  rw [(hleaves.shape _).height, hsame]
  rcases s.touched_b_lock config nblk b with heq | ⟨y, hy, heq, -⟩
  · rw [heq]
    exact hlock
  · rw [heq]
    unfold lock_ref at hy
    split at hy
    · rw [(undecided_ref_eq_some.mp hy).1, Option.some.injEq] at hq
      rw [hq]
    · obtain ⟨z, hz, hzy⟩ := Option.bind_eq_some_iff.mp hy
      rw [(undecided_ref_eq_some.mp hz).1, Option.some.injEq] at hq
      have href := (undecided_ref_eq_some.mp hzy).1
      have hzd := h.delivered_of_qc_ref href
      have habove := h.blocks.above_of_content hc hzd (hanch z y hzd href)
      exact hq ▸ h.blocks.height_le_of_above hzd habove

/-- A certificate that is not higher than the highest one does not replace it. -/
theorem hqc_of_update {nblk q : Hash} (hd : s.delivered nblk = true)
    (hq : s.qc_ref nblk = some q) (hle : s.height q ≤ s.height s.hqc.1)
    (hu : s.update config nblk = .ok s') : s'.hqc = s.hqc := by
  obtain ⟨b, hb, -⟩ := exists_of_delivered hd
  obtain ⟨exec, storage, out, hframe⟩ := (update_leaves config hb s' (by rw [hu]; rfl)).frame
  have hsame : s'.hqc = (s.touched config nblk b).hqc := by rw [hframe]
  rw [hsame]
  rcases s.touched_hqc config nblk b with heq | ⟨y, hy, -, hlt⟩
  · exact heq
  · rw [(undecided_ref_eq_some.mp hy).1, Option.some.injEq] at hq
    rw [hq] at hlt
    omega

/-! ## Votes that are sent -/

/-- The lock is the certified block, or lower than it: in both cases the replica votes. -/
theorem NodeOk.opinion_eq (h : NodeOk config correct r votes s) {x q : Hash}
    (hx : s.delivered x = true) (hq : s.qc_ref x = some q) (hxq : s.above x q)
    (huniq : ∀ y, Rooted config correct votes y → config.depth y = config.depth q → y = q)
    (hc : config.CollisionFree) (hv : s.vheight < s.height x)
    (hlock : s.height s.b_lock ≤ s.height q) : s.opinion x = some true := by
  have hqd := (h.blocks.above_of_above hx hxq).2
  unfold opinion
  rw [if_neg (Nat.not_le.mpr hv)]
  rcases hlock.lt_or_eq with hlt | heq
  · simp [hq, hlt]
  · -- a block of the same height that is certified is the same block
    have hsame : s.b_lock = q := huniq _ h.lock <| by
      rw [h.blocks.depth_eq hc h.lock_delivered, h.blocks.depth_eq hc hqd, heq]
    obtain ⟨⟨passed, last⟩, hw⟩ := Option.isSome_iff_exists.mp
      (h.descending.walk_isSome (s.height s.b_lock) (Nat.lt_succ_self (s.height x)))
    have hlast : last = s.b_lock := by
      rw [hsame] at hw ⊢
      exact h.blocks.falling.walk_ends hx hxq hw
    rw [if_neg (by simp [hq, heq]), hw]
    simp [hlast]

/-- What a replica has done when it has taken in a block with its certificate on `q` and has voted
for it. -/
structure Accepted (config : Config Hash Sig) (s : HotStuffCore Hash Sig) (prop : Proposal Hash)
    (q : Hash) (s' : HotStuffCore Hash Sig) : Prop where
  shape : SameShape s s'
  votes : SameVotes s s'
  id : s'.id = s.id
  vheight : s'.vheight = s.height prop.blk
  vote_disabled : s'.vote_disabled = false
  hqc : s.height q ≤ s.height s.hqc.1 → s'.hqc = s.hqc
  lock : s'.height s'.b_lock ≤ s.height q
  votes_sent : s'.votes_sent = s.votes_sent ++ [prop.blk]
  sent : .do_vote prop.proposer ⟨s.id, prop.blk, ⟨prop.blk, config.sign s.id prop.blk⟩⟩ ∈ s'.out
  decided : ∀ blk, s.committable config prop.blk = some blk → s'.decision blk = true

theorem NodeOk.accepts (hc : config.CollisionFree) (h : NodeOk config correct r votes s)
    (hlin : Linear config correct votes) (hanch : Anchored config s) (prop : Proposal Hash)
    {q : Hash} (hx : s.delivered prop.blk = true) (hq : s.qc_ref prop.blk = some q)
    (hxq : s.above prop.blk q)
    (huniq : ∀ y, Rooted config correct votes y → config.depth y = config.depth q → y = q)
    (hv : s.vheight < s.height prop.blk) (hdis : s.vote_disabled = false)
    (hlock : s.height s.b_lock ≤ s.height q) :
    ∃ s1, s.update config prop.blk = .ok s1 ∧ Updated s s1 ∧
      s1.vote_on config prop = .ok (s1.voted_for config prop) ∧
      Accepted config s prop q (s1.voted_for config prop) := by
  obtain ⟨s1, hu⟩ := h.update_ok hc hlin hx
  have hleave : (s.update config prop.blk).state? = some s1 := by rw [hu]; rfl
  obtain ⟨h1, hup, -⟩ := h.update hc hx s1 hleave
  have hlock1 := h.lock_le_of_update hc hanch hx hq hlock hu
  have hdis1 : s1.vote_disabled = false := hup.vote_disabled.trans hdis
  have hop : s1.opinion prop.blk = some true := by
    refine h1.opinion_eq ((hup.shape _).delivered.trans hx) ((hup.shape _).qc_ref.trans hq)
      (h.blocks.above_of_grows hup.shape.grows hx hxq) huniq hc ?_ ?_
    · rw [hup.vheight, (hup.shape _).height]
      exact hv
    · rw [(hup.shape q).height]
      exact hlock1
  have hvote : s1.vote_on config prop = .ok (s1.voted_for config prop) := by
    simp [HotStuffCore.vote_on, hop, hdis1, voted_for]
  have hhqc : s.height q ≤ s.height s.hqc.1 → s1.hqc = s.hqc := fun hle =>
    hqc_of_update hx hq hle hu
  refine ⟨s1, hu, hup, hvote, ?_⟩
  exact {
    shape := hup.shape.trans (.of_storage_eq rfl)
    votes := (update_sameVotes config s prop.blk s1 hleave).trans (.of_storage_eq rfl)
    id := hup.id
    vheight := (hup.shape _).height
    vote_disabled := hdis1
    hqc := hhqc
    lock := hlock1
    votes_sent := by
      rw [← hup.votes_sent]
      simp [HotStuffCore.votes_sent, voted_for, hdis1, Output.voted]
    sent := by simp [voted_for, hdis1, hup.id]
    decided := (h.log.update_ok h.blocks hx hu).1 }

theorem on_receive_proposal_of_accepts {prop : Proposal Hash} {s1 : HotStuffCore Hash Sig}
    (hne : prop.proposer ≠ s.id) (hx : s.delivered prop.blk = true)
    (hu : s.update config prop.blk = .ok s1)
    (hvote : s1.vote_on config prop = .ok (s1.voted_for config prop)) :
    s.call config (.on_receive_proposal prop) = .ok (s1.voted_for config prop) := by
  rw [call, HotStuffCore.on_receive_proposal, if_neg hne, if_pos hx, hu, Outcome.andThen, hvote]

/-! ## A block that arrives -/

/-- Between the states nothing but the block `x` arrives. -/
structure TakesIn (x : Hash) (s s' : HotStuffCore Hash Sig) : Prop where
  grows : Grows s s'
  delivered : ∀ y, s'.delivered y = true → s.delivered y = true ∨ y = x
  vheight : s'.vheight = s.vheight
  vote_disabled : s'.vote_disabled = s.vote_disabled
  b_lock : s'.b_lock = s.b_lock

theorem add_blk_takes_in (config : Config Hash Sig) (s : HotStuffCore Hash Sig)
    (data : BlockData Hash Sig) : ∃ s' b, s.call config (.add_blk data) = .ok s' ∧
      s'.storage (config.get_hash data) = some b ∧ TakesIn (config.get_hash data) s s' := by
  cases hb : s.storage (config.get_hash data) with
  | none =>
    refine ⟨_, _, call_add_blk_of_none hb, storage_put_self s _ _, Grows.put_new hb _,
      fun y hy => ?_, rfl, rfl, rfl⟩
    by_cases hyx : y = config.get_hash data
    · exact .inr hyx
    · rw [HotStuffCore.delivered, storage_put_of_ne s _ hyx] at hy
      exact .inl hy
  | some b =>
    exact ⟨s, b, call_add_blk_of_isSome (by simp [hb]), hb, Grows.refl s, fun _ hy => .inl hy,
      rfl, rfl, rfl⟩

theorem on_deliver_blk_takes_in (config : Config Hash Sig) {x p : Hash} {b : Block Hash Sig}
    (hb : s.storage x = some b) (hps : b.parent_hashes = [p]) (hp : s.delivered p = true)
    (hq : (s.storage b.qc.obj_hash).isSome) : ∃ s', s.call config (.on_deliver_blk x) = .ok s' ∧
      s'.delivered x = true ∧ TakesIn x s s' := by
  cases hd : b.delivered with
  | true =>
    exact ⟨s, on_deliver_blk_of_delivered hb hd, (delivered_eq hb).trans hd, Grows.refl s,
      fun _ hy => .inl hy, rfl, rfl, rfl⟩
  | false =>
    have hok := on_deliver_blk_ok hb hd hps
      (fun y hy => List.mem_singleton.mp hy ▸ hp) hq
    refine ⟨_, hok, delivered_of_on_deliver_blk hok, ⟨?_, fun y hy => ?_, rfl, rfl, rfl⟩⟩
    · exact on_deliver_blk_grows s x _ (by rw [hok]; rfl)
    · by_cases hyx : y = x
      · exact .inr hyx
      · rw [HotStuffCore.delivered] at hy
        rw [storage_put_of_ne s _ hyx] at hy
        exact .inl hy

/-- The heads depend on the links between blocks only. -/
theorem committable_of_sameShape (config : Config Hash Sig) (hs : SameShape s s') (x : Hash) :
    s'.committable config x = s.committable config x := by
  have hdirect : s'.direct_ref = s.direct_ref := by
    funext y
    rw [direct_ref, (hs y).qc_ref, (hs y).parents, direct_ref]
  rw [committable, committable, (hs x).qc_ref, hdirect]

/-! ## Votes on blocks that wait -/

omit [DecidableEq Hash] in
/-- No vote is counted on a block that is not delivered. -/
def Uncounted (s : HotStuffCore Hash Sig) : Prop :=
  ∀ h b, s.storage h = some b → b.delivered = false → b.voted = ∅

omit [DecidableEq Hash] in
theorem Uncounted.frame (h : s.Uncounted) (hg : Grows s s') (hv : SameVotes s s') :
    s'.Uncounted := by
  intro x b' hb' hd
  obtain ⟨b, hb, -, hvoted⟩ := hv.block hb'
  rw [hvoted]
  refine h x b hb ?_
  rw [← Bool.not_eq_true]
  intro hbd
  have hd' := hg.delivered ((delivered_eq hb).trans hbd)
  rw [delivered_eq hb', hd] at hd'
  cases hd'

theorem Uncounted.put (h : s.Uncounted) {x : Hash} {b : Block Hash Sig}
    (hb : b.delivered = false → b.voted = ∅) : (s.put x b).Uncounted := by
  intro y c hc hd
  by_cases hy : y = x
  · rw [hy, storage_put_self, Option.some.injEq] at hc
    subst hc
    exact hb hd
  · exact h y c ((storage_put_of_ne s b hy).symm.trans hc) hd

theorem kept_uncounted (config : Config Hash Sig) :
    Kept config fun s : HotStuffCore Hash Sig => s.Uncounted where
  update s nblk h _ s' hs' :=
    h.frame (update_sameShape config s nblk s' hs').grows (update_sameVotes config s nblk s' hs')
  vote_on s prop h := by
    rcases vote_on_cases config prop s with ⟨-, ho⟩ | ho | ⟨-, ho⟩
    · exact ho ▸ Outcome.leaves_undefined
    · exact ho ▸ Outcome.leaves_ok.mpr h
    · exact ho ▸ Outcome.leaves_ok.mpr h
  broadcast _ _ h := h

theorem Uncounted.store_proposed (h : s.Uncounted) (config : Config Hash Sig) (cmds : List Hash)
    (p : Hash) (ps : List Hash) (extra : List UInt8) :
    (s.store_proposed config cmds p ps extra).Uncounted := by
  cases hb : s.storage (config.get_hash (s.proposed cmds (p :: ps) extra)) with
  | none =>
    rw [store_proposed_of_none hb]
    exact h.put fun _ => rfl
  | some b =>
    rw [store_proposed_of_some hb]
    exact h.put fun hd => h _ b hb hd

/-- Votes are counted on delivered blocks only. -/
theorem Uncounted.on_receive_vote (h : s.Uncounted) (config : Config Hash Sig)
    (vote : Vote Hash Sig) : (s.on_receive_vote config vote).Leaves Uncounted := by
  rcases on_receive_vote_cases config vote s with ho | ho | ⟨b, -, hd, -, -, ho⟩
  · exact ho ▸ Outcome.leaves_throw.mpr h
  · exact ho ▸ Outcome.leaves_ok.mpr h
  have hput : ∀ c : Block Hash Sig, c.delivered = b.delivered →
      (s.put vote.blk_hash c).Uncounted := fun c hcd => h.put fun hd' => by
    rw [hcd, hd] at hd'
    cases hd'
  generalize s.on_receive_vote config vote = o at ho
  cases ho with
  | mismatch => exact Outcome.leaves_throw.mpr (hput _ rfl)
  | collected => exact Outcome.leaves_ok.mpr (hput _ rfl)
  | computed => exact Outcome.leaves_ok.mpr (hput _ rfl)

theorem Uncounted.call (h : s.Uncounted) (config : Config Hash Sig) (c : Call Hash Sig) :
    (s.call config c).Leaves Uncounted := by
  have hk := kept_uncounted config
  cases c with
  | add_blk data =>
    cases hb : s.storage (config.get_hash data) with
    | none =>
      rw [call_add_blk_of_none hb, Outcome.leaves_ok]
      exact h.put fun _ => rfl
    | some b =>
      rw [call_add_blk_of_isSome (by simp [hb]), Outcome.leaves_ok]
      exact h
  | on_deliver_blk blk =>
    intro s' hs'
    exact h.frame (on_deliver_blk_grows s blk s' hs') (on_deliver_blk_sameVotes s blk s' hs').2
  | on_propose cmds parents extra =>
    refine hk.on_propose h cmds parents extra fun p ps _ s' hs' => ?_
    exact (h.store_proposed config cmds p ps extra).frame (on_deliver_blk_grows _ _ s' hs')
      (on_deliver_blk_sameVotes _ _ s' hs').2
  | on_receive_proposal prop => exact hk.on_receive_proposal h prop
  | on_receive_vote vote => exact h.on_receive_vote config vote
  | set_vote_disabled f => exact Outcome.leaves_ok.mpr h

theorem on_init_uncounted (config : Config Hash Sig) (id : ReplicaID) :
    (on_init config id).Uncounted := by
  intro h b hb hd
  by_cases hh : h = config.b0
  · simp only [on_init, hh, Function.update_self, Option.some.injEq] at hb
    rw [← hb] at hd
    cases hd
  · simp [on_init, hh] at hb

/-! ## The proposer's own vote -/

/-- A block that a replica can have been asked to propose: nothing is counted on it yet, and its
certificate is the one that the replica holds, or has arrived with the block before. -/
structure Offered (config : Config Hash Sig) (correct : ReplicaID → Prop)
    (votes : List (ReplicaID × Hash)) (data : BlockData Hash Sig) (x : Hash)
    (b : Block Hash Sig) : Prop where
  hash : config.get_hash b.toBlockData = x
  delivered : b.delivered = true
  voted : b.voted = ∅
  self_qc : b.self_qc = some (.create_quorum_cert config x)
  origin : b.toBlockData = data ∨ b.qc.Parsed ∧ Unforged config correct votes b.qc

/-- The block as it is stored before it is delivered. -/
theorem NodeOk.store_proposed (h : NodeOk config correct r votes s) (hun : s.Uncounted)
    (hc : config.CollisionFree) {cmds : List Hash} {p : Hash} {ps : List Hash}
    {extra : List UInt8} {x : Hash}
    (hx : config.get_hash (s.proposed cmds (p :: ps) extra) = x) (hnew : s.delivered x = false) :
    ∃ b, (s.store_proposed config cmds p ps extra).storage x = some b ∧
      config.get_hash b.toBlockData = x ∧ b.voted = ∅ ∧
      b.self_qc = some (.create_quorum_cert config x) ∧
      (b.toBlockData = s.proposed cmds (p :: ps) extra ∨
        b.qc.Parsed ∧ Unforged config correct votes b.qc) := by
  subst hx
  cases hb : s.storage (config.get_hash (s.proposed cmds (p :: ps) extra)) with
  | none =>
    rw [store_proposed_of_none hb]
    exact ⟨_, storage_put_self s _ _, rfl, rfl, rfl, .inl rfl⟩
  | some b =>
    have hd : b.delivered = false := (delivered_eq hb).symm.trans hnew
    have hwait := h.stored.waiting _ b hb hd
    have hne : config.get_hash (s.proposed cmds (p :: ps) extra) ≠ config.b0 := fun heq =>
      hc.not_parent_b0 ⟨_, heq, rfl⟩
    rw [store_proposed_of_some hb]
    exact ⟨_, storage_put_self s _ _, (h.blocks.law _ b hne hb).hash, hun _ b hb hd, rfl,
      .inr ⟨hwait.parsed, hwait.unforged⟩⟩

/-- The state once the new block is delivered, and the one after the vote for it. -/
theorem NodeOk.proposes (hc : config.CollisionFree) (h : NodeOk config correct r votes s)
    (hshort : s.Short) (hlin : Linear config correct votes) (hun : s.Uncounted)
    (hanch : Anchored config s) {p x : Hash} (hp : s.delivered p = true) (cmds : List Hash)
    (extra : List UInt8)
    (hx : config.get_hash (s.proposed cmds [p] extra) = x) (hnew : s.delivered x = false)
    (hext : config.Above p s.hqc.1)
    (huniq : ∀ y, Rooted config correct votes y → config.depth y = config.depth s.hqc.1 →
      y = s.hqc.1)
    (hv : s.vheight ≤ s.height p) (hdis : s.vote_disabled = false)
    (hlock : s.height s.b_lock ≤ s.height s.hqc.1) :
    ∃ b t s', Offered config correct votes (s.proposed cmds [p] extra) x b ∧
      NodeOk config correct r votes { s.put x b with tails := t } ∧
      Accepted config { s.put x b with tails := t } ⟨s.id, x⟩ s.hqc.1 s' ∧
      s.call config (.on_propose cmds [p] extra) =
        .ok { s' with out := s'.out ++ [.do_broadcast_proposal ⟨s.id, x⟩] } := by
  have hps : ∀ y ∈ [p], s.delivered y = true := fun y hy => List.mem_singleton.mp hy ▸ hp
  obtain ⟨b, t, hdel, h1, hg⟩ := h.deliver_proposed hc hshort hps cmds extra hx
  obtain ⟨c, hcs, hhash, hvoted, hqc, horigin⟩ := h.store_proposed hun hc hx hnew
  have hleave : ((s.store_proposed config cmds p [] extra).on_deliver_blk x).state? =
      some { s.put x b with tails := t } := by rw [hdel]; rfl
  have hxd := delivered_of_on_deliver_blk hdel
  have hblk : HotStuffCore.storage { s.put x b with tails := t } x = some b :=
    storage_put_self s x b
  -- delivery keeps the wire fields and the votes
  have hdata : b.toBlockData = c.toBlockData := by
    obtain ⟨b', hb', hdata, -⟩ := on_deliver_blk_grows _ x _ hleave x c hcs
    rw [hblk, Option.some.injEq] at hb'
    exact hb' ▸ hdata
  have hcounts : b.self_qc = c.self_qc ∧ b.voted = c.voted := by
    obtain ⟨c', hcs', hqc, hvoted⟩ := (on_deliver_blk_sameVotes _ x _ hleave).2.block hblk
    rw [hcs, Option.some.injEq] at hcs'
    exact hcs' ▸ ⟨hqc, hvoted⟩
  have hparent : config.Parent x p := ⟨_, hx, rfl⟩
  have hqcof : config.QcOf x s.hqc.1 := ⟨_, hx, h.certs.hqc⟩
  have hne : x ≠ config.b0 := fun heq => hc.not_parent_b0 (heq ▸ hparent)
  have hstay := hg.sameAt hp
  have hlockd := hg.sameAt h.lock_delivered
  have hqd := hg.sameAt h.hqc_delivered
  have hanch1 : Anchored config { s.put x b with tails := t } := by
    intro y z hy hyz
    by_cases hyx : y = x
    · rw [hyx, h1.blocks.qc_ref_of_qcOf hc hne hxd hqcof, Option.some.injEq] at hyz
      rw [hyx, ← hyz]
      exact .head hparent hext
    · have hst := storage_put_of_ne s b hyx
      refine hanch y z ?_ ?_
      · rw [← hy, HotStuffCore.delivered, HotStuffCore.delivered, ← hst]
      · rw [← hyz, HotStuffCore.qc_ref, HotStuffCore.qc_ref, ← hst]
  have hxp := h1.blocks.parents_of_parent hc hxd hparent
  have hv1 : HotStuffCore.vheight { s.put x b with tails := t } <
      HotStuffCore.height { s.put x b with tails := t } x := by
    rw [h1.blocks.height_parent hxd hxp, hstay.height]
    exact Nat.lt_succ_of_le hv
  have hlock1 : HotStuffCore.height { s.put x b with tails := t } s.b_lock ≤
      HotStuffCore.height { s.put x b with tails := t } s.hqc.1 := by
    rw [hlockd.height, hqd.height]
    exact hlock
  obtain ⟨s2, hu, hup, hvote, hacc⟩ := h1.accepts hc hlin hanch1 ⟨s.id, x⟩ hxd
    (h1.blocks.qc_ref_of_qcOf hc hne hxd hqcof)
    (h1.blocks.above_of_content hc hxd (.head hparent hext)) huniq hv1 hdis hlock1
  have hqcs : b.qc = c.qc := congrArg (·.qc) hdata
  refine ⟨b, t, _, ⟨hdata ▸ hhash, (delivered_eq hblk).symm.trans hxd, hcounts.2.trans hvoted,
    hcounts.1.trans hqc, hdata ▸ hqcs ▸ horigin⟩, h1, hacc, ?_⟩
  have hv2 : ¬ s2.height x ≤ s2.vheight := by
    rw [(hup.shape x).height, hup.vheight]
    exact Nat.not_le.mpr hv1
  have hself : s.id = s2.id := hup.id.symm
  simp only [HotStuffCore.call, HotStuffCore.on_propose, hx, hdel, Outcome.andThen, hu,
    if_neg hv2, HotStuffCore.on_receive_proposal, if_pos hself, hvote]

/-! ## The votes of a quorum -/

/-- What a vote leaves alone. -/
theorem on_receive_vote_keeps (config : Config Hash Sig) (s : HotStuffCore Hash Sig)
    (vote : Vote Hash Sig) : (s.on_receive_vote config vote).Leaves fun s' =>
      s'.vheight = s.vheight ∧ s'.vote_disabled = s.vote_disabled ∧ s'.b_lock = s.b_lock := by
  rcases on_receive_vote_cases config vote s with h | h | ⟨b, hb, -, -, -, h⟩
  · exact h ▸ Outcome.leaves_throw.mpr ⟨rfl, rfl, rfl⟩
  · exact h ▸ Outcome.leaves_ok.mpr ⟨rfl, rfl, rfl⟩
  · generalize s.on_receive_vote config vote = o at h ⊢
    cases h with
    | mismatch => exact Outcome.leaves_throw.mpr ⟨rfl, rfl, rfl⟩
    | collected => exact Outcome.leaves_ok.mpr ⟨rfl, rfl, rfl⟩
    | computed => exact Outcome.leaves_ok.mpr ⟨rfl, rfl, rfl⟩

omit [DecidableEq Hash] in
/-- The bits of the signers are set. -/
def Marked (qc : QuorumCert Hash Sig) : Prop :=
  ∀ i ∈ qc.signers, i < qc.rids.length → qc.rids[i]? = some true

theorem Marked.add_part {qc qc' : QuorumCert Hash Sig} (h : Marked qc) {rid : ReplicaID}
    {pc : PartCert Hash Sig} (ha : qc.add_part rid pc = some qc') : Marked qc' := by
  unfold QuorumCert.add_part at ha
  split at ha
  · cases ha
  rw [Option.some.injEq] at ha
  subst ha
  intro i hi hlt
  have hlen : i < qc.rids.length := by simpa using hlt
  by_cases hir : i = rid
  · rw [← hir]
    exact List.getElem?_set_self hlen
  · have hold : i ∈ qc.signers := by
      simp only [QuorumCert.signers, List.mem_toFinset, List.mem_map] at hi ⊢
      obtain ⟨p, hp, rfl⟩ := hi
      split at hp
      · exact ⟨p, hp, rfl⟩
      · rcases List.mem_append.mp hp with hp | hp
        · exact ⟨p, hp, rfl⟩
        · exact absurd (congrArg Prod.fst (List.mem_singleton.mp hp)) hir
    rw [List.getElem?_set_ne (Ne.symm hir)]
    exact h i hold hlen

/-- How far the votes on `x` are once those of `voters` are in: they are collected and the highest
certificate is the old one, or they have made a certificate, which is the highest one. -/
inductive Tallied (config : Config Hash Sig) (x : Hash) (hqc : Hash × QuorumCert Hash Sig)
    (voters : Finset ReplicaID) (s : HotStuffCore Hash Sig) : Prop where
  | collecting (b : Block Hash Sig) (hb : s.storage x = some b) (hd : b.delivered = true)
      (hv : b.voted = voters) (hr : Records config x b) (hm : ∀ qc ∈ b.self_qc, Marked qc)
      (hq : config.rule.isQuorum voters = false) (hhqc : s.hqc = hqc) :
      Tallied config x hqc voters s
  | computed (b : Block Hash Sig) (hb : s.storage x = some b) (hd : b.delivered = true)
      (hq : config.rule.isQuorum b.voted = true) (qc : QuorumCert Hash Sig)
      (P : Finset ReplicaID) (hsub : P ⊆ voters) (hP : config.rule.isQuorum P = true)
      (hc : qc.Collects config x P) (hm : Marked qc) (hhqc : s.hqc = (x, qc.compute config)) :
      Tallied config x hqc voters s

theorem Tallied.on_receive_vote {x : Hash} {hqc : Hash × QuorumCert Hash Sig}
    {voters : Finset ReplicaID} (h : Tallied config x hqc voters s)
    (hlow : s.height hqc.1 < s.height x) {vote : Vote Hash Sig} (hv : Verified config vote)
    (hx : vote.blk_hash = x) (hnew : vote.voter ∉ voters) :
    ∃ s', s.call config (.on_receive_vote vote) = .ok s' ∧
      Tallied config x hqc (insert vote.voter voters) s' := by
  subst hx
  cases h with
  | computed b hb hd hq qc P hsub hP hc hm hhqc =>
    refine ⟨s, by simp [call, HotStuffCore.on_receive_vote, hb, hd, hq], ?_⟩
    exact .computed b hb hd hq qc P (hsub.trans (Finset.subset_insert _ _)) hP hc hm hhqc
  | collecting b hb hd hvoted hr hm hq hhqc =>
    subst hvoted
    obtain ⟨qc, ha, hcol⟩ := hr.add_part hv hnew
    have hmark : Marked qc := by
      refine Marked.add_part ?_ ha
      cases hself : b.self_qc with
      | none => simp [Marked, QuorumCert.create_quorum_cert, QuorumCert.signers]
      | some qc0 => exact hm qc0 hself
    have hbecomes := config.rule.becomesQuorum_eq hnew hq
    cases hbq : config.rule.isQuorum (insert vote.voter b.voted) with
    | false =>
      refine ⟨s.put vote.blk_hash { b with
        voted := insert vote.voter b.voted, self_qc := some qc }, ?_, ?_⟩
      · simp [call, HotStuffCore.on_receive_vote, hb, hd, hq, hnew, ha, hbecomes, hbq,
          modify_eq_put hb]
      · exact .collecting _ (storage_put_self s _ _) hd rfl hcol
          (fun qc0 hqc0 => Option.some.inj hqc0 ▸ hmark) hbq hhqc
    | true =>
      have hcall : s.call config (.on_receive_vote vote) = .ok
          { (s.put vote.blk_hash { b with
              voted := insert vote.voter b.voted
              self_qc := some (qc.compute config) }).update_hqc vote.blk_hash
                (qc.compute config) with
            out := s.out ++ [.certificate vote.blk_hash (qc.compute config)] } := by
        simp [call, HotStuffCore.on_receive_vote, hb, hd, hq, hnew, ha, hbecomes, hbq,
          modify_eq_put hb]
      have hput := put_sameShape hb (c := { b with
        voted := insert vote.voter b.voted
        self_qc := some (qc.compute config) }) rfl
      refine ⟨_, hcall, .computed { b with
        voted := insert vote.voter b.voted
        self_qc := some (qc.compute config) } ?_ hd hbq qc _ subset_rfl hbq hcol hmark ?_⟩
      · rw [update_hqc_eq]
        exact storage_put_self s vote.blk_hash _
      · -- the block is higher than the block of the old certificate
        rw [update_hqc, if_pos]
        rw [(hput _).height, (hput _).height]
        exact hhqc ▸ hlow

end HotStuffCore

end general_hotstuff
