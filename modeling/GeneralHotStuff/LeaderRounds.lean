-- A round of a leader in a world: its block reaches a quorum of correct replicas, each of them
-- votes, and the leader makes the next certificate. They need nothing but the messages that
-- they send each other.
import GeneralHotStuff.Acceptance
import GeneralHotStuff.DecisionLog
import GeneralHotStuff.Transitions

namespace general_hotstuff

open quorums (ReplicaID)

variable {Hash Sig : Type} {config : Config Hash Sig} {correct : ReplicaID → Prop}

/-- Certificates of blocks with one hash verify alike. -/
def Config.SameCertificates (config : Config Hash Sig) : Prop :=
  ∀ data data', config.get_hash data = config.get_hash data' →
    data.qc.verify config = data'.qc.verify config

/-- The signatures that configured replicas make verify, and so does the combination of a
quorum of them. -/
structure Config.Signs (config : Config Hash Sig) : Prop where
  sign : ∀ i < config.nreplicas, ∀ h, config.sigVerify i h (config.sign i h) = true
  combines : QuorumCert.Combines config

/-- The certificate passes the checks of the replicas that it is sent to. -/
structure QuorumCert.Shown (config : Config Hash Sig) (correct : ReplicaID → Prop)
    (votes : List (ReplicaID × Hash)) (qc : QuorumCert Hash Sig) : Prop where
  parsed : qc.Parsed
  unforged : Unforged config correct votes qc
  verified : qc.obj_hash = config.b0 ∨ qc.verify config = some true

theorem QuorumCert.Shown.mono {votes votes' : List (ReplicaID × Hash)} {qc : QuorumCert Hash Sig}
    (h : qc.Shown config correct votes) (hsub : ∀ v ∈ votes, v ∈ votes') :
    qc.Shown config correct votes' :=
  ⟨h.parsed, h.unforged.mono hsub, h.verified⟩

/-- The certificate that the votes of the quorum make is one that the quorum accepts. -/
theorem QuorumCert.Collects.shown {Q P : Finset ReplicaID} {votes : List (ReplicaID × Hash)}
    {x : Hash} {qc : QuorumCert Hash Sig}
    (hsig : config.Signs) (hQ : config.Quorum Q) (hcol : qc.Collects config x P)
    (hmark : HotStuffCore.Marked qc) (hP : config.rule.isQuorum P = true) (hPQ : P ⊆ Q)
    (hvotes : ∀ i ∈ Q, (i, x) ∈ votes) :
    (qc.compute config).Shown config correct votes where
  parsed := by
    cases hs : config.scheme with
    | secp256k1 =>
      intro i hi
      simp only [QuorumCert.compute, hs] at hi ⊢
      have hlt := hQ.1 i (hPQ (hcol.signers ▸ hi))
      have hlen := hcol.length ▸ hlt
      exact ⟨i, hlen, hmark i hi hlen, QuorumCert.rid_of_bit_of_lt hlt⟩
    | bls =>
      intro i hi
      simp [QuorumCert.compute, hs, QuorumCert.signers] at hi
  unforged := by
    unfold Unforged
    cases hs : config.scheme with
    | secp256k1 =>
      intro v hv _ _
      simp only [QuorumCert.compute, hs] at hv ⊢
      have hsigner : v.1 ∈ qc.signers := by
        rw [QuorumCert.signers, List.mem_toFinset]
        exact List.mem_map_of_mem hv
      rw [hcol.obj_hash]
      exact hvotes v.1 (hPQ (hcol.signers ▸ hsigner))
    | bls =>
      intro _
      rw [QuorumCert.compute_obj_hash, hcol.obj_hash]
      exact ⟨Q, hQ, fun i hi _ => hvotes i hi⟩
  verified := .inr (hcol.verify_compute hsig.combines hP)

namespace World

open HotStuffCore (Call NodeOk Anchored Accepted Offered Tallied Records)

variable [DecidableEq Hash]

/-! ## What comes after a world -/

def step (config : Config Hash Sig) (w : World Hash Sig) (e : ReplicaID × Call Hash Sig) :
    Option (World Hash Sig) :=
  ((w.core e.1).call config e.2).state?.map (w.after e.1)

/-- The calls of the replicas in `Q`, with the blocks and proposals of the leader and the votes of
the others as these have sent them. -/
def Timely (config : Config Hash Sig) (Q : Finset ReplicaID) (leader : ReplicaID)
    (w : World Hash Sig) (r : ReplicaID) : Call Hash Sig → Prop
  | .add_blk data => r ∈ Q ∧ ∃ b, (w.core leader).storage (config.get_hash data) = some b ∧
    b.toBlockData = data
  | .on_deliver_blk _ => r ∈ Q
  | .on_propose _ _ _ => r = leader
  | .on_receive_proposal prop => r ∈ Q ∧ .do_broadcast_proposal prop ∈ (w.core leader).out
  | .on_receive_vote vote => r = leader ∧ vote.voter ∈ Q ∧
    .do_vote leader vote ∈ (w.core vote.voter).out
  | .set_vote_disabled _ => False

/-- What the leader and the quorum can do by themselves. -/
def Allowed (config : Config Hash Sig) (correct : ReplicaID → Prop) (Q : Finset ReplicaID)
    (leader : ReplicaID) (w : World Hash Sig) (e : ReplicaID × Call Hash Sig) : Prop :=
  correct e.1 ∧ (w.core e.1).Short ∧ w.Enabled config correct e.1 e.2 ∧
    Extending config w e.1 e.2 ∧ Timely config Q leader w e.1 e.2

/-- The worlds that the leader and the quorum can reach from `w` by themselves. -/
abbrev Later (config : Config Hash Sig) (correct : ReplicaID → Prop) (Q : Finset ReplicaID)
    (leader : ReplicaID) : World Hash Sig → World Hash Sig → Prop :=
  transitions.Runs (step config) (Allowed config correct Q leader)

variable {Q : Finset ReplicaID} {leader : ReplicaID} {w w' : World Hash Sig}

theorem Run.later (hw : Run config correct (Extending config) w)
    (h : Later config correct Q leader w w') : Run config correct (Extending config) w' := by
  refine h.keeps hw fun t e u ht hok he => ?_
  obtain ⟨hr, hshort, hen, hext, -⟩ := hok
  obtain ⟨s, hs, rfl⟩ := Option.map_eq_some_iff.mp he
  exact ht.step hr hshort hen hext hs

theorem Later.call (h : Later config correct Q leader w w') {r : ReplicaID} (c : Call Hash Sig)
    {s : HotStuffCore Hash Sig} (hr : correct r) (hshort : (w'.core r).Short)
    (he : w'.Enabled config correct r c) (hext : Extending config w' r c)
    (htimely : Timely config Q leader w' r c) (hs : (w'.core r).call config c = .ok s) :
    Later config correct Q leader w (w'.after r s) :=
  h.tail (e := (r, c)) ⟨hr, hshort, he, hext, htimely⟩ (by rw [step, hs]; rfl)

omit [DecidableEq Hash] in
@[simp] theorem after_core_self (w : World Hash Sig) (r : ReplicaID) (s : HotStuffCore Hash Sig) :
    (w.after r s).core r = s := by
  simp [after]

omit [DecidableEq Hash] in
theorem after_core_of_ne (w : World Hash Sig) {r r' : ReplicaID} (hne : r' ≠ r)
    (s : HotStuffCore Hash Sig) : (w.after r s).core r' = w.core r' := by
  simp [after, hne]

/-- The votes in a world are those that the replicas have sent. -/
theorem Run.mem_votes {ok : World Hash Sig → ReplicaID → Call Hash Sig → Prop}
    (hw : Run config correct ok w) (r : ReplicaID) (x : Hash) :
    (r, x) ∈ w.votes ↔ x ∈ (w.core r).votes_sent := by
  induction hw with
  | start => simp [World.start, HotStuffCore.on_init, HotStuffCore.votes_sent]
  | @step w r' c s _ _ _ _ _ hs ih =>
    obtain ⟨more, hmore⟩ : (w.core r').votes_sent <+: s.votes_sent :=
      (HotStuffCore.call_out config (w.core r') c s hs).filterMap _
    rw [votes_after hmore.symm]
    by_cases heq : r = r'
    · subst heq
      rw [after_core_self, ← hmore]
      simp [ih, or_comm]
    · rw [after_core_of_ne w heq, ← ih]
      simp [Ne.symm heq]

theorem Run.uncounted {ok : World Hash Sig → ReplicaID → Call Hash Sig → Prop}
    (hw : Run config correct ok w) (r : ReplicaID) : (w.core r).Uncounted := by
  induction hw with
  | start => exact HotStuffCore.on_init_uncounted config r
  | @step w r' c s _ _ _ _ _ hs ih =>
    by_cases heq : r = r'
    · subst heq
      rw [after_core_self]
      exact ih.call config c s hs
    · rw [after_core_of_ne w heq]
      exact ih

theorem Run.anchored (hc : config.CollisionFree) (hi : config.Intersecting correct)
    (hw : Run config correct (Extending config) w) {r : ReplicaID}
    (hr : correct r) : Anchored config (w.core r) := by
  have hok : Ok hc hi w := hw.keeps_ok
  have hblocks := (hok.node r hr).blocks
  intro y z hy hyz
  by_cases hne : y = config.b0
  · obtain ⟨g, hg, hsh⟩ := hblocks.lawful.genesis_block
    have href : (w.core r).qc_ref y = some config.b0 := by
      rw [hne, HotStuffCore.qc_ref_eq hg]
      exact congrArg (·.qc_ref) hsh
    rw [href, Option.some.injEq] at hyz
    exact hne ▸ hyz ▸ .refl
  · obtain ⟨b, hb, hbd⟩ := HotStuffCore.exists_of_delivered hy
    obtain ⟨p, ps, -, hps, -⟩ := (hblocks.law y b hne hb).linked hbd
    have hp := hblocks.parent_of_delivered hy (p := p)
      (by rw [HotStuffCore.parents_eq hb, hps]; rfl)
    exact .head hp (hw.delivered_extend hc hi hr hy hp (hblocks.qcOf_of_delivered hne hy hyz))

section Blocks

variable {hc : config.CollisionFree} {hi : config.Intersecting correct}

omit [DecidableEq Hash] in
/-- Some correct replica has delivered a certified block. -/
theorem Ok.depth_of_rooted (h : w.Ok hc hi) {x : Hash} (hx : Rooted config correct w.votes x) :
    ∃ n, config.Depth x n := by
  rcases hx with rfl | ⟨P, hP, hall⟩
  · exact ⟨0, .genesis⟩
  · obtain ⟨i, hiP, -, hci⟩ := hi P P hP hP
    have hn := h.node i hci
    exact ⟨_, hn.blocks.depth_of_delivered (hn.cast x (hall i hiP hci)).1⟩

omit [DecidableEq Hash] in
/-- Genesis counts as the certified block of depth zero. -/
theorem Ok.rooted_unique (h : w.Ok hc hi) {x y : Hash} (hx : Rooted config correct w.votes x)
    (hy : Rooted config correct w.votes y) (heq : config.depth x = config.depth y) : x = y := by
  have hzero : ∀ {z : Hash}, Rooted config correct w.votes z → config.depth z = 0 →
      z = config.b0 := by
    intro z hz hz0
    by_contra hne
    obtain ⟨n, hn⟩ := h.depth_of_rooted hz
    have := hc.depth_pos hn hne
    omega
  by_cases hx0 : config.depth x = 0
  · rw [hzero hx hx0, hzero hy (heq ▸ hx0)]
  · have hpos : 0 < config.depth x := Nat.pos_of_ne_zero hx0
    exact h.rising.certified_unique (certified_of_rooted hc hx hpos)
      (certified_of_rooted hc hy (heq ▸ hpos)) heq

end Blocks

theorem Later.votes (h : Later config correct Q leader w w') : ∀ v ∈ w.votes, v ∈ w'.votes := by
  refine h.keeps (P := fun t => ∀ v ∈ w.votes, v ∈ t.votes) (fun _ hv => hv)
    fun t e u ht _ he v hv => ?_
  obtain ⟨s, -, rfl⟩ := Option.map_eq_some_iff.mp he
  exact List.mem_append_right _ (ht v hv)

/-! ## One replica after the other -/

/-- A replica of the quorum that the next block of the leader is for: the block is on `p` and has
its certificate on `q`. -/
structure Awaits (config : Config Hash Sig) (N : ℕ) (p q : Hash) (s : HotStuffCore Hash Sig) :
    Prop where
  delivered : s.delivered p = true
  vheight : s.vheight ≤ config.depth p
  vote_disabled : s.vote_disabled = false
  lock : config.depth s.b_lock ≤ config.depth q
  low : ∀ y, s.delivered y = true → config.depth y ≤ N

/-- The replica once it has voted for the block `x`. -/
structure Stands (config : Config Hash Sig) (leader : ReplicaID) (N : ℕ) (x q : Hash)
    (r : ReplicaID) (s : HotStuffCore Hash Sig) : Prop where
  delivered : s.delivered x = true
  vheight : s.vheight = config.depth x
  vote_disabled : s.vote_disabled = false
  lock : config.depth s.b_lock ≤ config.depth q
  low : ∀ y, s.delivered y = true → config.depth y ≤ N
  votes_sent : x ∈ s.votes_sent
  sent : .do_vote leader ⟨r, x, ⟨x, config.sign r x⟩⟩ ∈ s.out
  decided : ∀ blk, s.committable config x = some blk → s.decision blk = true

/-- The leader has the block `x`, and has sent the proposal. -/
structure Offers (config : Config Hash Sig) (correct : ReplicaID → Prop) (leader : ReplicaID)
    (N : ℕ) (x p q : Hash) (w : World Hash Sig) : Prop where
  block : ∃ b, (w.core leader).storage x = some b ∧ config.get_hash b.toBlockData = x ∧
    b.parent_hashes = [p] ∧ b.qc.obj_hash = q ∧ b.qc.Shown config correct w.votes
  sent : .do_broadcast_proposal ⟨leader, x⟩ ∈ (w.core leader).out
  above : config.Above p q
  rooted : Rooted config correct w.votes q
  depth : config.depth x = config.depth p + 1
  low : config.depth x ≤ N

theorem Offers.later {N : ℕ} {x p q : Hash} (h : Offers config correct leader N x p q w)
    (hl : Later config correct Q leader w w') (hcore : w'.core leader = w.core leader) :
    Offers config correct leader N x p q w' where
  block := by
    obtain ⟨b, hb, hhash, hps, hqc, hshown⟩ := h.block
    exact ⟨b, hcore ▸ hb, hhash, hps, hqc, hshown.mono hl.votes⟩
  sent := hcore ▸ h.sent
  above := h.above
  rooted := h.rooted.mono hl.votes
  depth := h.depth
  low := h.low

omit [DecidableEq Hash] in
theorem short_of_low {r : ReplicaID} {votes : List (ReplicaID × Hash)} {N : ℕ}
    {s : HotStuffCore Hash Sig} (hc : config.CollisionFree) (h : NodeOk config correct r votes s)
    (hlow : ∀ y, s.delivered y = true → config.depth y ≤ N) (hN : N + 1 < 2 ^ 32) : s.Short := by
  intro y hy
  have := hlow y hy
  rw [h.blocks.depth_eq hc hy] at this
  omega

theorem Stands.of_accepted {N : ℕ} {x q : Hash} {r : ReplicaID}
    {votes : List (ReplicaID × Hash)} {s s' : HotStuffCore Hash Sig} (hc : config.CollisionFree)
    (h : NodeOk config correct r votes s) (hlock : s'.delivered s'.b_lock = true)
    (hacc : Accepted config s ⟨leader, x⟩ q s') (hx : s.delivered x = true)
    (hq : s.delivered q = true) (hlow : ∀ y, s.delivered y = true → config.depth y ≤ N) :
    Stands config leader N x q r s' where
  delivered := (hacc.shape x).delivered.trans hx
  vheight := hacc.vheight.trans (h.blocks.depth_eq hc hx).symm
  vote_disabled := hacc.vote_disabled
  lock := by
    rw [(h.blocks.of_sameShape hacc.shape).depth_eq hc hlock, h.blocks.depth_eq hc hq]
    exact hacc.lock
  low y hy := hlow y ((hacc.shape y).delivered.symm.trans hy)
  votes_sent := by simp [hacc.votes_sent]
  sent := h.id ▸ hacc.sent
  decided blk hblk := hacc.decided blk <| by
    rwa [HotStuffCore.committable_of_sameShape config hacc.shape] at hblk

theorem Run.linear (hc : config.CollisionFree) (hi : config.Intersecting correct)
    (hw : Run config correct (Extending config) w) : Linear config correct w.votes := by
  have hok : Ok hc hi w := hw.keeps_ok
  exact hok.linear (hw.ordered fun _ _ _ hw hr he hext => hw.safeCall hc hi hr he hext)

/-- Each stored copy of the block passes the checks before its delivery. -/
theorem Offers.verify {N : ℕ} {x p q : Hash} (hc : config.CollisionFree)
    (hsame : config.SameCertificates) (ho : Offers config correct leader N x p q w)
    {b : Block Hash Sig} (hb : config.get_hash b.toBlockData = x) :
    b.parent_hashes = [p] ∧ b.qc.obj_hash = q ∧ b.verify config = some true := by
  obtain ⟨b0, -, hhash, hps, hqc, hshown⟩ := ho.block
  obtain ⟨hps', hqc'⟩ := hc.content b.toBlockData b0.toBlockData (hb.trans hhash.symm)
  refine ⟨hps'.trans hps, hqc'.trans hqc, ?_⟩
  unfold Block.verify
  split
  · rfl
  · rename_i hne
    rw [hsame b.toBlockData b0.toBlockData (hb.trans hhash.symm)]
    exact hshown.verified.resolve_left fun heq => hne (hqc'.trans heq)

/-- The block arrives at a replica of the quorum, is delivered and voted for. -/
theorem Offers.follow {N : ℕ} {x p q : Hash} (hc : config.CollisionFree)
    (hi : config.Intersecting correct) (hsame : config.SameCertificates) (hN : N + 1 < 2 ^ 32)
    (hw : Run config correct (Extending config) w)
    (ho : Offers config correct leader N x p q w) {r : ReplicaID} (hr : r ∈ Q) (hcr : correct r)
    (hne : r ≠ leader) (hwait : Awaits config N p q (w.core r)) :
    ∃ w', Later config correct Q leader w w' ∧ (∀ r' ≠ r, w'.core r' = w.core r') ∧
      Stands config leader N x q r (w'.core r) := by
  have hok : Ok hc hi w := hw.keeps_ok
  have hn := hok.node r hcr
  obtain ⟨b0, hb0, hhash0, hps0, hqc0, hshown⟩ := ho.block
  have hparent : config.Parent x p := ⟨b0.toBlockData, hhash0, by rw [hps0]; rfl⟩
  have hqcof : config.QcOf x q := ⟨b0.toBlockData, hhash0, hqc0⟩
  have hx0 : x ≠ config.b0 := fun heq => hc.not_parent_b0 (heq ▸ hparent)
  have hleader : ∀ {s : HotStuffCore Hash Sig} {w : World Hash Sig},
      (w.after r s).core leader = w.core leader := fun {s w} =>
    after_core_of_ne w (Ne.symm hne) s
  -- the block arrives
  obtain ⟨sa, b, hcalla, hba, hta⟩ := HotStuffCore.add_blk_takes_in config (w.core r) b0.toBlockData
  rw [hhash0] at hba hta
  have hla : Later config correct Q leader w (w.after r sa) := by
    refine Later.call .refl (.add_blk b0.toBlockData) hcr (short_of_low hc hn hwait.low hN)
      ⟨hshown.parsed, hshown.unforged⟩ trivial ⟨hr, b0, ?_, rfl⟩ hcalla
    rw [hhash0]
    exact hb0
  have hwa := hw.later hla
  have hoka : Ok hc hi (w.after r sa) := hwa.keeps_ok
  have hna := hoka.node r hcr
  rw [after_core_self] at hna
  have hlowa : ∀ y, sa.delivered y = true → config.depth y ≤ N := fun y hy => by
    rcases hta.delivered y hy with hold | rfl
    · exact hwait.low y hold
    · exact ho.low
  have hbhash := (hna.blocks.law x b hx0 hba).hash
  obtain ⟨hps, hqc, hver⟩ := ho.verify hc hsame hbhash
  have hpa := hta.grows.delivered hwait.delivered
  have hqa := (hna.blocks.above_of_above hpa
    (hna.blocks.above_of_content hc hpa ho.above)).2
  have hqstored : (sa.storage b.qc.obj_hash).isSome := by
    obtain ⟨c, hcs, -⟩ := HotStuffCore.exists_of_delivered hqa
    rw [hqc, hcs]
    rfl
  -- it is delivered
  obtain ⟨sb, hcallb, hxb, htb⟩ :=
    HotStuffCore.on_deliver_blk_takes_in config hba hps hpa hqstored
  have hlb : Later config correct Q leader w ((w.after r sa).after r sb) := by
    refine hla.call (.on_deliver_blk x) hcr ?_ ⟨b, ?_, hver, ?_, ?_⟩ ?_ hr (by simpa using hcallb)
    · simpa using short_of_low hc hna hlowa hN
    · simpa using hba
    · simpa using hqstored
    · simpa [hps] using hpa
    · intro c hcs p' hp'
      rw [after_core_self, hba, Option.some.injEq] at hcs
      subst hcs
      rw [hps, List.head?_cons, Option.some.injEq] at hp'
      rw [hqc, ← hp']
      exact ho.above
  have hwb := hw.later hlb
  have hokb : Ok hc hi ((w.after r sa).after r sb) := hwb.keeps_ok
  have hnb := hokb.node r hcr
  have hanch := hwb.anchored hc hi hcr
  rw [after_core_self] at hnb hanch
  have hlowb : ∀ y, sb.delivered y = true → config.depth y ≤ N := fun y hy => by
    rcases htb.delivered y hy with hold | rfl
    · exact hlowa y hold
    · exact ho.low
  have hqb := htb.grows.delivered hqa
  -- it gets a vote
  obtain ⟨s1, hu, -, hvote, hacc⟩ := hnb.accepts hc (hwb.linear hc hi) hanch ⟨leader, x⟩ hxb
    (hnb.blocks.qc_ref_of_qcOf hc hx0 hxb hqcof)
    (hnb.blocks.above_of_content hc hxb (.head hparent ho.above))
    (fun y hy heq => hokb.rooted_unique hy (ho.rooted.mono hlb.votes) heq)
    (by
      rw [htb.vheight, hta.vheight, ← hnb.blocks.depth_eq hc hxb, ho.depth]
      exact Nat.lt_succ_of_le hwait.vheight)
    (htb.vote_disabled.trans (hta.vote_disabled.trans hwait.vote_disabled))
    (by
      rw [← hnb.blocks.depth_eq hc hnb.lock_delivered, ← hnb.blocks.depth_eq hc hqb, htb.b_lock,
        hta.b_lock]
      exact hwait.lock)
  have hself : leader ≠ sb.id := fun heq => hne (hnb.id.symm.trans heq.symm)
  have hcallc : sb.call config (.on_receive_proposal ⟨leader, x⟩) =
      .ok (s1.voted_for config ⟨leader, x⟩) :=
    HotStuffCore.on_receive_proposal_of_accepts hself hxb hu hvote
  have hlc := hlb.call (.on_receive_proposal ⟨leader, x⟩) hcr
    (by simpa using short_of_low hc hnb hlowb hN) ⟨Ne.symm hne, by simpa using hxb⟩ trivial
    ⟨hr, by simpa [hleader] using ho.sent⟩ (by simpa using hcallc)
  have hokc : Ok hc hi _ := (hw.later hlc).keeps_ok
  have hnc := hokc.node r hcr
  refine ⟨_, hlc, fun r' hr' => ?_, ?_⟩
  · rw [after_core_of_ne _ hr', after_core_of_ne _ hr', after_core_of_ne _ hr']
  · rw [after_core_self] at hnc ⊢
    exact .of_accepted hc hnb hnc.lock_delivered hacc hxb hqb hlowb

/-! ## The leader's proposal -/

/-- The leader can go on with a block on `p`, its highest block: its highest certificate is below
`p` and as high as all locks, and no one has voted above `p`. -/
structure Leading (config : Config Hash Sig) (correct : ReplicaID → Prop) (Q : Finset ReplicaID)
    (leader : ReplicaID) (N : ℕ) (p : Hash) (w : World Hash Sig) : Prop where
  awaits : ∀ r ∈ Q, Awaits config N p (w.core leader).hqc.1 (w.core r)
  highest : ∀ x, (w.core leader).delivered x = true → config.depth x ≤ config.depth p
  above : config.Above p (w.core leader).hqc.1
  shown : (w.core leader).hqc.2.Shown config correct w.votes

theorem Stands.broadcast {N : ℕ} {x q : Hash} {r : ReplicaID} {s : HotStuffCore Hash Sig}
    (h : Stands config leader N x q r s) (prop : Proposal Hash) :
    Stands config leader N x q r { s with out := s.out ++ [.do_broadcast_proposal prop] } where
  delivered := h.delivered
  vheight := h.vheight
  vote_disabled := h.vote_disabled
  lock := h.lock
  low := h.low
  votes_sent := by
    rw [HotStuffCore.votes_sent, List.filterMap_append]
    exact List.mem_append_left _ h.votes_sent
  sent := List.mem_append_left _ h.sent
  decided := h.decided

theorem Leading.propose {N : ℕ} {p x : Hash} (hc : config.CollisionFree)
    (hi : config.Intersecting correct) (hsame : config.SameCertificates) (hN : N + 1 < 2 ^ 32)
    (hw : Run config correct (Extending config) w) (hl : leader ∈ Q) (hcl : correct leader)
    (h : Leading config correct Q leader N p w) (hlow : config.depth p < N) (cmds : List Hash)
    (extra : List UInt8)
    (hx : config.get_hash ((w.core leader).proposed cmds [p] extra) = x) :
    ∃ w', Later config correct Q leader w w' ∧ (∀ r ≠ leader, w'.core r = w.core r) ∧
      Offers config correct leader N x p (w.core leader).hqc.1 w' ∧
      Stands config leader (config.depth x) x (w.core leader).hqc.1 leader (w'.core leader) ∧
      Tallied config x (w.core leader).hqc ∅ (w'.core leader) := by
  have hok : Ok hc hi w := hw.keeps_ok
  have hn := hok.node leader hcl
  have hwait := h.awaits leader hl
  have hparent : config.Parent x p := ⟨_, hx, rfl⟩
  have hdepth : config.depth x = config.depth p + 1 := by
    have hp := hn.blocks.depth_of_delivered hwait.delivered
    rw [hc.depth_eq (.next hparent hp), hc.depth_eq hp]
  have hnew : (w.core leader).delivered x = false := by
    rw [← Bool.not_eq_true]
    intro hd
    have := h.highest x hd
    omega
  have hshort := short_of_low hc hn hwait.low hN
  obtain ⟨b, t, s', hoff, h1, hacc, hcall⟩ := hn.proposes hc hshort (hw.linear hc hi)
    (hw.uncounted leader) (hw.anchored hc hi hcl) hwait.delivered cmds extra hx hnew h.above
    (fun y hy heq => hok.rooted_unique hy hn.hqc heq)
    (hn.blocks.depth_eq hc hwait.delivered ▸ hwait.vheight) hwait.vote_disabled
    (by
      rw [← hn.blocks.depth_eq hc hn.lock_delivered, ← hn.blocks.depth_eq hc hn.hqc_delivered]
      exact hwait.lock)
  have hobj := hn.certs.hqc
  have hlater : Later config correct Q leader w _ :=
    Later.call .refl (.on_propose cmds [p] extra) hcl hshort
      (fun y hy => List.mem_singleton.mp hy ▸ hwait.delivered)
      (fun p' hp' => by
        rw [HotStuffCore.proposed, List.head?_cons, Option.some.injEq] at hp'
        rw [← hp', HotStuffCore.proposed, hobj]
        exact h.above) rfl hcall
  have hok' : Ok hc hi _ := (hw.later hlater).keeps_ok
  have hn' := hok'.node leader hcl
  rw [after_core_self] at hn'
  have hblk : HotStuffCore.storage { (w.core leader).put x b with tails := t } x = some b :=
    HotStuffCore.storage_put_self (w.core leader) x b
  have hxd : HotStuffCore.delivered { (w.core leader).put x b with tails := t } x = true :=
    (HotStuffCore.delivered_eq hblk).trans hoff.delivered
  have hqd : HotStuffCore.delivered { (w.core leader).put x b with tails := t }
      (w.core leader).hqc.1 = true := h1.hqc_delivered
  have hlow1 : ∀ y, HotStuffCore.delivered { (w.core leader).put x b with tails := t } y = true →
      config.depth y ≤ config.depth x := by
    intro y hy
    by_cases hyx : y = x
    · rw [hyx]
    · rw [HotStuffCore.delivered] at hy
      rw [HotStuffCore.storage_put_of_ne (w.core leader) b hyx] at hy
      have := h.highest y hy
      omega
  -- the block in its final state
  obtain ⟨b', hb', hsh⟩ := (hacc.shape x).block hblk
  have hdata : b'.toBlockData = b.toBlockData := congrArg (·.toBlockData) hsh
  obtain ⟨b1, hb1, hself, hvoted⟩ := hacc.votes.block hb'
  rw [hblk, Option.some.injEq] at hb1
  subst hb1
  have hcontent := hc.content b.toBlockData ((w.core leader).proposed cmds [p] extra)
    (hoff.hash.trans hx.symm)
  have hshown : b'.qc.Shown config correct w.votes := by
    have hqc : b'.qc = b.qc := congrArg (·.qc) hdata
    have hver := hsame b.toBlockData ((w.core leader).proposed cmds [p] extra)
      (hoff.hash.trans hx.symm)
    rw [hqc]
    refine ⟨?_, ?_, ?_⟩
    · rcases hoff.origin with heq | ⟨hp, -⟩
      · exact (congrArg (·.qc) heq : b.qc = (w.core leader).hqc.2) ▸ h.shown.parsed
      · exact hp
    · rcases hoff.origin with heq | ⟨-, hu⟩
      · exact (congrArg (·.qc) heq : b.qc = (w.core leader).hqc.2) ▸ h.shown.unforged
      · exact hu
    · rw [hver, hcontent.2]
      exact h.shown.verified
  refine ⟨_, hlater, fun r hr => after_core_of_ne w hr _, ⟨⟨b', ?_, hdata ▸ hoff.hash,
    hdata ▸ hcontent.1, ?_, hshown.mono hlater.votes⟩, ?_, h.above, hn.hqc.mono hlater.votes,
    hdepth, hdepth ▸ hlow⟩, ?_, ?_⟩
  · simpa using hb'
  · rw [hdata, hcontent.2]
    exact hobj
  · simp [hn.id]
  · rw [after_core_self]
    have hlockd : s'.delivered s'.b_lock = true := hn'.lock_delivered
    rw [hn.id] at hacc ⊢
    exact (Stands.of_accepted hc h1 hlockd hacc hxd hqd hlow1).broadcast _
  · rw [after_core_self]
    refine .collecting b' hb' ((congrArg (·.delivered) hsh).trans hoff.delivered)
      (hvoted.trans hoff.voted) ?_ (fun qc hqc => ?_) ?_ (hacc.hqc le_rfl)
    · rw [Records, hself, hoff.self_qc, hvoted, hoff.voted]
      exact QuorumCert.create_quorum_cert_collects config x
    · rw [hself, hoff.self_qc, Option.mem_some_iff] at hqc
      rw [← hqc]
      simp [HotStuffCore.Marked, QuorumCert.create_quorum_cert, QuorumCert.signers]
    · -- the empty set has no correct replica in common with itself
      rw [← Bool.not_eq_true]
      intro hq
      obtain ⟨i, hi', -⟩ := hi ∅ ∅ ⟨by simp, hq⟩ ⟨by simp, hq⟩
      cases hi'

/-! ## The votes of the quorum -/

/-- The block reaches the other replicas of the quorum one after the other. -/
theorem Offers.spread {N : ℕ} {x p q : Hash} (hc : config.CollisionFree)
    (hi : config.Intersecting correct) (hsame : config.SameCertificates) (hN : N + 1 < 2 ^ 32)
    (hw : Run config correct (Extending config) w)
    (ho : Offers config correct leader N x p q w) (hcor : ∀ r ∈ Q, correct r)
    (hall : ∀ r ∈ Q, r ≠ leader → Awaits config N p q (w.core r)) :
    ∃ w', Later config correct Q leader w w' ∧ w'.core leader = w.core leader ∧
      ∀ r ∈ Q, r ≠ leader → Stands config leader N x q r (w'.core r) := by
  have hmem : ∀ r, r ∈ (Q.erase leader).toList ↔ r ≠ leader ∧ r ∈ Q := by simp
  have heach : ∃ w', Later config correct Q leader w w' ∧
      (Later config correct Q leader w w' ∧ w'.core leader = w.core leader) ∧ _ :=
    transitions.Runs.each
      (fun u => Later config correct Q leader w u ∧ u.core leader = w.core leader)
      (fun r u => Awaits config N p q (u.core r))
      (fun r u => Stands config leader N x q r (u.core r))
      (Q.erase leader).nodup_toList (fun r hr u ⟨hu, hcore⟩ hwait => by
        obtain ⟨hne, hrQ⟩ := (hmem r).mp hr
        obtain ⟨u', hu', hsame', hstands⟩ := (ho.later hu hcore).follow hc hi hsame hN
          (hw.later hu) hrQ (hcor r hrQ) hne hwait
        refine ⟨u', hu', ⟨hu.trans hu', (hsame' leader (Ne.symm hne)).trans hcore⟩, hstands,
          fun j hj => ?_⟩
        rw [hsame' j hj]
        exact ⟨id, id⟩)
      ⟨.refl, rfl⟩ fun r hr => hall r ((hmem r).mp hr).2 ((hmem r).mp hr).1
  obtain ⟨w', hl, ⟨-, hcore⟩, hdone, -⟩ := heach
  exact ⟨w', hl, hcore, fun r hr hne => hdone r ((hmem r).mpr ⟨hne, hr⟩)⟩

/-- A replica that counts a vote stays where it stands. -/
theorem Stands.on_receive_vote {N : ℕ} {x q : Hash} {r : ReplicaID} {s s' : HotStuffCore Hash Sig}
    (h : Stands config leader N x q r s) {vote : Vote Hash Sig}
    (hs : s.call config (.on_receive_vote vote) = .ok s') :
    Stands config leader N x q r s' := by
  have hleave : (s.on_receive_vote config vote).state? = some s' :=
    congrArg Outcome.state? hs
  have hshape := HotStuffCore.on_receive_vote_sameShape config s vote s' hleave
  obtain ⟨hv, hdis, hlock⟩ := HotStuffCore.on_receive_vote_keeps config s vote s' hleave
  have hquiet := HotStuffCore.on_receive_vote_quiet config s vote s' hleave
  obtain ⟨more, hout, -⟩ := hquiet.out
  exact {
    delivered := (hshape x).delivered.trans h.delivered
    vheight := hv.trans h.vheight
    vote_disabled := hdis.trans h.vote_disabled
    lock := hlock ▸ h.lock
    low := fun y hy => h.low y ((hshape y).delivered.symm.trans hy)
    votes_sent := by
      rw [HotStuffCore.votes_sent, hout, List.filterMap_append]
      exact List.mem_append_left _ h.votes_sent
    sent := hout ▸ List.mem_append_left _ h.sent
    decided := fun blk hblk => by
      rw [hquiet.decision]
      exact h.decided blk (by rwa [HotStuffCore.committable_of_sameShape config hshape] at hblk) }

/-- The leader counts the votes one after the other. -/
theorem Stands.collect {N M : ℕ} {x q : Hash} (hc : config.CollisionFree)
    (hi : config.Intersecting correct) (hsig : config.Signs) (hN : N + 1 < 2 ^ 32) (hMN : M ≤ N)
    (hQ : config.Quorum Q) (hcl : correct leader) {hqc : Hash × QuorumCert Hash Sig}
    (hlow : config.depth hqc.1 < config.depth x) {rs : List ReplicaID} (hrs : rs.Nodup)
    (hsub : ∀ r ∈ rs, r ∈ Q) {voters : Finset ReplicaID} (hnew : ∀ r ∈ rs, r ∉ voters)
    (hw : Run config correct (Extending config) w)
    (hown : Stands config leader M x q leader (w.core leader))
    (hall : ∀ r ∈ Q, r ≠ leader → Stands config leader N x q r (w.core r))
    (htally : Tallied config x hqc voters (w.core leader)) :
    ∃ w', Later config correct Q leader w w' ∧ (∀ r ≠ leader, w'.core r = w.core r) ∧
      Stands config leader M x q leader (w'.core leader) ∧
      Tallied config x hqc (voters ∪ rs.toFinset) (w'.core leader) := by
  induction rs generalizing w voters with
  | nil => exact ⟨w, .refl, fun _ _ => rfl, hown, by simpa using htally⟩
  | cons r rs ih =>
    rw [List.nodup_cons] at hrs
    have hok : Ok hc hi w := hw.keeps_ok
    have hn := hok.node leader hcl
    have hrQ := hsub r List.mem_cons_self
    have hsent : x ∈ (w.core r).votes_sent ∧
        .do_vote leader ⟨r, x, ⟨x, config.sign r x⟩⟩ ∈ (w.core r).out := by
      by_cases heq : r = leader
      · rw [heq]
        exact ⟨hown.votes_sent, hown.sent⟩
      · exact ⟨(hall r hrQ heq).votes_sent, (hall r hrQ heq).sent⟩
    have hheight : (w.core leader).height hqc.1 < (w.core leader).height x := by
      rw [← hn.blocks.depth_eq hc hown.delivered]
      rcases Nat.eq_zero_or_pos ((w.core leader).height hqc.1) with hz | hpos
      · omega
      · rwa [← hn.blocks.depth_eq hc (hn.delivered_of_height hpos)]
    have hver : HotStuffCore.Verified config ⟨r, x, ⟨x, config.sign r x⟩⟩ :=
      ⟨hQ.1 r hrQ, rfl, hsig.sign r (hQ.1 r hrQ) x⟩
    obtain ⟨s', hcall, htally'⟩ := htally.on_receive_vote hheight hver rfl
      (hnew r List.mem_cons_self)
    have hlater : Later config correct Q leader w _ := Later.call .refl
      (.on_receive_vote ⟨r, x, ⟨x, config.sign r x⟩⟩) hcl
      (short_of_low hc hn (fun y hy => (hown.low y hy).trans hMN) hN)
      ⟨hver, fun _ => (hw.mem_votes r x).mpr hsent.1⟩ trivial ⟨rfl, hrQ, hsent.2⟩ hcall
    obtain ⟨w', hl', hcore, hstands, hdone⟩ := ih hrs.2
      (fun r' hr' => hsub r' (List.mem_cons_of_mem _ hr'))
      (fun r' hr' hmem => by
        rcases Finset.mem_insert.mp hmem with rfl | hmem
        · exact hrs.1 hr'
        · exact hnew r' (List.mem_cons_of_mem _ hr') hmem)
      (hw.later hlater) (by simpa using hown.on_receive_vote hcall)
      (fun r' hr' hne => by simpa [after_core_of_ne w hne] using hall r' hr' hne)
      (by simpa using htally')
    refine ⟨w', hlater.trans hl', fun r' hne => ?_, hstands, ?_⟩
    · rw [hcore r' hne, after_core_of_ne w hne]
    · rwa [List.toFinset_cons, Finset.union_insert, ← Finset.insert_union]

/-! ## Rounds -/

/-- A block of the leader reaches the quorum, is voted for, and carries the next certificate. -/
theorem Leading.round {N : ℕ} {p x : Hash} (hc : config.CollisionFree)
    (hi : config.Intersecting correct) (hsame : config.SameCertificates) (hsig : config.Signs)
    (hN : N + 1 < 2 ^ 32) (hQ : config.Quorum Q) (hcor : ∀ r ∈ Q, correct r) (hl : leader ∈ Q)
    (hw : Run config correct (Extending config) w)
    (h : Leading config correct Q leader N p w) (hlow : config.depth p < N) (cmds : List Hash)
    (extra : List UInt8)
    (hx : config.get_hash ((w.core leader).proposed cmds [p] extra) = x) :
    ∃ w', Later config correct Q leader w w' ∧ Leading config correct Q leader N x w' ∧
      (w'.core leader).hqc.1 = x ∧ config.depth x = config.depth p + 1 ∧
      ∀ r ∈ Q, ∀ blk, (w'.core r).committable config x = some blk →
        (w'.core r).decision blk = true := by
  have hcl := hcor leader hl
  have hok : Ok hc hi w := hw.keeps_ok
  have hn := hok.node leader hcl
  obtain ⟨w1, hl1, hsame1, ho, hown1, htally1⟩ :=
    h.propose hc hi hsame hN hw hl hcl hlow cmds extra hx
  obtain ⟨w2, hl2, hsame2, hall2⟩ := ho.spread hc hi hsame hN (hw.later hl1) hcor
    fun r hr hne => hsame1 r hne ▸ h.awaits r hr
  have hqp : config.depth (w.core leader).hqc.1 ≤ config.depth p := by
    have hp := hn.blocks.depth_of_delivered (h.awaits leader hl).delivered
    obtain ⟨n, hq, hle, -⟩ := hc.depth_of_above h.above hp
    rw [hc.depth_eq hp, hc.depth_eq hq]
    exact hle
  have hqx : config.depth (w.core leader).hqc.1 < config.depth x := by
    rw [ho.depth]
    omega
  have hw2 := (hw.later hl1).later hl2
  obtain ⟨w3, hl3, hsame3, hown3, htally3⟩ := Stands.collect hc hi hsig hN ho.low hQ hcl hqx
    Q.nodup_toList (fun r hr => Finset.mem_toList.mp hr) (fun r _ => Finset.notMem_empty r) hw2
    (hsame2 ▸ hown1) hall2 (hsame2 ▸ htally1)
  rw [Finset.toList_toFinset, Finset.empty_union] at htally3
  have hw3 := hw2.later hl3
  have hall3 : ∀ r ∈ Q, Stands config leader N x (w.core leader).hqc.1 r (w3.core r) := by
    intro r hr
    by_cases hne : r = leader
    · rw [hne]
      exact { hown3 with low := fun y hy => (hown3.low y hy).trans ho.low }
    · rw [hsame3 r hne]
      exact hall2 r hr hne
  have hvotes : ∀ r ∈ Q, (r, x) ∈ w3.votes := fun r hr =>
    (hw3.mem_votes r x).mpr (hall3 r hr).votes_sent
  cases htally3 with
  | collecting b hb hd hv hr hm hq hhqc =>
    rw [hQ.2] at hq
    cases hq
  | computed b hb hd hq qc P hsub hP hcol hm hhqc =>
    have hhqc1 : (w3.core leader).hqc.1 = x := congrArg Prod.fst hhqc
    refine ⟨w3, (hl1.trans hl2).trans hl3, ⟨fun r hr => ?_, hown3.low, ?_, ?_⟩, hhqc1, ho.depth,
      fun r hr => (hall3 r hr).decided⟩
    · have hst := hall3 r hr
      rw [hhqc1]
      exact ⟨hst.delivered, hst.vheight.le, hst.vote_disabled, hst.lock.trans hqx.le, hst.low⟩
    · rw [hhqc1]
      exact .refl
    · rw [hhqc]
      exact hcol.shown hsig hQ hm hP hsub hvotes

end World

end general_hotstuff
