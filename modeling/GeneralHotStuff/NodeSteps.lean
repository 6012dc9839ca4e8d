-- What one call does to a correct replica: it keeps the invariant, and it sends at most
-- one vote, for a block higher than all that it has voted for.
import GeneralHotStuff.NodeInvariant

namespace general_hotstuff

open quorums (ReplicaID)

namespace HotStuffCore

variable {Hash Sig : Type} {config : Config Hash Sig} {correct : ReplicaID → Prop} {r : ReplicaID}
  {votes : List (ReplicaID × Hash)} {s s' : HotStuffCore Hash Sig}

/-! ## update -/

/-- What `update` leaves alone, and the lock, which it may raise. -/
structure Updated (s s' : HotStuffCore Hash Sig) : Prop where
  shape : SameShape s s'
  id : s'.id = s.id
  vheight : s'.vheight = s.vheight
  vote_disabled : s'.vote_disabled = s.vote_disabled
  votes_sent : s'.votes_sent = s.votes_sent
  lock : s.height s.b_lock ≤ s'.height s'.b_lock

theorem Updated.trans {s'' : HotStuffCore Hash Sig} (h : Updated s s') (h' : Updated s' s'') :
    Updated s s'' where
  shape := h.shape.trans h'.shape
  id := h'.id.trans h.id
  vheight := h'.vheight.trans h.vheight
  vote_disabled := h'.vote_disabled.trans h.vote_disabled
  votes_sent := h'.votes_sent.trans h.votes_sent
  lock := h.lock.trans h'.lock

theorem Updated.refl (s : HotStuffCore Hash Sig) : Updated s s :=
  ⟨SameShape.refl s, rfl, rfl, rfl, rfl, le_rfl⟩

/-- The lock is as high as all that a vote for `x` would guard. -/
def Ready (config : Config Hash Sig) (s : HotStuffCore Hash Sig) (x : Hash) : Prop :=
  ∀ b, Guards config x b → config.depth b ≤ s.height s.b_lock

theorem Ready.updated {x : Hash} (h : Ready config s x) (hu : Updated s s') : Ready config s' x :=
  fun b hb => (h b hb).trans hu.lock

theorem StoredOk.of_same (h : StoredOk config correct votes s) (hs : SameShape s s')
    (hv : SameVotes s s') : StoredOk config correct votes s' where
  waiting x b' hb' hd := by
    obtain ⟨b, hb, hsh⟩ := (hs.symm x).block hb'
    have hw := h.waiting x b hb ((congrArg (·.delivered) hsh).trans hd)
    have hqc : b.qc = b'.qc := congrArg (·.qc) hsh
    exact ⟨(congrArg (·.parents) hsh).symm.trans hw.parents,
      (congrArg (·.qc_ref) hsh).symm.trans hw.qc_ref,
      (congrArg (·.height) hsh).symm.trans hw.height, hqc ▸ hw.parsed, hqc ▸ hw.unforged⟩
  rooted x b' hb' hd := by
    obtain ⟨b, hb, hsh⟩ := (hs.symm x).block hb'
    have hqc : b.qc = b'.qc := congrArg (·.qc) hsh
    exact hqc ▸ h.rooted x b hb ((congrArg (·.delivered) hsh).trans hd)
  voted x b' hx hb' i hi := by
    obtain ⟨b, hb, -, hvoted⟩ := hv.block hb'
    exact h.voted x b hx hb i (hvoted ▸ hi)

theorem exists_of_lock_ref {nblk q : Hash} (hq : s.lock_ref config nblk = some q) :
    ∃ y, s.undecided_ref y = some q := by
  unfold lock_ref at hq
  split at hq
  · exact ⟨nblk, hq⟩
  · obtain ⟨y, -, hy⟩ := Option.bind_eq_some_iff.mp hq
    exact ⟨y, hy⟩

theorem NodeOk.touched (h : NodeOk config correct r votes s) {nblk : Hash} {b : Block Hash Sig}
    (hb : s.storage nblk = some b) (hd : b.delivered = true) :
    NodeOk config correct r votes (s.touched config nblk b) where
  blocks := h.blocks.of_sameShape (SameShape.of_storage_eq (s := s) rfl)
  certs := h.certs.touched h.blocks hb hd
  log := h.log.quiet h.blocks.grounded
    (.of_storage_eq rfl rfl rfl ⟨[], by simp [HotStuffCore.touched], by simp⟩)
  stored := ⟨h.stored.waiting, h.stored.rooted, h.stored.voted⟩
  id := h.id
  hqc_delivered := by
    rcases s.touched_hqc config nblk b with heq | ⟨q, -, heq, hlt⟩
    · rw [heq]
      exact h.hqc_delivered
    · rw [heq]
      exact h.delivered_of_height (Nat.zero_lt_of_lt hlt)
  hqc := by
    rcases s.touched_hqc config nblk b with heq | ⟨q, hu, heq, -⟩
    · rw [heq]
      exact h.hqc
    · rw [heq]
      exact h.rooted_of_qc_ref (undecided_ref_eq_some.mp hu).1
  lock_delivered := by
    rcases s.touched_b_lock config nblk b with heq | ⟨q, -, heq, hlt⟩
    · rw [heq]
      exact h.lock_delivered
    · rw [heq]
      exact h.delivered_of_height (Nat.zero_lt_of_lt hlt)
  lock := by
    rcases s.touched_b_lock config nblk b with heq | ⟨q, hq, heq, -⟩
    · rw [heq]
      exact h.lock
    · obtain ⟨y, hy⟩ := exists_of_lock_ref hq
      rw [heq]
      exact h.rooted_of_qc_ref (undecided_ref_eq_some.mp hy).1
  exec := h.exec.trans (s.b_lock_le_touched config nblk b)
  cast := h.cast
  guard g x hg hgx := (h.guard g x hg hgx).trans (s.b_lock_le_touched config nblk b)
  secured := h.secured

theorem updated_touched (config : Config Hash Sig) (s : HotStuffCore Hash Sig) (nblk : Hash)
    (b : Block Hash Sig) : Updated s (s.touched config nblk b) where
  shape := SameShape.of_storage_eq rfl
  id := rfl
  vheight := rfl
  vote_disabled := rfl
  votes_sent := rfl
  lock := s.b_lock_le_touched config nblk b

/-- A guarded block is decided, or `update` goes on up to it. -/
theorem NodeOk.ready_touched (hc : config.CollisionFree) (h : NodeOk config correct r votes s)
    {nblk : Hash} (b : Block Hash Sig) (hd : s.delivered nblk = true) :
    Ready config (s.touched config nblk b) nblk := by
  have hdecided : ∀ x, s.decision x = true →
      s.height x ≤ s.height (s.touched config nblk b).b_lock := fun x hx =>
    ((h.log.decided_le h.blocks hx).trans h.exec).trans (s.b_lock_le_touched config nblk b)
  have hund : ∀ x y, s.qc_ref x = some y → ¬ s.decision y = true → s.undecided_ref x = some y :=
    fun x y hq hy => undecided_ref_eq_some.mpr ⟨hq, by simpa using hy⟩
  intro x hx
  cases htwo : config.two_step with
  | true =>
    rw [Guards, if_pos htwo] at hx
    obtain ⟨hq, hxd, -⟩ := h.blocks.child hc hd hx.1 hx.2
    rw [h.blocks.depth_eq hc hxd]
    by_cases hdec : s.decision x = true
    · exact hdecided x hdec
    · refine lock_ref_le_touched b ?_
      rw [lock_ref, if_pos htwo, hund nblk x hq hdec]
  | false =>
    rw [Guards, if_neg (by simp [htwo])] at hx
    obtain ⟨b1, hq1, hp1, hq, hp⟩ := hx
    obtain ⟨hq1, hd1, -⟩ := h.blocks.child hc hd hq1 hp1
    obtain ⟨hq, hxd, hheight⟩ := h.blocks.child hc hd1 hq hp
    rw [h.blocks.depth_eq hc hxd]
    by_cases hdec1 : s.decision b1 = true
    · exact (Nat.le_of_lt (by omega)).trans (hdecided b1 hdec1)
    by_cases hdec : s.decision x = true
    · exact hdecided x hdec
    · refine lock_ref_le_touched b ?_
      rw [lock_ref, if_neg (by simp [htwo]), hund nblk b1 hq1 hdec1, Option.bind_some,
        hund b1 x hq hdec]

/-- An undecided block is not genesis, so its certificate is genuine. -/
theorem NodeOk.certified_of_undecided (h : NodeOk config correct r votes s) {x q : Hash}
    (hu : s.undecided_ref x = some q) : q ≠ config.b0 ∧ Certified config correct votes q := by
  obtain ⟨hq, hdec⟩ := undecided_ref_eq_some.mp hu
  have hne : q ≠ config.b0 := by
    intro heq
    rw [(h.log.decided q).mpr (.inl heq)] at hdec
    cases hdec
  exact ⟨hne, (h.rooted_of_qc_ref hq).resolve_left hne⟩

/-- What `update` commits is guarded by the certified block that it starts from. -/
theorem NodeOk.guarded_of_commits (h : NodeOk config correct r votes s) {nblk blk1 blk : Hash}
    (hcom : Commits config s nblk blk1 blk) :
    ∃ g, Certified config correct votes g ∧ Guards config g blk := by
  have hlink : ∀ x q, x ≠ config.b0 → s.undecided_ref x = some q →
      (s.parents x).head? = some q → config.QcOf x q ∧ config.Parent x q := by
    intro x q hx hu hp
    have hxd := h.delivered_of_parents hp
    exact ⟨h.blocks.qcOf_of_delivered hx hxd (undecided_ref_eq_some.mp hu).1,
      h.blocks.parent_of_delivered hxd hp⟩
  obtain ⟨y, hy⟩ := exists_of_lock_ref hcom.lock_ref
  obtain ⟨hne1, hcert1⟩ := h.certified_of_undecided hy
  have hlink1 := hlink blk1 blk hne1 hcom.undecided_ref hcom.parent
  cases htwo : config.two_step with
  | true => exact ⟨blk1, hcert1, by rw [Guards, if_pos htwo]; exact hlink1⟩
  | false =>
    obtain ⟨blk2, hu2, hu1, hp2⟩ := hcom.three_step htwo
    obtain ⟨hne2, hcert2⟩ := h.certified_of_undecided hu2
    have hlink2 := hlink blk2 blk1 hne2 hu1 hp2
    refine ⟨blk2, hcert2, ?_⟩
    rw [Guards, if_neg (by simp [htwo])]
    exact ⟨blk1, hlink2.1, hlink2.2, hlink1.1, hlink1.2⟩

theorem votes_sent_append {more : List (Output Hash Sig)} (h : s'.out = s.out ++ more)
    (hmore : ∀ o ∈ more, o.voted = none) : s'.votes_sent = s.votes_sent := by
  rw [votes_sent, h, List.filterMap_append, List.filterMap_eq_nil_iff.mpr hmore, List.append_nil,
    votes_sent]

theorem voted_commit_outputs (s : HotStuffCore Hash Sig) (blks : List Hash) :
    ∀ o ∈ blks.flatMap s.commit_outputs, o.voted = none := by
  intro o ho
  obtain ⟨blk, -, ho⟩ := List.mem_flatMap.mp ho
  rcases List.mem_cons.mp ho with rfl | ho
  · rfl
  · obtain ⟨_, -, rfl⟩ := List.mem_map.mp ho
    rfl

variable [DecidableEq Hash]

theorem NodeOk.commit (h : NodeOk config correct r votes s) {blk1 blk : Hash}
    (hp : (s.parents blk1).head? = some blk) (hlock : s.height blk1 ≤ s.height s.b_lock)
    (hg : ∃ g, Certified config correct votes g ∧ Guards config g blk) :
    (s.commit blk).Leaves fun s' => NodeOk config correct r votes s' ∧ Updated s s' := by
  have hblk := h.blocks.parent_delivered hp
  have hlog := h.log.commit h.blocks.grounded hblk
  have hvotes := commit_keeps_votes s blk
  rcases commit_cases s blk with ⟨-, hcom⟩ | hcom | ⟨passed, hw, hcom⟩
  · exact hcom ▸ Outcome.leaves_undefined
  · exact hcom ▸ Outcome.leaves_throw.mpr ⟨h, Updated.refl s⟩
  rw [hcom, Outcome.leaves_ok] at hlog hvotes ⊢
  obtain ⟨hhead, hchain, -, -⟩ := walk_spec hw
  have hqueue : ∀ x ∈ passed.reverse, s.delivered x = true := fun x hx =>
    walk_delivered h.blocks.parent_delivered hblk hhead hchain x
      (List.mem_append_left _ (List.mem_reverse.mp hx))
  have hdone := committed_of_foldl s blk hqueue
  generalize { passed.reverse.foldl commit_one s with b_exec := blk } = s' at hlog hvotes hdone ⊢
  obtain ⟨storage, out, hframe⟩ := hdone.frame
  have hsh := hdone.shape
  have hsent := votes_sent_append hdone.out (voted_commit_outputs s _)
  have hheight := h.blocks.height_parent (h.delivered_of_parents hp) hp
  have hexec : s.height blk ≤ s.height s.b_lock := by omega
  refine ⟨⟨h.blocks.of_sameShape hsh, h.certs.frame hsh.grows hvotes.1 hvotes.2, hlog,
    h.stored.of_same hsh hvotes.2, ?_, ?_, ?_, ?_, ?_, ?_, ?_, ?_, ?_⟩,
    ⟨hsh, ?_, ?_, ?_, hsent, ?_⟩⟩
  · rw [hframe]
    exact h.id
  · rw [hvotes.1, (hsh _).delivered]
    exact h.hqc_delivered
  · rw [hvotes.1]
    exact h.hqc
  · rw [(hsh _).delivered, hframe]
    exact h.lock_delivered
  · rw [hframe]
    exact h.lock
  · rw [(hsh _).height, (hsh _).height, hframe]
    exact hexec
  · intro x hx
    rw [(hsh x).delivered, (hsh x).height, hframe]
    exact h.cast x hx
  · intro g x hgv hgx
    rw [(hsh _).height, hframe]
    exact h.guard g x hgv hgx
  · rw [hframe]
    exact .inr hg
  · rw [hframe]
  · rw [hframe]
  · rw [hframe]
  · rw [(hsh _).height, hframe]

theorem NodeOk.update (hc : config.CollisionFree) (h : NodeOk config correct r votes s)
    {nblk : Hash} (hd : s.delivered nblk = true) :
    (s.update config nblk).Leaves fun s' =>
      NodeOk config correct r votes s' ∧ Updated s s' ∧ Ready config s' nblk := by
  obtain ⟨b, hb, hbd⟩ := exists_of_delivered hd
  have ht := h.touched hb hbd
  have hut := updated_touched config s nblk b
  have hready := h.ready_touched hc b hd
  rcases update_cases config hb with hu | ⟨-, hu⟩ | ⟨blk1, blk, hcom, hu⟩
  · exact hu ▸ Outcome.leaves_ok.mpr ⟨ht, hut, hready⟩
  · exact hu ▸ Outcome.leaves_undefined
  · have hlock : s.height blk1 ≤ s.height (s.touched config nblk b).b_lock :=
      lock_ref_le_touched b hcom.lock_ref
    rw [hu]
    exact (ht.commit hcom.parent hlock (h.guarded_of_commits hcom)).mono fun s' hs =>
      ⟨hs.1, hut.trans hs.2, hready.updated hs.2⟩

/-! ## Votes -/

/-- The vote for a block with first parent `p` and a certificate on `q` keeps to the lock: the
replica does not send it, or not by the liveness condition, or the block extends the certified
block or the lock. -/
def SafeVote (s : HotStuffCore Hash Sig) (p q : Hash) : Prop :=
  s.vote_disabled = true ∨ s.height p + 1 ≤ s.vheight ∨ s.height q ≤ s.height s.b_lock ∨
    s.above p q ∨ s.above p s.b_lock

/-- After a call the replica has sent no vote, or one for `x`, which is higher than the others and
has its certificate on a block that was certified before. -/
inductive Casts (config : Config Hash Sig) (correct : ReplicaID → Prop) (r : ReplicaID)
    (votes : List (ReplicaID × Hash)) (order : Hash → Prop) (s s' : HotStuffCore Hash Sig) :
    Prop where
  | none (hs : s'.votes_sent = s.votes_sent) (h : NodeOk config correct r votes s')
  | vote (x : Hash) (hs : s'.votes_sent = s.votes_sent ++ [x])
      (h : NodeOk config correct r ((r, x) :: votes) s')
      (hrise : ∀ y, (r, y) ∈ votes → config.depth y < config.depth x)
      (hcause : ∀ q, config.QcOf x q → Rooted config correct votes q) (ho : order x)

omit [DecidableEq Hash] in
theorem Casts.of_votes_sent {order : Hash → Prop} {s0 : HotStuffCore Hash Sig}
    (h : Casts config correct r votes order s s') (hs : s.votes_sent = s0.votes_sent) :
    Casts config correct r votes order s0 s' := by
  cases h with
  | none hs' h => exact .none (hs'.trans hs) h
  | vote x hs' h hrise hcause ho => exact .vote x (by rw [hs', hs]) h hrise hcause ho

omit [DecidableEq Hash] in
theorem NodeOk.out (h : NodeOk config correct r votes s) (more : List (Output Hash Sig))
    (hmore : ∀ o ∈ more, o.isCommit = false) :
    NodeOk config correct r votes { s with out := s.out ++ more } :=
  h.frame (h.blocks.of_sameShape (SameShape.of_storage_eq (s := s) rfl))
    ⟨h.certs.hqc, h.certs.stored, h.certs.self_qc⟩
    (h.log.quiet h.blocks.grounded (.of_storage_eq rfl rfl rfl ⟨more, rfl, hmore⟩))
    (Grows.refl s) rfl rfl rfl
    le_rfl h.hqc_delivered h.hqc ⟨h.stored.waiting, h.stored.rooted, h.stored.voted⟩

omit [DecidableEq Hash] in
/-- The proposal that goes out after the vote. -/
theorem Casts.broadcast {order : Hash → Prop} (h : Casts config correct r votes order s s')
    (prop : Proposal Hash) : Casts config correct r votes order s
      { s' with out := s'.out ++ [.do_broadcast_proposal prop] } := by
  have hsent : HotStuffCore.votes_sent { s' with out := s'.out ++ [.do_broadcast_proposal prop] } =
      s'.votes_sent := votes_sent_append rfl (by simp [Output.voted])
  cases h with
  | none hs h =>
    exact .none (hsent.trans hs) (h.out [.do_broadcast_proposal prop] (by simp [Output.isCommit]))
  | vote x hs h hrise hcause ho =>
    exact .vote x (hsent.trans hs)
      (h.out [.do_broadcast_proposal prop] (by simp [Output.isCommit])) hrise hcause ho

omit [DecidableEq Hash] in
theorem voted_vote (s : HotStuffCore Hash Sig) (prop : Proposal Hash) :
    ∀ o ∈ (if s.vote_disabled then [] else [Output.do_vote prop.proposer
      ⟨s.id, prop.blk, ⟨prop.blk, config.sign s.id prop.blk⟩⟩]), o.isCommit = false := by
  intro o ho
  split at ho
  · cases ho
  · rw [List.mem_singleton.mp ho]
    rfl

omit [DecidableEq Hash] in
/-- The replica raises `vheight` and keeps its vote to itself. -/
theorem NodeOk.raise_vheight (h : NodeOk config correct r votes s) (prop : Proposal Hash)
    (hv : s.vheight ≤ s.height prop.blk) :
    NodeOk config correct r votes (s.voted_for config prop) :=
  h.frame (h.blocks.of_sameShape (SameShape.of_storage_eq (s := s) rfl))
    ⟨h.certs.hqc, h.certs.stored, h.certs.self_qc⟩
    (h.log.quiet h.blocks.grounded (.of_storage_eq rfl rfl rfl ⟨_, rfl, voted_vote s prop⟩))
    (Grows.refl s) rfl rfl rfl hv h.hqc_delivered h.hqc
    ⟨h.stored.waiting, h.stored.rooted, h.stored.voted⟩

omit [DecidableEq Hash] in
/-- The vote joins the votes in the world. -/
theorem NodeOk.vote (h : NodeOk config correct r votes s) {x : Hash} (hx : s.delivered x = true)
    (hle : s.height x ≤ s.vheight) (hready : Ready config s x) :
    NodeOk config correct r ((r, x) :: votes) s where
  blocks := h.blocks
  certs := h.certs
  log := h.log
  stored := h.stored.mono fun _ => List.mem_cons_of_mem _
  id := h.id
  hqc_delivered := h.hqc_delivered
  hqc := h.hqc.mono fun _ => List.mem_cons_of_mem _
  lock_delivered := h.lock_delivered
  lock := h.lock.mono fun _ => List.mem_cons_of_mem _
  exec := h.exec
  cast y hy := by
    rcases List.mem_cons.mp hy with heq | hy
    · rw [(Prod.mk.inj heq).2]
      exact ⟨hx, hle⟩
    · exact h.cast y hy
  guard g b hg hgb := by
    rcases List.mem_cons.mp hg with heq | hg
    · rw [(Prod.mk.inj heq).2] at hgb
      exact hready b hgb
    · exact h.guard g b hg hgb
  secured := h.secured.mono fun _ => List.mem_cons_of_mem _

theorem NodeOk.vote_on (hc : config.CollisionFree) (h : NodeOk config correct r votes s)
    {prop : Proposal Hash} {order : Hash → Prop} (hx : s.delivered prop.blk = true)
    (hready : Ready config s prop.blk)
    (horder : s.opinion prop.blk = some true → s.vote_disabled = false → order prop.blk) :
    (s.vote_on config prop).Leaves (Casts config correct r votes order s) := by
  rcases vote_on_cases config prop s with ⟨-, ho⟩ | ho | ⟨hop, ho⟩
  · exact ho ▸ Outcome.leaves_undefined
  · exact ho ▸ Outcome.leaves_ok.mpr (.none rfl h)
  rw [ho, Outcome.leaves_ok]
  have hlt := (opinion_eq_true hop).1
  have hraise := h.raise_vheight prop hlt.le
  cases hd : s.vote_disabled with
  | true => exact .none (by simp [votes_sent, voted_for, hd]) hraise
  | false =>
    have hsent : (s.voted_for config prop).votes_sent = s.votes_sent ++ [prop.blk] := by
      simp [votes_sent, voted_for, hd, Output.voted]
    have hne : prop.blk ≠ config.b0 := fun heq => by
      rw [heq, h.blocks.b0_height] at hlt
      exact absurd hlt (Nat.not_lt_zero _)
    refine .vote prop.blk hsent (hraise.vote hx le_rfl hready) (fun y hy => ?_)
      (fun q hq => h.rooted_of_qc_ref (h.blocks.qc_ref_of_qcOf hc hne hx hq)) (horder hop hd)
    obtain ⟨hyd, hyle⟩ := h.cast y hy
    rw [h.blocks.depth_eq hc hyd, h.blocks.depth_eq hc hx]
    exact Nat.lt_of_le_of_lt hyle hlt

/-! ## Votes in order -/

section Order

variable (hc : config.CollisionFree) (hi : config.Intersecting correct)

/-- The vote for `x` is in order after `votes`. -/
def InOrder (r : ReplicaID) (votes : List (ReplicaID × Hash)) (x : Hash) : Prop :=
  chained_votes.InOrder (Config.setting hc hi) (Guards config) r x votes

omit [DecidableEq Hash] in
theorem NodeOk.in_order (h : NodeOk config correct r votes s) {x u : Hash}
    (hx : s.delivered x = true) (hpos : 0 < s.height x) (hu : Rooted config correct votes u)
    (hxu : s.above x u) (hlock : s.height s.b_lock ≤ s.height u) : InOrder hc hi r votes x := by
  by_cases hne : u = x
  · refine .inl (hne ▸ hu.resolve_left fun heq => ?_)
    rw [← hne, heq, h.blocks.b0_height] at hpos
    exact Nat.lt_irrefl 0 hpos
  · obtain ⟨habove, hud⟩ := h.blocks.above_of_above hx hxu
    have hdepth := h.blocks.depth_eq hc hud
    refine .inr ⟨u, ?_, ⟨habove, _, h.blocks.depth_of_delivered hx⟩, hne, fun g b hg hgb => ?_⟩
    · refine hu.imp_left fun heq => ?_
      rw [heq] at hdepth ⊢
      exact hdepth.trans h.blocks.b0_height
    · exact ((h.guard g b hg hgb).trans hlock).trans hdepth.ge

omit [DecidableEq Hash] in
theorem BlocksOk.above_of_grows (hok : BlocksOk config s) (hg : Grows s s') {x y : Hash}
    (hd : s.delivered x = true) (h : s.above x y) : s'.above x y :=
  hok.chained.above_of_grows hg hd h

/-- A vote for a block that `update` has taken in keeps to the lock that was there before. -/
theorem NodeOk.in_order_of_opinion (h : NodeOk config correct r votes s)
    (h' : NodeOk config correct r votes s') (hu : Updated s s') {x p q : Hash}
    (hx : s.delivered x = true) (hp : (s.parents x).head? = some p) (hq : s.qc_ref x = some q)
    (hsafe : s.SafeVote p q) (hd : s'.vote_disabled = false) (ho : s'.opinion x = some true) :
    InOrder hc hi r votes x := by
  obtain ⟨hlt, hvote⟩ := opinion_eq_true ho
  have hx' : s'.delivered x = true := (hu.shape x).delivered.trans hx
  have hpos : 0 < s'.height x := Nat.zero_lt_of_lt hlt
  rcases hvote with ⟨q', hq', hlock⟩ | ⟨passed, hw⟩
  · rw [(hu.shape x).qc_ref, hq, Option.some.injEq] at hq'
    subst hq'
    rcases hsafe with hs | hs | hs | hs | hs
    · rw [hu.vote_disabled, hs] at hd
      cases hd
    · rw [(hu.shape x).height, h.blocks.height_parent hx hp, hu.vheight] at hlt
      omega
    · have := hu.lock
      rw [(hu.shape q).height] at hlock
      omega
    · have habove := h.blocks.above_of_grows hu.shape.grows hx (.head hp hs)
      exact h'.in_order hc hi hx' hpos (h.rooted_of_qc_ref hq) habove hlock.le
    · rw [(hu.shape x).height] at hpos
      exact h.in_order hc hi hx hpos h.lock (.head hp hs) le_rfl
  · exact h'.in_order hc hi hx' hpos h'.lock (above_of_walk hw) le_rfl

end Order

end HotStuffCore

end general_hotstuff
