-- When a replica can propose. Its vote height follows every fork that extends the lock and
-- the tail follows the highest certificate, so that the block on the tail can come out too
-- low: then `on_propose` throws, after the block is stored and delivered.
import GeneralHotStuff.HighTail

namespace general_hotstuff

open quorums (ReplicaID)
open transitions (Runs)

variable {Hash Sig : Type}

namespace HotStuffCore

/-! ## What a proposal commits -/

/-- `y` is the first parent of `x` and the block of its certificate, and undecided. -/
def Link (s : HotStuffCore Hash Sig) (x y : Hash) : Prop :=
  s.undecided_ref x = some y ∧ (s.parents x).head? = some y

/-- The block that `update` commits for a block with the highest certificate. -/
def CommitsNext (config : Config Hash Sig) (s : HotStuffCore Hash Sig) (blk : Hash) : Prop :=
  s.decision s.hqc.1 = false ∧
    if config.two_step then s.Link s.hqc.1 blk
    else ∃ blk1, s.Link s.hqc.1 blk1 ∧ s.Link blk1 blk

/-- The walk of the commit loop from `blk` ends at `b_exec`. -/
def ReachesExec (s : HotStuffCore Hash Sig) (blk : Hash) : Prop :=
  (s.walk (s.height s.b_exec) (s.height blk + 1) blk).map Prod.snd = some s.b_exec

/-- A walk below a delivered block stays as it is. -/
theorem walk_of_grows {config : Config Hash Sig} {s s' : HotStuffCore Hash Sig}
    (h : Chained config s) (hg : Grows s s') (bound fuel : ℕ) {x : Hash}
    (hx : s.delivered x = true) : s'.walk bound fuel x = s.walk bound fuel x := by
  induction fuel generalizing x with
  | zero => rfl
  | succ fuel ih =>
    have hsame := hg.sameAt hx
    simp only [walk, hsame.height, hsame.parents]
    split
    · cases hp : (s.parents x).head? with
      | none => rfl
      | some p => rw [Option.bind_some, Option.bind_some, ih (h.delivered x p hp)]
    · rfl

section Tidiness

variable {config : Config Hash Sig} {s s' : HotStuffCore Hash Sig}

theorem Link.delivered (hl : LinksOk config s) {x y : Hash} (h : s.Link x y) :
    s.delivered y = true := hl.parent h.2

theorem link_of_quiet (hq : Quiet s s') {x y : Hash} (hx : s.delivered x = true) :
    s'.Link x y ↔ s.Link x y := by
  have hsame := hq.grows.sameAt hx
  rw [Link, Link, undecided_ref_eq_some, undecided_ref_eq_some, hsame.qc_ref, hsame.parents,
    hq.decision]

/-- What is committed next is settled by delivered blocks. -/
theorem commitsNext_of_quiet (ht : Tidy config s) (hq : Quiet s s') (hhqc : s'.hqc = s.hqc)
    {blk : Hash} : CommitsNext config s' blk ↔ CommitsNext config s blk := by
  rw [CommitsNext, CommitsNext, hhqc, hq.decision]
  refine and_congr_right fun _ => ?_
  split
  · exact link_of_quiet hq ht.hqc
  · refine exists_congr fun blk1 => ?_
    rw [link_of_quiet hq ht.hqc]
    exact and_congr_right fun h1 => link_of_quiet hq (h1.delivered ht.links)

theorem CommitsNext.delivered (ht : Tidy config s) {blk : Hash} (h : CommitsNext config s blk) :
    s.delivered blk = true := by
  have hlink := h.2
  split at hlink
  · exact hlink.delivered ht.links
  · obtain ⟨blk1, -, h1⟩ := hlink
    exact h1.delivered ht.links

theorem reachesExec_of_quiet (ht : Tidy config s) (hq : Quiet s s') {blk : Hash}
    (hblk : s.delivered blk = true) : s'.ReachesExec blk ↔ s.ReachesExec blk := by
  rw [ReachesExec, ReachesExec, hq.b_exec, (hq.grows.sameAt ht.exec).height,
    (hq.grows.sameAt hblk).height, walk_of_grows ht.links.chained hq.grows _ _ hblk]

/-- With the certificate of `nblk` on the highest certified block. -/
theorem commits_iff {nblk blk : Hash} (href : s.qc_ref nblk = some s.hqc.1) :
    (∃ blk1, Commits config s nblk blk1 blk) ↔ CommitsNext config s blk := by
  have hnblk : ∀ x, s.undecided_ref nblk = some x ↔ s.decision s.hqc.1 = false ∧ s.hqc.1 = x := by
    intro x
    rw [undecided_ref_eq_some, href, Option.some.injEq, and_comm]
    exact and_congr_left fun heq => by rw [heq]
  cases htwo : config.two_step with
  | true =>
    constructor
    · rintro ⟨blk1, hcom⟩
      have hlock := hcom.lock_ref
      rw [lock_ref, htwo, if_pos rfl] at hlock
      obtain ⟨hdec, rfl⟩ := (hnblk _).mp hlock
      refine ⟨hdec, ?_⟩
      rw [htwo, if_pos rfl]
      exact ⟨hcom.undecided_ref, hcom.parent⟩
    · rintro ⟨hdec, hlink⟩
      rw [htwo, if_pos rfl] at hlink
      refine ⟨s.hqc.1, ?_, hlink.1, hlink.2, by simp [htwo]⟩
      rw [lock_ref, htwo, if_pos rfl]
      exact (hnblk _).mpr ⟨hdec, rfl⟩
  | false =>
    constructor
    · rintro ⟨blk1, hcom⟩
      obtain ⟨blk2, h2, h1, hp⟩ := hcom.three_step htwo
      obtain ⟨hdec, rfl⟩ := (hnblk _).mp h2
      refine ⟨hdec, ?_⟩
      rw [htwo, if_neg Bool.false_ne_true]
      exact ⟨blk1, ⟨h1, hp⟩, hcom.undecided_ref, hcom.parent⟩
    · rintro ⟨hdec, hlink⟩
      rw [htwo, if_neg Bool.false_ne_true] at hlink
      obtain ⟨blk1, hlink1, hlink⟩ := hlink
      have h2 := (hnblk _).mpr ⟨hdec, rfl⟩
      refine ⟨blk1, ?_, hlink.1, hlink.2, fun _ => ⟨s.hqc.1, h2, hlink1⟩⟩
      rw [lock_ref, htwo, if_neg Bool.false_ne_true, h2, Option.bind_some, hlink1.1]

variable [DecidableEq Hash]

/-! ## When on_propose goes through -/

theorem update_ok_iff (ht : Tidy config s) {nblk : Hash} (hd : s.delivered nblk = true)
    (href : s.qc_ref nblk = some s.hqc.1) :
    (∃ s', s.update config nblk = .ok s') ↔
      ∀ blk, CommitsNext config s blk → s.ReachesExec blk := by
  obtain ⟨b, hb, -⟩ := exists_of_delivered hd
  have hstorage : (s.touched config nblk b).storage = s.storage := rfl
  have hwalk : ∀ blk, (s.touched config nblk b).walk (s.height s.b_exec) (s.height blk + 1) blk =
      s.walk (s.height s.b_exec) (s.height blk + 1) blk := fun blk =>
    walk_of_storage_eq hstorage _ _ blk
  constructor
  · rintro ⟨s', hs'⟩ blk hnext
    obtain ⟨blk1, hcom⟩ := (commits_iff href).mpr hnext
    rw [update_of_commits hb hcom] at hs'
    rcases commit_cases (s.touched config nblk b) blk with ⟨-, hc⟩ | hc | ⟨passed, hw, -⟩
    · rw [hc] at hs'
      cases hs'
    · rw [hc] at hs'
      cases hs'
    · rw [ReachesExec, ← hwalk blk]
      exact congrArg (Option.map Prod.snd) hw
  · intro hreach
    rcases update_cases config hb with hu | ⟨horph, -⟩ | ⟨blk1, blk, hcom, hu⟩
    · exact ⟨_, hu⟩
    · exact absurd horph ht.not_orphaned
    · have hend := hreach blk ((commits_iff href).mp ⟨blk1, hcom⟩)
      rw [ReachesExec, ← hwalk blk] at hend
      obtain ⟨⟨passed, last⟩, hw, hlast⟩ := Option.map_eq_some_iff.mp hend
      have hlast : last = s.b_exec := hlast
      have hw : (s.touched config nblk b).walk ((s.touched config nblk b).height
          (s.touched config nblk b).b_exec) ((s.touched config nblk b).height blk + 1) blk =
          some (passed, (s.touched config nblk b).b_exec) := hlast ▸ hw
      exact ⟨_, hu.trans (by rw [commit, hw]; exact if_neg (not_not.mpr rfl))⟩

/-- A vote of a replica whose certificate part is on the block is counted or dropped. -/
theorem on_own_vote_counts (ht : Tidy config s) (voter : ReplicaID) (sig : Sig) {blk : Hash}
    (hd : s.delivered blk = true) :
    ∃ s', s.on_receive_vote config ⟨voter, blk, ⟨blk, sig⟩⟩ = .ok s' := by
  obtain ⟨b, hb, hbd⟩ := exists_of_delivered hd
  have hobj := ht.certs.started config hb
  obtain ⟨qc', hadd⟩ : ∃ qc', (b.self_qc.getD (.create_quorum_cert config blk)).add_part voter
      ⟨blk, sig⟩ = some qc' := ⟨_, if_neg (not_not.mpr hobj.symm)⟩
  simp only [on_receive_vote, hb, hadd]
  rw [if_neg (by simp [hbd])]
  split
  · exact ⟨s, rfl⟩
  · split
    · exact ⟨s, rfl⟩
    · split
      · exact ⟨_, rfl⟩
      · exact ⟨_, rfl⟩

/-- A replica votes on its own block or not, and goes on. -/
theorem on_own_proposal_ok (ht : Tidy config s) (blk : Hash) :
    ∃ s', s.on_receive_proposal config ⟨s.id, blk⟩ = .ok s' := by
  rw [on_receive_proposal, if_pos rfl]
  have hdef := ht.descending.vote_on_defined config ⟨s.id, blk⟩
  rcases vote_on_cases config ⟨s.id, blk⟩ s with ⟨-, ho⟩ | ho | ⟨-, ho⟩
  · rw [ho] at hdef
    exact absurd hdef not_false
  · exact ⟨_, ho⟩
  · exact ⟨_, ho⟩

theorem update_vheight {nblk : Hash} (hd : s.delivered nblk = true)
    (h : s.update config nblk = .ok s') : s'.vheight = s.vheight ∧ s'.height nblk = s.height nblk ∧
      s'.id = s.id := by
  obtain ⟨b, hb, -⟩ := exists_of_delivered hd
  obtain ⟨hsh, -, ⟨exec, storage, out, rfl⟩, -⟩ := update_leaves config hb s'
    (congrArg Outcome.state? h)
  exact ⟨rfl, (hsh nblk).height, rfl⟩

/-- `on_propose` on delivered parents goes through when the new block is higher than all that the
replica has voted for, and what its certificate commits is on the chain of `b_exec`. -/
theorem on_propose_ok_iff (hc : config.CollisionFree) (ht : Tidy config s) (cmds : List Hash)
    {p : Hash} {ps : List Hash} (hps : ∀ x ∈ p :: ps, s.delivered x = true)
    (extra : List UInt8) :
    (∃ s', s.on_propose config cmds (p :: ps) extra = .ok s') ↔
      s.vheight < (s.height p + 1) % 2 ^ 32 ∧
        ∀ blk, CommitsNext config s blk → s.ReachesExec blk := by
  obtain ⟨s1, hs1, ht1, hq, hhqc, -, hv⟩ := ht.deliver_proposed hc cmds p ps extra hps
  have hd1 := delivered_of_on_deliver_blk hs1
  have hproposed : (s.proposed cmds (p :: ps) extra).parent_hashes = p :: ps := rfl
  obtain ⟨-, href, hheight⟩ := ht1.links.of_hash hc hproposed hd1
  have hobj : (s.proposed cmds (p :: ps) extra).qc.obj_hash = s1.hqc.1 := by
    rw [hhqc]
    exact ht.certs.hqc
  rw [hobj] at href
  have hpd := hps p List.mem_cons_self
  rw [(hq.grows.sameAt hpd).height] at hheight
  have hcommit : (∀ blk, CommitsNext config s1 blk → s1.ReachesExec blk) ↔
      ∀ blk, CommitsNext config s blk → s.ReachesExec blk := by
    refine forall_congr' fun blk => ?_
    rw [commitsNext_of_quiet ht hq hhqc]
    exact imp_congr_right fun hnext => reachesExec_of_quiet ht hq (hnext.delivered ht)
  rw [← hcommit, ← update_ok_iff ht1 hd1 href]
  simp only [on_propose, hs1, Outcome.andThen]
  cases hu : s1.update config (config.get_hash (s.proposed cmds (p :: ps) extra)) with
  | undefined => simp
  | throw s2 what => simp
  | ok s2 =>
    obtain ⟨hv2, hheight2, hid2⟩ := update_vheight hd1 hu
    have ht2 := (kept_tidy config).update s1 _ ht1 hd1 s2 (congrArg Outcome.state? hu)
    simp only [Outcome.ok.injEq, exists_eq', and_true]
    rw [hheight2, hheight, hv2, hv]
    constructor
    · rintro ⟨s', hs'⟩
      by_contra hle
      rw [if_pos (Nat.le_of_not_lt hle)] at hs'
      cases hs'
    · intro hlt
      obtain ⟨s3, hs3⟩ := on_own_proposal_ok ht2 (config.get_hash (s.proposed cmds (p :: ps) extra))
      rw [hid2, hq.id] at hs3
      rw [if_neg (Nat.not_le_of_lt hlt), hs3]
      exact ⟨_, rfl⟩

end Tidiness

end HotStuffCore

namespace PMHighTail

open HotStuffCore (Tidy CommitsNext)

variable [DecidableEq Hash] {config : Config Hash Sig} {order : TailOrder Hash}
  {pm pm' : PMHighTail Hash Sig}

/-! ## Orderly replicas with a tail -/

/-- Blocks are delivered once all they name is there, and proposals are received from other
replicas. -/
def Orderly (pm : PMHighTail Hash Sig) : Event Hash Sig → Prop
  | .on_deliver_blk blk => pm.hsc.Orderly (.on_deliver_blk blk)
  | .on_receive_proposal prop => prop.proposer ≠ pm.hsc.id
  | _ => True

omit [DecidableEq Hash] in
theorem Orderly.received {e : Event Hash Sig} (h : pm.Orderly e) : pm.Received e := by
  cases e with
  | add_blk data => trivial
  | on_deliver_blk blk => trivial
  | on_propose cmds extra self_vote => trivial
  | on_receive_proposal prop => exact h
  | on_receive_vote vote => trivial
  | set_vote_disabled f => trivial

theorem hsc_of_hqc_update {s : HotStuffCore Hash Sig}
    (h : pm.reg_hqc_update order s = some pm') : pm'.hsc = s := by
  unfold reg_hqc_update at h
  split at h
  · exact Option.some.inj h ▸ rfl
  · obtain ⟨tail, -, rfl⟩ := Option.map_eq_some_iff.mp h
    rfl

/-- The callbacks leave the core alone. -/
theorem run_leaves {f : HotStuffCore Hash Sig → Outcome (HotStuffCore Hash Sig)}
    {P : HotStuffCore Hash Sig → Prop} (hf : (f pm.hsc).Leaves P) :
    (pm.run order f).Leaves fun pm' => P pm'.hsc := by
  intro pm' hpm'
  obtain ⟨s, hs, hr⟩ := run_state? hpm'
  rw [hsc_of_hqc_update hr]
  exact hf s hs

theorem reg_receive_proposal_leaves {prop : Proposal Hash} :
    (pm.reg_receive_proposal prop).Leaves fun pm' => pm'.hsc = pm.hsc := by
  unfold reg_receive_proposal
  split
  · exact Outcome.leaves_undefined
  · exact Outcome.leaves_ok.mpr rfl

theorem on_receive_proposal_leaves {P : HotStuffCore Hash Sig → Prop} {prop : Proposal Hash}
    (h : (pm.hsc.on_receive_proposal config prop).Leaves P) :
    (pm.on_receive_proposal config order prop).Leaves fun pm' => P pm'.hsc :=
  (run_leaves h).andThen fun _ _ h1 => reg_receive_proposal_leaves.mono fun pm2 heq => by
    rw [heq]
    exact h1

/-- What the parts of the core keep, `on_propose` keeps. -/
theorem on_propose_leaves {P : HotStuffCore Hash Sig → Prop} (hk : HotStuffCore.Kept config P)
    (hvote : ∀ s vote, P s → (s.on_receive_vote config vote).Leaves P) {cmds : List Hash}
    {extra : List UInt8} (hdel : ((pm.hsc.store_proposed config cmds pm.hqc_tail [] extra
      ).on_deliver_blk (config.get_hash (pm.hsc.proposed cmds [pm.hqc_tail] extra))).Leaves P)
    (self_vote : Bool) :
    (pm.on_propose config order cmds extra self_vote).Leaves fun pm' => P pm'.hsc := by
  unfold PMHighTail.on_propose get_parents
  dsimp only
  generalize config.get_hash (pm.hsc.proposed cmds [pm.hqc_tail] extra) = bnew at *
  refine (run_leaves (f := fun s =>
    (s.store_proposed config cmds pm.hqc_tail [] extra).on_deliver_blk bnew) hdel).andThen
    fun pm1 hok h1 => ?_
  obtain ⟨s1, hs1, hr⟩ := run_ok hok
  have hd : pm1.hsc.delivered bnew = true :=
    hsc_of_hqc_update hr ▸ HotStuffCore.delivered_of_on_deliver_blk hs1
  refine (run_leaves (hk.update pm1.hsc bnew h1 hd)).andThen fun pm2 _ h2 => ?_
  split
  · exact Outcome.leaves_throw.mpr h2
  refine (on_receive_proposal_leaves (hk.on_receive_proposal h2 _)).andThen fun pm3 _ h3 => ?_
  refine Outcome.Leaves.andThen (P := fun pm4 : PMHighTail Hash Sig => P pm4.hsc) ?_
    fun pm4 _ h4 => ?_
  · unfold on_own_vote
    split
    · exact run_leaves (hvote _ _ h3)
    · exact Outcome.leaves_ok.mpr h3
  · exact Outcome.leaves_ok.mpr (hk.broadcast pm4.hsc _ h4)

/-- The replica in order: the core is tidy, and the tail follows the highest certificate. -/
structure InOrder (config : Config Hash Sig) (pm : PMHighTail Hash Sig) : Prop where
  tidy : Tidy config pm.hsc
  follows : Follows config pm

omit [DecidableEq Hash] in
theorem InOrder.tail_delivered (h : InOrder config pm) :
    pm.hsc.delivered pm.hqc_tail = true := by
  rcases h.follows.tail with heq | hd
  · rw [heq]
    exact h.tidy.hqc
  · exact hd

theorem InOrder.event (hc : config.CollisionFree) (h : InOrder config pm) {e : Event Hash Sig}
    (he : pm.Orderly e) : (pm.event config order e).Leaves (InOrder config) := by
  suffices htidy : (pm.event config order e).Leaves fun pm' => Tidy config pm'.hsc from
    fun pm' hpm' => ⟨htidy pm' hpm', h.follows.event hc he.received pm' hpm'⟩
  cases e with
  | add_blk data => exact run_leaves (f := (·.call config (.add_blk data))) (h.tidy.add_blk data)
  | on_deliver_blk blk => exact run_leaves (h.tidy.on_deliver_blk he)
  | on_propose cmds extra self_vote =>
    obtain ⟨s1, hs1, ht1, -⟩ := h.tidy.deliver_proposed hc cmds pm.hqc_tail [] extra
      fun y hy => List.mem_singleton.mp hy ▸ h.tail_delivered
    exact on_propose_leaves (HotStuffCore.kept_tidy config)
      (fun s vote ht => ht.on_receive_vote vote) (hs1 ▸ Outcome.leaves_ok.mpr ht1) self_vote
  | on_receive_proposal prop =>
    exact on_receive_proposal_leaves
      ((HotStuffCore.kept_tidy config).on_receive_proposal h.tidy prop)
  | on_receive_vote vote => exact run_leaves (h.tidy.on_receive_vote vote)
  | set_vote_disabled f =>
    have hcall : (pm.hsc.call config (.set_vote_disabled f)).Leaves (Tidy config) :=
      h.tidy.call hc trivial
    exact run_leaves (f := (·.call config (.set_vote_disabled f))) hcall

theorem InOrder.of_runs (hc : config.CollisionFree) {id : ReplicaID}
    (h : Runs (step config order) Orderly (init config id) pm) : InOrder config pm :=
  h.keeps ⟨HotStuffCore.on_init_tidy config id, init_follows config id⟩
    fun _ _ _ hpm he hs => hpm.event hc he _ hs

/-! ## The callbacks have an outcome -/

theorem check_ancestry_isSome {s : HotStuffCore Hash Sig} (h : s.Descending) (a b : Hash) :
    (s.check_ancestry a b).isSome := by
  rw [HotStuffCore.check_ancestry, Option.isSome_map]
  exact h.walk_isSome (s.height a) (Nat.lt_succ_self (s.height b))

/-- A part of the core that goes through, with the callback. -/
theorem run_of_ok (order : TailOrder Hash)
    {f : HotStuffCore Hash Sig → Outcome (HotStuffCore Hash Sig)} {s : HotStuffCore Hash Sig}
    (hs : f pm.hsc = .ok s) (hd : s.Descending) :
    ∃ pm', pm.run order f = .ok pm' ∧ pm'.hsc = s := by
  have hr : ∃ pm', pm.reg_hqc_update order s = some pm' := by
    unfold reg_hqc_update
    split
    · exact ⟨_, rfl⟩
    · have hturn : ∀ best x, x ∈ order.list s.tails → True →
          ∃ t, s.higher_tail best x = some t ∧ True := by
        intro best x _ _
        obtain ⟨e, he⟩ := Option.isSome_iff_exists.mp (check_ancestry_isSome hd s.hqc.1 x)
        exact ⟨_, by rw [HotStuffCore.higher_tail, he]; rfl, trivial⟩
      obtain ⟨tail, htail, -⟩ := transitions.foldlM_isSome (s := s.hqc.1) hturn trivial
      exact ⟨_, by rw [htail]; rfl⟩
  obtain ⟨pm', hr⟩ := hr
  exact ⟨pm', by rw [run, hs]; simp [hr], hsc_of_hqc_update hr⟩

theorem reg_receive_proposal_ok (pm : PMHighTail Hash Sig) (prop : Proposal Hash)
    (hd : pm.hsc.Descending) :
    ∃ pm', pm.reg_receive_proposal prop = .ok pm' ∧ pm'.hsc = pm.hsc := by
  obtain ⟨e, he⟩ := Option.isSome_iff_exists.mp
    (check_ancestry_isSome hd pm.hsc.hqc.1 prop.blk)
  obtain ⟨pm', hpm'⟩ : ∃ pm', pm.reg_receive_proposal prop = .ok pm' :=
    ⟨_, by rw [reg_receive_proposal, he]⟩
  exact ⟨pm', hpm', reg_receive_proposal_leaves pm' (congrArg Outcome.state? hpm')⟩

/-- The vote of a replica on its own block is counted or dropped. -/
theorem on_own_vote_ok (order : TailOrder Hash) (h : Tidy config pm.hsc) {bnew : Hash}
    (hd : pm.hsc.delivered bnew = true) (voted : Bool) :
    ∃ pm', pm.on_own_vote config order bnew voted = .ok pm' := by
  unfold on_own_vote
  split
  · obtain ⟨s, hs⟩ := HotStuffCore.on_own_vote_counts h pm.hsc.id
      (config.sign pm.hsc.id bnew) hd
    obtain ⟨pm', hpm', -⟩ := run_of_ok order hs
      (h.on_receive_vote _ s (congrArg Outcome.state? hs)).descending
    exact ⟨pm', hpm'⟩
  · exact ⟨pm, rfl⟩

/-- The core by itself goes through whenever it does with the callbacks. -/
theorem core_of_on_propose_ok {cmds : List Hash} {extra : List UInt8} {self_vote : Bool}
    (h : pm.on_propose config order cmds extra self_vote = .ok pm') :
    ∃ s', pm.hsc.on_propose config cmds pm.get_parents extra = .ok s' := by
  unfold PMHighTail.on_propose get_parents at h
  unfold HotStuffCore.on_propose get_parents
  dsimp only at h ⊢
  set bnew := config.get_hash (pm.hsc.proposed cmds [pm.hqc_tail] extra)
  obtain ⟨pm1, hpm1, h⟩ := Outcome.andThen_eq_ok.mp h
  obtain ⟨s1, hs1, hr1⟩ := run_ok hpm1
  obtain ⟨pm2, hpm2, h⟩ := Outcome.andThen_eq_ok.mp h
  obtain ⟨s2, hs2, hr2⟩ := run_ok hpm2
  rw [hsc_of_hqc_update hr1] at hs2
  rw [hsc_of_hqc_update hr2] at h
  split at h
  · cases h
  rename_i hlt
  obtain ⟨pm3, hpm3, -⟩ := Outcome.andThen_eq_ok.mp h
  obtain ⟨pm4, hpm4, -⟩ := Outcome.andThen_eq_ok.mp hpm3
  obtain ⟨s3, hs3, -⟩ := run_ok hpm4
  rw [hsc_of_hqc_update hr2] at hs3
  refine ⟨{ s3 with out := s3.out ++ [.do_broadcast_proposal ⟨pm.hsc.id, bnew⟩] },
    Outcome.andThen_eq_ok.mpr ⟨s1, hs1, Outcome.andThen_eq_ok.mpr ⟨s2, hs2, ?_⟩⟩⟩
  rw [if_neg hlt]
  exact Outcome.andThen_eq_ok.mpr ⟨s3, hs3, rfl⟩

/-- The callbacks and the vote of the replica do not get in the way of a proposal. -/
theorem on_propose_ok_of_core (hc : config.CollisionFree) (h : InOrder config pm)
    {cmds : List Hash} {extra : List UInt8} (self_vote : Bool) {s' : HotStuffCore Hash Sig}
    (hs' : pm.hsc.on_propose config cmds pm.get_parents extra = .ok s') :
    ∃ pm', pm.on_propose config order cmds extra self_vote = .ok pm' := by
  have hk := HotStuffCore.kept_tidy config
  unfold PMHighTail.on_propose get_parents
  unfold HotStuffCore.on_propose get_parents at hs'
  dsimp only at hs' ⊢
  obtain ⟨t1, ht1, htidy1, hq1, -⟩ := h.tidy.deliver_proposed hc cmds pm.hqc_tail [] extra
    fun y hy => List.mem_singleton.mp hy ▸ h.tail_delivered
  set bnew := config.get_hash (pm.hsc.proposed cmds [pm.hqc_tail] extra)
  obtain ⟨s1, hs1, hs'⟩ := Outcome.andThen_eq_ok.mp hs'
  obtain ⟨s2, hs2, hs'⟩ := Outcome.andThen_eq_ok.mp hs'
  split at hs'
  · cases hs'
  rename_i hlt
  obtain ⟨s3, hs3, -⟩ := Outcome.andThen_eq_ok.mp hs'
  -- every part of the core goes through, and each leaves the replica tidy
  obtain rfl : t1 = s1 := Outcome.ok.inj (ht1.symm.trans hs1)
  have hd1 := HotStuffCore.delivered_of_on_deliver_blk hs1
  have hid : s2.id = pm.hsc.id := (HotStuffCore.update_vheight hd1 hs2).2.2.trans hq1.id
  have hs2' := congrArg Outcome.state? hs2
  have hs3' := congrArg Outcome.state? hs3
  have htidy2 := hk.update t1 bnew htidy1 hd1 s2 hs2'
  have hd2 := (HotStuffCore.update_sameShape config t1 bnew s2 hs2').grows.delivered hd1
  have htidy3 := hk.on_receive_proposal htidy2 _ s3 hs3'
  have hvote : s2.vote_on config ⟨pm.hsc.id, bnew⟩ = .ok s3 := by
    rw [← hs3, HotStuffCore.on_receive_proposal, if_pos hid.symm]
  have hd3 := (HotStuffCore.vote_on_sameShape config s2 _ s3
    (congrArg Outcome.state? hvote)).grows.delivered hd2
  -- so the callbacks after them go through too
  obtain ⟨pm1, hpm1, rfl⟩ := run_of_ok order (f := fun s =>
    (s.store_proposed config cmds pm.hqc_tail [] extra).on_deliver_blk bnew) hs1 htidy1.descending
  obtain ⟨pm2, hpm2, rfl⟩ := run_of_ok order hs2 htidy2.descending
  obtain ⟨pm3, hpm3, rfl⟩ := run_of_ok order hs3 htidy3.descending
  obtain ⟨pm4, hpm4, hsc4⟩ := reg_receive_proposal_ok pm3 ⟨pm.hsc.id, bnew⟩ htidy3.descending
  obtain ⟨pm5, hpm5⟩ := on_own_vote_ok order (hsc4 ▸ htidy3 : Tidy config pm4.hsc)
    (by rw [hsc4]; exact hd3) (self_vote && pm2.hsc.opinion bnew = some true)
  refine ⟨{ pm5 with
    hsc := { pm5.hsc with
      out := pm5.hsc.out ++ [.do_broadcast_proposal ⟨pm.hsc.id, bnew⟩] }
    hqc_tail := bnew }, ?_⟩
  refine Outcome.andThen_eq_ok.mpr ⟨pm1, hpm1, Outcome.andThen_eq_ok.mpr ⟨pm2, hpm2, ?_⟩⟩
  rw [if_neg hlt]
  refine Outcome.andThen_eq_ok.mpr ⟨pm4, ?_, Outcome.andThen_eq_ok.mpr ⟨pm5, hpm5, rfl⟩⟩
  exact Outcome.andThen_eq_ok.mpr ⟨pm3, hpm3, hpm4⟩

/-- A replica can propose exactly when its tail is no lower than what it has voted for, and what
its highest certificate commits is on the chain of `b_exec`. -/
theorem InOrder.on_propose_ok_iff (hc : config.CollisionFree) (h : InOrder config pm)
    {order : TailOrder Hash} {cmds : List Hash} {extra : List UInt8} {self_vote : Bool} :
    (∃ pm', pm.on_propose config order cmds extra self_vote = .ok pm') ↔
      pm.hsc.vheight < (pm.hsc.height pm.hqc_tail + 1) % 2 ^ 32 ∧
        ∀ blk, CommitsNext config pm.hsc blk → pm.hsc.ReachesExec blk := by
  have hcore : (∃ pm', pm.on_propose config order cmds extra self_vote = .ok pm') ↔
      ∃ s', pm.hsc.on_propose config cmds pm.get_parents extra = .ok s' :=
    ⟨fun ⟨_, hpm'⟩ => core_of_on_propose_ok hpm', fun ⟨_, hs'⟩ =>
      on_propose_ok_of_core hc h self_vote hs'⟩
  rw [hcore]
  refine HotStuffCore.on_propose_ok_iff hc h.tidy cmds (fun x hx => ?_) extra
  exact List.mem_singleton.mp hx ▸ h.tail_delivered

instance (pm : PMHighTail Hash Sig) : ∀ e, Decidable (pm.Orderly e)
  | .add_blk _ => .isTrue trivial
  | .on_deliver_blk blk =>
    decidable_of_iff (∃ b ∈ pm.hsc.storage blk, b.delivered = true ∨
      (∀ p ∈ b.parent_hashes, pm.hsc.delivered p = true) ∧
        (pm.hsc.storage b.qc.obj_hash).isSome) Iff.rfl
  | .on_propose _ _ _ => .isTrue trivial
  | .on_receive_proposal prop => inferInstanceAs (Decidable (prop.proposer ≠ pm.hsc.id))
  | .on_receive_vote _ => .isTrue trivial
  | .set_vote_disabled _ => .isTrue trivial

end PMHighTail

end general_hotstuff
