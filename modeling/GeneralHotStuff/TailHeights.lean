-- A replica can propose as long as its tail keeps up with its votes: what it votes for and the
-- certificates that it takes over have to leave it a tail that is high enough. A step that
-- leaves it none also leaves it unable to propose.
import GeneralHotStuff.CommitRule
import GeneralHotStuff.ProposalHeights
import GeneralHotStuff.Replay

namespace general_hotstuff

open quorums (ReplicaID)
open transitions (Runs)

variable {Hash Sig : Type} [DecidableEq Hash]

namespace HotStuffCore

variable {config : Config Hash Sig} {s s' : HotStuffCore Hash Sig}

/-! ## Tails above a certified block -/

/-- A block of `xs` above `q`, or `q` itself, is at least `n` high. -/
def HasTail (s : HotStuffCore Hash Sig) (xs : Finset Hash) (q : Hash) (n : ℕ) : Prop :=
  ∃ x ∈ insert q xs, s.check_ancestry q x = some true ∧ n ≤ s.height x

instance (s : HotStuffCore Hash Sig) (xs : Finset Hash) (q : Hash) (n : ℕ) :
    Decidable (s.HasTail xs q n) :=
  inferInstanceAs (Decidable (∃ x ∈ insert q xs, s.check_ancestry q x = some true ∧ n ≤ s.height x))

theorem check_ancestry_self (s : HotStuffCore Hash Sig) (q : Hash) :
    s.check_ancestry q q = some true := by
  simp [check_ancestry, walk]

theorem check_ancestry_of_sameShape (h : SameShape s s') (a b : Hash) :
    s'.check_ancestry a b = s.check_ancestry a b := by
  obtain ⟨hheight, hparents, -⟩ := h.reads
  rw [check_ancestry, check_ancestry, hheight, walk_congr hheight hparents]

theorem hasTail_of_sameShape (h : SameShape s s') (xs : Finset Hash) (q : Hash) (n : ℕ) :
    s'.HasTail xs q n ↔ s.HasTail xs q n := by
  simp only [HasTail, check_ancestry_of_sameShape h, h.reads.1]

/-- The loop ends with the highest of the tails above the certified block. -/
theorem highest_tail {xs : List Hash} {best tail : Hash}
    (hbest : s.check_ancestry s.hqc.1 best = some true)
    (h : xs.foldlM s.higher_tail best = some tail) :
    (tail = best ∨ tail ∈ xs) ∧ s.check_ancestry s.hqc.1 tail = some true ∧
      s.height best ≤ s.height tail ∧
      ∀ x ∈ xs, s.check_ancestry s.hqc.1 x = some true → s.height x ≤ s.height tail := by
  induction xs generalizing best with
  | nil =>
    obtain rfl := Option.some.inj h
    exact ⟨.inl rfl, hbest, le_rfl, by simp⟩
  | cons x xs ih =>
    rw [List.foldlM_cons] at h
    obtain ⟨best', hturn, h⟩ := Option.bind_eq_some_iff.mp h
    obtain ⟨extends_hqc, hanc, rfl⟩ := Option.map_eq_some_iff.mp hturn
    split at h
    · rename_i hif
      rw [Bool.and_eq_true, decide_eq_true_eq] at hif
      obtain ⟨hmem, htail, hle, hall⟩ := ih (hif.1 ▸ hanc) h
      refine ⟨.inr (List.mem_cons.mpr hmem), htail, by omega, fun y hy hay => ?_⟩
      rcases List.mem_cons.mp hy with rfl | hy
      · exact hle
      · exact hall y hy hay
    · rename_i hif
      obtain ⟨hmem, htail, hle, hall⟩ := ih hbest h
      refine ⟨hmem.imp_right (List.mem_cons_of_mem x), htail, hle, fun y hy hay => ?_⟩
      rcases List.mem_cons.mp hy with rfl | hy
      · rw [hanc, Option.some.injEq] at hay
        simp only [hay, Bool.true_and, decide_eq_true_eq, not_lt] at hif
        exact hif.trans hle
      · exact hall y hy hay

/-! ## Calls that take over a certificate -/

/-- The vote completes the quorum of a block above the highest certified one. -/
def Completes (config : Config Hash Sig) (s : HotStuffCore Hash Sig) (vote : Vote Hash Sig) :
    Prop :=
  ∃ b ∈ s.storage vote.blk_hash, b.delivered = true ∧ config.rule.isQuorum b.voted = false ∧
    vote.voter ∉ b.voted ∧
    ((b.self_qc.getD (.create_quorum_cert config vote.blk_hash)).add_part vote.voter
      vote.cert).isSome = true ∧
    config.rule.becomesQuorum b.voted.card (insert vote.voter b.voted) = true ∧
    s.height s.hqc.1 < s.height vote.blk_hash

instance (s : HotStuffCore Hash Sig) (vote : Vote Hash Sig) : Decidable (s.Completes config vote) :=
  inferInstanceAs (Decidable (∃ b ∈ s.storage vote.blk_hash, _))

theorem Completes.on_receive_vote {vote : Vote Hash Sig} (h : s.Completes config vote) :
    ∃ s', s.on_receive_vote config vote = .ok s' ∧ s'.hqc.1 = vote.blk_hash := by
  obtain ⟨b, hb, hd, hq, hv, hadd, hbq, hlt⟩ := h
  have hb : s.storage vote.blk_hash = some b := hb
  obtain ⟨qc', hqc'⟩ := Option.isSome_iff_exists.mp hadd
  have hsh := SameShape.modify s vote.blk_hash (f := fun c =>
    { c with voted := insert vote.voter b.voted, self_qc := some (qc'.compute config) })
    fun _ => rfl
  simp only [HotStuffCore.on_receive_vote, hb, hqc', hbq, if_true]
  rw [if_neg (by simp [hd]), if_neg (by simp [hq]), if_neg hv]
  refine ⟨_, rfl, ?_⟩
  rw [update_hqc, if_pos (by rw [hsh.reads.1]; exact hlt)]

/-- A vote leaves the vote height and the tails alone, and the highest certificate as well unless
it completes a quorum. -/
theorem on_receive_vote_hqc (config : Config Hash Sig) (s : HotStuffCore Hash Sig)
    (vote : Vote Hash Sig) : (s.on_receive_vote config vote).Leaves fun s' =>
      s'.vheight = s.vheight ∧ s'.tails = s.tails ∧
        (s.Completes config vote ∧ s'.hqc.1 = vote.blk_hash ∨
          ¬ s.Completes config vote ∧ s'.hqc.1 = s.hqc.1) := by
  intro s' hs'
  have hframe : s'.vheight = s.vheight ∧ s'.tails = s.tails ∧
      (¬ s.Completes config vote → s'.hqc.1 = s.hqc.1) := by
    rcases on_receive_vote_cases config vote s with ho | ho | ⟨b, hb, hd, hq, hv, ho⟩
    · rw [ho] at hs'
      exact Option.some.inj hs' ▸ ⟨rfl, rfl, fun _ => rfl⟩
    · rw [ho] at hs'
      exact Option.some.inj hs' ▸ ⟨rfl, rfl, fun _ => rfl⟩
    · generalize s.on_receive_vote config vote = o at ho hs'
      cases ho with
      | mismatch h => exact Option.some.inj hs' ▸ ⟨rfl, rfl, fun _ => rfl⟩
      | collected qc' h hbq => exact Option.some.inj hs' ▸ ⟨rfl, rfl, fun _ => rfl⟩
      | computed qc' h hbq =>
        refine Option.some.inj hs' ▸ ⟨rfl, rfl, fun hno => ?_⟩
        have hsh := SameShape.modify s vote.blk_hash (f := fun c =>
          { c with voted := insert vote.voter b.voted, self_qc := some (qc'.compute config) })
          fun _ => rfl
        rw [modify_eq_put hb] at hsh
        rw [update_hqc]
        split
        · rename_i hlt
          rw [hsh.reads.1] at hlt
          exact absurd ⟨b, hb, hd, hq, hv, by simp [h], hbq, hlt⟩ hno
        · rfl
  refine ⟨hframe.1, hframe.2.1, ?_⟩
  by_cases hc : s.Completes config vote
  · obtain ⟨t, ht, hhqc⟩ := hc.on_receive_vote
    rw [ht] at hs'
    exact .inl ⟨hc, Option.some.inj hs' ▸ hhqc⟩
  · exact .inr ⟨hc, hframe.2.2 hc⟩

/-! ## Committable blocks and the last commit -/

/-- What delivered blocks or the highest certificate make committable is on one chain with
`b_exec`. -/
def NoFork (config : Config Hash Sig) (s : HotStuffCore Hash Sig) : Prop :=
  ∀ blk, (CommitsNext config s blk ∨
    ∃ x, s.delivered x = true ∧ s.committable config x = some blk) →
      s.above blk s.b_exec ∨ s.above s.b_exec blk

omit [DecidableEq Hash] in
theorem CommitsNext.undecided {blk : Hash} (h : CommitsNext config s blk) :
    s.decision blk = false := by
  have hlink := h.2
  split at hlink
  · exact (undecided_ref_eq_some.mp hlink.1).2
  · obtain ⟨blk1, -, h1⟩ := hlink
    exact (undecided_ref_eq_some.mp h1.1).2

omit [DecidableEq Hash] in
/-- A chain goes down to genesis. -/
theorem BlocksOk.above_b0 (hok : BlocksOk config s) {x : Hash} (hd : s.delivered x = true) :
    s.above x config.b0 := by
  induction hn : s.height x using Nat.strong_induction_on generalizing x with
  | _ n ih =>
    by_cases hx : x = config.b0
    · rw [hx]
      exact .refl
    · obtain ⟨b, hb, hbd⟩ := exists_of_delivered hd
      obtain ⟨p, ps, -, hps, -⟩ := (hok.law x b hx hb).linked hbd
      have hp : (s.parents x).head? = some p := by rw [parents_eq hb, hps]; rfl
      have hlt : s.height p < n := by
        have := hok.height_parent hd hp
        omega
      exact .head hp (ih (s.height p) hlt (hok.parent_delivered hp) rfl)

theorem NoFork.reachesExec (h : NoFork config s) (ht : Tidy config s) (hok : BlocksOk config s)
    (hlog : LogOk config s) {blk : Hash} (hnext : CommitsNext config s blk) :
    s.ReachesExec blk := by
  rcases h blk (.inl hnext) with ha | ha
  · obtain ⟨⟨passed, last⟩, hw⟩ := Option.isSome_iff_exists.mp
      (ht.descending.walk_isSome (s.height s.b_exec) (Nat.lt_succ_self (s.height blk)))
    rw [ReachesExec, hw, ← hok.falling.walk_ends (hnext.delivered ht) ha hw]
    rfl
  · have hdec := hlog.decided_of_above hok.grounded ha
    rw [hnext.undecided] at hdec
    cases hdec

theorem NoFork.update_ok (h : NoFork config s) (ht : Tidy config s) (hok : BlocksOk config s)
    (hlog : LogOk config s) {nblk : Hash} (hd : s.delivered nblk = true) :
    ∃ s', s.update config nblk = .ok s' :=
  hlog.update_ok_of_above hok ht.descending ht.not_orphaned hd fun _ blk hcom =>
    h blk (.inr ⟨nblk, hd, hcom.committable⟩)

theorem committable_delivered (ht : Tidy config s) {x blk : Hash}
    (h : s.committable config x = some blk) : s.delivered blk = true := by
  have hdirect : ∀ {y z : Hash}, s.direct_ref y = some z → s.delivered z = true := fun hz =>
    ht.links.parent (direct_ref_eq_some.mp hz).2
  obtain ⟨blk2, -, hrest⟩ := Option.bind_eq_some_iff.mp h
  split at hrest
  · exact hdirect hrest
  · obtain ⟨blk1, -, h1⟩ := Option.bind_eq_some_iff.mp hrest
    exact hdirect h1

/-- Before the first commit there is no fork, since every chain goes down to genesis. -/
theorem noFork_of_genesis (ht : Tidy config s) (hok : BlocksOk config s)
    (hexec : s.b_exec = config.b0) : NoFork config s := by
  intro blk hblk
  rw [hexec]
  rcases hblk with hnext | ⟨x, -, hx⟩
  · exact .inl (hok.above_b0 (hnext.delivered ht))
  · exact .inl (hok.above_b0 (committable_delivered ht hx))

/-! ## Received proposals -/

/-- The state in which `update` has taken over the certificate of the block, before it commits. -/
def taken_over (config : Config Hash Sig) (blk : Hash) (s : HotStuffCore Hash Sig) :
    HotStuffCore Hash Sig :=
  (s.storage blk).elim s fun b => s.touched config blk b

omit [DecidableEq Hash] in
theorem taken_over_sameShape (config : Config Hash Sig) (blk : Hash) (s : HotStuffCore Hash Sig) :
    SameShape s (s.taken_over config blk) := by
  refine .of_storage_eq ?_
  unfold taken_over
  cases s.storage blk <;> rfl

theorem opinion_congr (hsh : SameShape s s') (hv : s'.vheight = s.vheight)
    (hlock : s'.b_lock = s.b_lock) (x : Hash) : s'.opinion x = s.opinion x := by
  obtain ⟨hheight, hparents, href, -⟩ := hsh.reads
  simp only [opinion, hheight, href, hv, hlock, walk_congr hheight hparents]

/-- What a received proposal leaves when `update` returns. -/
structure Received (config : Config Hash Sig) (s : HotStuffCore Hash Sig) (blk : Hash)
    (s' : HotStuffCore Hash Sig) : Prop where
  shape : SameShape s s'
  hqc : s'.hqc = (s.taken_over config blk).hqc
  tails : s'.tails = s.tails
  vheight : s'.vheight =
    if (s.taken_over config blk).opinion blk = some true then s.height blk else s.vheight

theorem on_receive_proposal_leaves {prop : Proposal Hash} (hne : prop.proposer ≠ s.id)
    (hd : s.delivered prop.blk = true) (hu : ∃ s1, s.update config prop.blk = .ok s1) :
    (s.on_receive_proposal config prop).Leaves (Received config s prop.blk) := by
  obtain ⟨s1, hs1⟩ := hu
  obtain ⟨b, hb, -⟩ := exists_of_delivered hd
  obtain ⟨hsh, -, ⟨exec, storage, out, hframe⟩, -⟩ := update_leaves config hb s1
    (congrArg Outcome.state? hs1)
  have htaken : s.taken_over config prop.blk = s.touched config prop.blk b := by
    rw [taken_over, hb, Option.elim_some]
  have hopinion : s1.opinion prop.blk = (s.taken_over config prop.blk).opinion prop.blk := by
    refine opinion_congr ((taken_over_sameShape config prop.blk s).symm.trans hsh) ?_ ?_ prop.blk
    · rw [htaken, hframe]
    · rw [htaken, hframe]
  have hv : s1.vheight = s.vheight := by
    rw [hframe]
    rfl
  have hhqc : s1.hqc = (s.taken_over config prop.blk).hqc := by rw [htaken, hframe]
  have htails : s1.tails = s.tails := by
    rw [hframe]
    rfl
  rw [on_receive_proposal, if_neg hne, if_pos hd, hs1, Outcome.andThen, vote_on]
  split
  · exact Outcome.leaves_undefined
  · rename_i ho
    rw [Outcome.leaves_ok]
    refine ⟨hsh, hhqc, htails, ?_⟩
    rw [← hopinion, ho, hv, if_neg (by simp)]
  · rename_i ho
    have hvoted : ∀ s2 : HotStuffCore Hash Sig, s2.storage = s1.storage → s2.hqc = s1.hqc →
        s2.tails = s1.tails → s2.vheight = s1.height prop.blk →
          Received config s prop.blk s2 := by
      intro s2 hstorage hhqc2 htails2 hv2
      refine ⟨hsh.trans (.of_storage_eq hstorage), hhqc2.trans hhqc, htails2.trans htails, ?_⟩
      rw [← hopinion, ho, hv2, if_pos rfl, (hsh prop.blk).height]
    split
    · exact Outcome.leaves_ok.mpr (hvoted _ rfl rfl rfl rfl)
    · exact Outcome.leaves_ok.mpr (hvoted _ rfl rfl rfl rfl)

/-! ## The vote height -/

theorem on_deliver_blk_vheight (s : HotStuffCore Hash Sig) (blk : Hash) :
    (s.on_deliver_blk blk).Leaves fun s' => s'.vheight = s.vheight := by
  cases hb : s.storage blk with
  | none => simp [on_deliver_blk, hb]
  | some b =>
    cases hd : b.delivered with
    | true =>
      rw [on_deliver_blk_of_delivered hb hd, Outcome.leaves_ok]
    | false =>
      intro s' hs'
      obtain ⟨b', t, -, rfl, -⟩ := on_deliver_blk_leaves hb hd s' hs'
      rfl

theorem vote_on_vheight (config : Config Hash Sig) (s : HotStuffCore Hash Sig)
    (prop : Proposal Hash) : (s.vote_on config prop).Leaves fun s' =>
      SameShape s s' ∧ (s'.vheight = s.vheight ∨ s'.vheight = s.height prop.blk) := by
  rcases vote_on_cases config prop s with ⟨-, ho⟩ | ho | ⟨-, ho⟩
  · exact ho ▸ Outcome.leaves_undefined
  · exact ho ▸ Outcome.leaves_ok.mpr ⟨SameShape.refl s, .inl rfl⟩
  · exact ho ▸ Outcome.leaves_ok.mpr ⟨.of_storage_eq rfl, .inr rfl⟩

/-- A proposal raises the vote height to the height of its block, if at all. -/
theorem on_receive_proposal_vheight (config : Config Hash Sig) (s : HotStuffCore Hash Sig)
    (prop : Proposal Hash) : (s.on_receive_proposal config prop).Leaves fun s' =>
      SameShape s s' ∧ (s'.vheight = s.vheight ∨ s'.vheight = s.height prop.blk) := by
  unfold on_receive_proposal
  split
  · exact vote_on_vheight config s prop
  split
  · rename_i hd
    obtain ⟨b, hb, -⟩ := exists_of_delivered hd
    refine (update_leaves config hb).bind (fun s1 h1 => ?_) fun s1 h1 => ?_
    · obtain ⟨exec, storage, out, hframe⟩ := h1.frame
      exact ⟨h1.shape, .inl (by rw [hframe]; rfl)⟩
    · obtain ⟨exec, storage, out, hframe⟩ := h1.frame
      refine (vote_on_vheight config s1 prop).mono fun s2 ⟨hsh, hv⟩ => ⟨h1.shape.trans hsh, ?_⟩
      rw [← (h1.shape prop.blk).height]
      exact hv.imp_left fun heq => heq.trans (by rw [hframe]; rfl)
  · exact Outcome.leaves_throw.mpr ⟨SameShape.refl s, .inl rfl⟩

end HotStuffCore

namespace PMHighTail

open HotStuffCore (Tidy BlocksOk LogOk NoFork Grows SameShape CommitsNext)

variable {config : Config Hash Sig} {order : TailOrder Hash} {pm pm' : PMHighTail Hash Sig}

/-! ## Steps that keep up -/

/-- With the core in state `s`, `reg_hqc_update` leaves a tail that is at least `n` high. -/
def TailFor (pm : PMHighTail Hash Sig) (s : HotStuffCore Hash Sig) (n : ℕ) : Prop :=
  if s.hqc.1 = pm.hsc.hqc.1 then n ≤ s.height pm.hqc_tail else s.HasTail s.tails s.hqc.1 n

instance (pm : PMHighTail Hash Sig) (s : HotStuffCore Hash Sig) (n : ℕ) :
    Decidable (pm.TailFor s n) := by
  unfold TailFor
  infer_instance

/-- A received block that the replica votes for is above the block of the highest certificate, or
no higher than the tail for that one. Otherwise a new certificate leaves a tail as high as the last
block voted for. -/
def KeepsUp (config : Config Hash Sig) (pm : PMHighTail Hash Sig) : Event Hash Sig → Prop
  | .on_receive_proposal prop =>
    let s := pm.hsc.taken_over config prop.blk
    pm.hsc.delivered prop.blk = true →
      if s.opinion prop.blk = some true then
        s.check_ancestry s.hqc.1 prop.blk = some true ∨ pm.TailFor s (s.height prop.blk)
      else s.hqc.1 ≠ pm.hsc.hqc.1 → s.HasTail (insert prop.blk s.tails) s.hqc.1 s.vheight
  | .on_receive_vote vote =>
    pm.hsc.Completes config vote → pm.hsc.HasTail pm.hsc.tails vote.blk_hash pm.hsc.vheight
  | _ => True

instance (pm : PMHighTail Hash Sig) : ∀ e, Decidable (pm.KeepsUp config e)
  | .add_blk _ => .isTrue trivial
  | .on_deliver_blk _ => .isTrue trivial
  | .on_propose _ _ _ => .isTrue trivial
  | .on_receive_proposal prop => inferInstanceAs (Decidable (pm.hsc.delivered prop.blk = true → _))
  | .on_receive_vote vote => inferInstanceAs (Decidable (pm.hsc.Completes config vote → _))
  | .set_vote_disabled _ => .isTrue trivial

/-- The tail is as high as the last block voted for. -/
def High (pm : PMHighTail Hash Sig) : Prop := pm.hsc.vheight ≤ pm.hsc.height pm.hqc_tail

theorem le_tail_iff {s : HotStuffCore Hash Sig} (hr : pm.reg_hqc_update order s = some pm')
    (n : ℕ) : n ≤ s.height pm'.hqc_tail ↔ pm.TailFor s n := by
  unfold reg_hqc_update at hr
  unfold TailFor
  split at hr
  · rename_i heq
    obtain rfl := Option.some.inj hr
    rw [if_pos heq]
  · rename_i hne
    rw [if_neg hne]
    obtain ⟨tail, htail, rfl⟩ := Option.map_eq_some_iff.mp hr
    obtain ⟨hmem, hanc, hle, hall⟩ :=
      HotStuffCore.highest_tail (HotStuffCore.check_ancestry_self s s.hqc.1) htail
    constructor
    · intro hn
      exact ⟨tail, Finset.mem_insert.mpr (hmem.imp_right (order.mem _ _).mp), hanc, hn⟩
    · rintro ⟨x, hx, hxa, hn⟩
      rcases Finset.mem_insert.mp hx with rfl | hx
      · exact hn.trans hle
      · exact hn.trans (hall x ((order.mem _ _).mpr hx) hxa)

theorem le_received_iff {prop : Proposal Hash}
    (h : (pm.reg_receive_proposal prop).state? = some pm') (n : ℕ) :
    n ≤ pm'.hsc.height pm'.hqc_tail ↔ n ≤ pm.hsc.height pm.hqc_tail ∨
      pm.hsc.check_ancestry pm.hsc.hqc.1 prop.blk = some true ∧ n ≤ pm.hsc.height prop.blk := by
  unfold reg_receive_proposal at h
  split at h
  · cases h
  · rename_i extends_hqc hanc
    obtain rfl := Option.some.inj h
    rw [hanc, Option.some.injEq]
    dsimp only
    split
    · rename_i hif
      rw [Bool.and_eq_true, decide_eq_true_eq] at hif
      exact ⟨fun hn => .inr ⟨hif.1, hn⟩, fun hn => hn.elim (by omega) And.right⟩
    · rename_i hif
      refine ⟨.inl, fun hn => hn.elim id fun ⟨hext, hn⟩ => ?_⟩
      simp only [hext, Bool.true_and, decide_eq_true_eq, not_lt] at hif
      exact hn.trans hif

/-- The replica in order, with its log and a tail that is high enough. -/
structure Poised (config : Config Hash Sig) (pm : PMHighTail Hash Sig) : Prop where
  order : InOrder config pm
  blocks : BlocksOk config pm.hsc
  log : LogOk config pm.hsc
  high : pm.High

/-! ## What the steps leave -/

theorem Poised.quiet_high (h : Poised config pm)
    {f : HotStuffCore Hash Sig → Outcome (HotStuffCore Hash Sig)}
    (hf : (f pm.hsc).Leaves fun s =>
      Grows pm.hsc s ∧ s.vheight = pm.hsc.vheight ∧ s.hqc = pm.hsc.hqc) :
    (pm.run order f).Leaves High := by
  intro pm' hpm'
  obtain ⟨s, hs, hr⟩ := run_state? hpm'
  obtain ⟨hg, hv, hhqc⟩ := hf s hs
  unfold High
  rw [hsc_of_hqc_update hr, hv, le_tail_iff hr, TailFor, if_pos (congrArg Prod.fst hhqc),
    (hg.sameAt h.order.tail_delivered).height]
  exact h.high

theorem Poised.vote_high_iff (h : Poised config pm) (vote : Vote Hash Sig) :
    (pm.run order (HotStuffCore.on_receive_vote config vote)).Leaves fun pm' =>
      pm'.High ↔ pm.KeepsUp config (.on_receive_vote vote) := by
  intro pm' hpm'
  obtain ⟨s, hs, hr⟩ := run_state? hpm'
  have hsh := HotStuffCore.on_receive_vote_sameShape config pm.hsc vote s hs
  obtain ⟨hv, htails, hhqc⟩ := HotStuffCore.on_receive_vote_hqc config pm.hsc vote s hs
  unfold High
  rw [hsc_of_hqc_update hr, hv, le_tail_iff hr, TailFor]
  rcases hhqc with ⟨hcompletes, hhqc⟩ | ⟨hcompletes, hhqc⟩
  · have hne : s.hqc.1 ≠ pm.hsc.hqc.1 := by
      obtain ⟨b, -, -, -, -, -, -, hlt⟩ := hcompletes
      intro heq
      rw [← hhqc, heq] at hlt
      exact absurd hlt (Nat.lt_irrefl _)
    rw [if_neg hne, HotStuffCore.hasTail_of_sameShape hsh, hhqc, htails]
    exact ⟨fun hn _ => hn, fun hn => hn hcompletes⟩
  · rw [if_pos hhqc, (hsh _).height]
    exact ⟨fun _ hc => absurd hc hcompletes, fun _ => h.high⟩

theorem tailFor_of_sameShape {s s' : HotStuffCore Hash Sig}
    (hsh : SameShape s s') (hhqc : s'.hqc = s.hqc) (htails : s'.tails = s.tails) (n : ℕ) :
    pm.TailFor s' n ↔ pm.TailFor s n := by
  rw [TailFor, TailFor, hhqc, htails, HotStuffCore.hasTail_of_sameShape hsh, hsh.reads.1]

theorem hasTail_insert (s : HotStuffCore Hash Sig) (xs : Finset Hash) (q x : Hash) (n : ℕ) :
    s.HasTail (insert x xs) q n ↔
      s.HasTail xs q n ∨ s.check_ancestry q x = some true ∧ n ≤ s.height x := by
  simp only [HotStuffCore.HasTail, Finset.exists_mem_insert]
  rw [← or_assoc, or_right_comm]

/-- What is left of a proposal that the core has received. -/
theorem Poised.received_high_iff (h : Poised config pm) {prop : Proposal Hash}
    {s : HotStuffCore Hash Sig} (hd : pm.hsc.delivered prop.blk = true)
    (hrec : HotStuffCore.Received config pm.hsc prop.blk s) {pm1 : PMHighTail Hash Sig}
    (hr : pm.reg_hqc_update order s = some pm1)
    (h2 : (pm1.reg_receive_proposal prop).state? = some pm') :
    pm'.High ↔ pm.KeepsUp config (.on_receive_proposal prop) := by
  have hsc : pm'.hsc = s :=
    (reg_receive_proposal_leaves pm' h2).trans (hsc_of_hqc_update hr)
  have hsame := HotStuffCore.taken_over_sameShape config prop.blk pm.hsc
  have hfields : (pm.hsc.taken_over config prop.blk).vheight = pm.hsc.vheight ∧
      (pm.hsc.taken_over config prop.blk).tails = pm.hsc.tails := by
    unfold HotStuffCore.taken_over
    cases pm.hsc.storage prop.blk <;> exact ⟨rfl, rfl⟩
  have hbetween : SameShape (pm.hsc.taken_over config prop.blk) s := hsame.symm.trans hrec.shape
  -- the tail for the state after the core, and the block itself
  have hle := le_received_iff h2 s.vheight
  rw [hsc, hsc_of_hqc_update hr, le_tail_iff hr,
    tailFor_of_sameShape hbetween hrec.hqc (hrec.tails.trans hfields.2.symm),
    HotStuffCore.check_ancestry_of_sameShape hbetween, hrec.hqc, hbetween.reads.1,
    hrec.vheight] at hle
  have hkeeps : pm.KeepsUp config (.on_receive_proposal prop) ↔ _ :=
    ⟨fun hk => hk hd, fun hk _ => hk⟩
  unfold High
  rw [hsc, hbetween.reads.1, hrec.vheight, hle, hkeeps]
  generalize pm.hsc.taken_over config prop.blk = t at *
  by_cases ho : t.opinion prop.blk = some true
  · rw [if_pos ho, if_pos ho, hsame.reads.1]
    simp [or_comm]
  · rw [if_neg ho, if_neg ho, hasTail_insert, hfields.1]
    by_cases hhqc : t.hqc.1 = pm.hsc.hqc.1
    · rw [TailFor, if_pos hhqc, hsame.reads.1]
      exact ⟨fun _ hne => absurd hhqc hne, fun _ => .inl h.high⟩
    · rw [TailFor, if_neg hhqc, hsame.reads.1]
      exact ⟨fun hn _ => hn, fun hn => hn hhqc⟩

theorem Poised.proposal_high_iff (h : Poised config pm) (hfork : NoFork config pm.hsc)
    {prop : Proposal Hash} (hne : prop.proposer ≠ pm.hsc.id) :
    (pm.on_receive_proposal config order prop).Leaves fun pm' =>
      pm'.High ↔ pm.KeepsUp config (.on_receive_proposal prop) := by
  intro pm' hpm'
  unfold PMHighTail.on_receive_proposal at hpm'
  by_cases hd : pm.hsc.delivered prop.blk = true
  · have hu := hfork.update_ok h.order.tidy h.blocks h.log hd
    have hrec := HotStuffCore.on_receive_proposal_leaves hne hd hu
    obtain ⟨s1, hs1⟩ := hu
    have hcore : pm.hsc.on_receive_proposal config prop = s1.vote_on config prop := by
      rw [HotStuffCore.on_receive_proposal, if_neg hne, if_pos hd, hs1]
      rfl
    -- a vote throws nothing
    have hok : ∀ s what, pm.run order (HotStuffCore.on_receive_proposal config prop) ≠
        .throw s what := by
      intro s what hthrow
      rw [PMHighTail.run, hcore] at hthrow
      rcases HotStuffCore.vote_on_cases config prop s1 with ⟨-, ho⟩ | ho | ⟨-, ho⟩
      · simp [ho] at hthrow
      · cases hr : pm.reg_hqc_update order s1 <;> simp [ho, hr] at hthrow
      · cases hr : pm.reg_hqc_update order (s1.voted_for config prop) <;> simp [ho, hr] at hthrow
    cases hrun : pm.run order (HotStuffCore.on_receive_proposal config prop) with
    | undefined =>
      rw [hrun] at hpm'
      cases hpm'
    | throw s what => exact absurd hrun (hok s what)
    | ok pm1 =>
      rw [hrun] at hpm'
      obtain ⟨s, hs, hr⟩ := run_ok hrun
      exact h.received_high_iff hd (hrec s (congrArg Outcome.state? hs)) hr hpm'
  · have hcore : pm.hsc.on_receive_proposal config prop =
        .throw pm.hsc .block_not_delivered := by
      rw [HotStuffCore.on_receive_proposal, if_neg hne, if_neg hd]
    have hreg : pm.reg_hqc_update order pm.hsc = some pm := by
      rw [reg_hqc_update, if_pos rfl]
    rw [PMHighTail.run, hcore] at hpm'
    simp only [hreg] at hpm'
    obtain rfl := Option.some.inj hpm'
    exact ⟨fun _ hdel => absurd hdel hd, fun _ => h.high⟩

/-- `on_propose` on a tail that is high enough. -/
theorem Poised.on_propose_ok (hc : config.CollisionFree) (h : Poised config pm)
    (hshort : pm.hsc.Short) (hfork : NoFork config pm.hsc) (order : TailOrder Hash)
    (cmds : List Hash) (extra : List UInt8) (self_vote : Bool) :
    ∃ pm', pm.on_propose config order cmds extra self_vote = .ok pm' := by
  rw [h.order.on_propose_ok_iff hc]
  refine ⟨?_, fun blk hnext => hfork.reachesExec h.order.tidy h.blocks h.log hnext⟩
  rw [Nat.mod_eq_of_lt (hshort _ h.order.tail_delivered)]
  exact Nat.lt_succ_of_le h.high

/-- The own block is the tail, and no block voted for is higher. -/
theorem on_propose_high {cmds : List Hash} {extra : List UInt8} {self_vote : Bool}
    (h : pm.on_propose config order cmds extra self_vote = .ok pm') : pm'.High := by
  unfold PMHighTail.on_propose at h
  dsimp only at h
  generalize config.get_hash (pm.hsc.proposed cmds pm.get_parents extra) = bnew at h
  obtain ⟨pm1, -, h⟩ := Outcome.andThen_eq_ok.mp h
  obtain ⟨pm2, -, h⟩ := Outcome.andThen_eq_ok.mp h
  split at h
  · cases h
  rename_i hlt
  obtain ⟨pm3, hpm3, h⟩ := Outcome.andThen_eq_ok.mp h
  obtain ⟨pm4, hpm4, h⟩ := Outcome.andThen_eq_ok.mp h
  have hlow3 : pm3.hsc.vheight ≤ pm3.hsc.height bnew := by
    obtain ⟨hsh, hv⟩ := on_receive_proposal_leaves
      (HotStuffCore.on_receive_proposal_vheight config pm2.hsc ⟨pm.hsc.id, bnew⟩) pm3
      (congrArg Outcome.state? hpm3)
    rw [(hsh bnew).height]
    rcases hv with hv | hv
    · omega
    · exact hv.le
  have hlow4 : pm4.hsc.vheight ≤ pm4.hsc.height bnew := by
    unfold on_own_vote at hpm4
    split at hpm4
    · obtain ⟨s, hs, hr⟩ := run_ok hpm4
      have hs := congrArg Outcome.state? hs
      rw [hsc_of_hqc_update hr, (HotStuffCore.on_receive_vote_hqc config pm3.hsc _ s hs).1,
        (HotStuffCore.on_receive_vote_sameShape config pm3.hsc _ s hs bnew).height]
      exact hlow3
    · exact Outcome.ok.inj hpm4 ▸ hlow3
  exact Outcome.ok.inj h ▸ hlow4

/-! ## Runs -/

/-- The call of the core that an event is. Only `on_propose` is more than one. -/
def Event.call : Event Hash Sig → Option (HotStuffCore.Call Hash Sig)
  | .add_blk data => some (.add_blk data)
  | .on_deliver_blk blk => some (.on_deliver_blk blk)
  | .on_propose _ _ _ => none
  | .on_receive_proposal prop => some (.on_receive_proposal prop)
  | .on_receive_vote vote => some (.on_receive_vote vote)
  | .set_vote_disabled f => some (.set_vote_disabled f)

theorem event_leaves {e : Event Hash Sig} {c : HotStuffCore.Call Hash Sig} (he : c ∈ e.call)
    {P : HotStuffCore Hash Sig → Prop} (h : (pm.hsc.call config c).Leaves P) :
    (pm.event config order e).Leaves fun pm' => P pm'.hsc := by
  cases e with
  | on_propose cmds extra self_vote => cases he
  | on_receive_proposal prop =>
    obtain rfl := Option.some.inj he
    exact on_receive_proposal_leaves h
  | add_blk data =>
    obtain rfl := Option.some.inj he
    exact run_leaves (f := (·.call config (.add_blk data))) h
  | on_deliver_blk blk =>
    obtain rfl := Option.some.inj he
    exact run_leaves h
  | on_receive_vote vote =>
    obtain rfl := Option.some.inj he
    exact run_leaves h
  | set_vote_disabled f =>
    obtain rfl := Option.some.inj he
    exact run_leaves (f := (·.call config (.set_vote_disabled f))) h

theorem event_logOk (hok : BlocksOk config pm.hsc) (hlog : LogOk config pm.hsc)
    (hshort : pm.hsc.Short) (e : Event Hash Sig) :
    (pm.event config order e).Leaves fun pm' => BlocksOk config pm'.hsc ∧ LogOk config pm'.hsc := by
  cases he : e.call with
  | some c =>
    exact event_leaves (P := fun s => BlocksOk config s ∧ LogOk config s) he fun s hs =>
      ⟨HotStuffCore.call_blocksOk config hok hshort c s hs,
        HotStuffCore.call_logOk config hok hlog hshort c s hs⟩
  | none =>
    cases e with
    | on_propose cmds extra self_vote =>
      refine on_propose_leaves (HotStuffCore.kept_logOk config) (fun s vote hs s' hs' => ?_)
        (fun s' hs' => ?_) self_vote
      · exact ⟨hs.1.of_sameShape (HotStuffCore.on_receive_vote_sameShape config s vote s' hs'),
          hs.2.quiet hs.1.grounded (HotStuffCore.on_receive_vote_quiet config s vote s' hs')⟩
      · have hq := (HotStuffCore.store_proposed_quiet config pm.hsc cmds pm.hqc_tail [] extra).trans
          (HotStuffCore.on_deliver_blk_quiet _ _ s' hs')
        exact ⟨HotStuffCore.deliver_proposed_blocksOk hok hshort cmds pm.hqc_tail [] extra s' hs',
          hlog.quiet hok.grounded hq⟩
    | _ => cases he

/-- The step is in order, chains are shorter than 2^32, no committable block conflicts with the
last commit, and the tail keeps up. -/
structure InStep (config : Config Hash Sig) (pm : PMHighTail Hash Sig) (e : Event Hash Sig) :
    Prop where
  orderly : pm.Orderly e
  short : pm.hsc.Short
  no_fork : NoFork config pm.hsc
  keeps_up : pm.KeepsUp config e

/-- A step that is otherwise in order leaves a tail that is high enough just when it keeps up. -/
theorem Poised.high_iff (hc : config.CollisionFree) (h : Poised config pm) {e : Event Hash Sig}
    (ho : pm.Orderly e) (hshort : pm.hsc.Short) (hfork : NoFork config pm.hsc) :
    (pm.event config order e).Leaves fun pm' => pm'.High ↔ pm.KeepsUp config e := by
  have hquiet : ∀ {f : HotStuffCore Hash Sig → Outcome (HotStuffCore Hash Sig)},
      ((f pm.hsc).Leaves fun s => Grows pm.hsc s ∧ s.vheight = pm.hsc.vheight ∧
        s.hqc = pm.hsc.hqc) → (pm.run order f).Leaves fun pm' => pm'.High ↔ True := fun hf =>
    (h.quiet_high hf).mono fun _ hhigh => iff_true_intro hhigh
  cases e with
  | add_blk data =>
    refine hquiet (f := (·.call config (.add_blk data))) fun s hs => ?_
    have hg := HotStuffCore.call_grows config pm.hsc (.add_blk data) s hs
    obtain rfl := Option.some.inj hs
    exact ⟨hg, rfl, rfl⟩
  | on_deliver_blk blk =>
    exact hquiet fun s hs => ⟨HotStuffCore.on_deliver_blk_grows pm.hsc blk s hs,
      HotStuffCore.on_deliver_blk_vheight pm.hsc blk s hs,
      (HotStuffCore.on_deliver_blk_sameVotes pm.hsc blk s hs).1⟩
  | on_propose cmds extra self_vote =>
    obtain ⟨pm', hpm'⟩ := h.on_propose_ok hc hshort hfork order cmds extra self_vote
    have hevent : pm.event config order (.on_propose cmds extra self_vote) = .ok pm' := hpm'
    rw [hevent, Outcome.leaves_ok]
    exact iff_of_true (on_propose_high hpm') trivial
  | on_receive_proposal prop => exact h.proposal_high_iff hfork ho
  | on_receive_vote vote => exact h.vote_high_iff vote
  | set_vote_disabled f =>
    exact hquiet (f := (·.call config (.set_vote_disabled f))) fun s hs => by
      obtain rfl := Option.some.inj hs
      exact ⟨Grows.refl pm.hsc, rfl, rfl⟩

theorem Poised.event (hc : config.CollisionFree) (h : Poised config pm) {e : Event Hash Sig}
    (he : InStep config pm e) : (pm.event config order e).Leaves (Poised config) := by
  intro pm' hpm'
  obtain ⟨hblocks, hlog⟩ := event_logOk h.blocks h.log he.short e pm' hpm'
  exact ⟨h.order.event hc he.orderly pm' hpm', hblocks, hlog,
    (h.high_iff hc he.orderly he.short he.no_fork pm' hpm').mpr he.keeps_up⟩

theorem init_poised (config : Config Hash Sig) (id : ReplicaID) :
    Poised config (init config id) where
  order := ⟨HotStuffCore.on_init_tidy config id, init_follows config id⟩
  blocks := HotStuffCore.on_init_blocksOk config id
  log := HotStuffCore.on_init_logOk config id
  high := Nat.zero_le _

theorem Poised.of_runs (hc : config.CollisionFree) {id : ReplicaID}
    (h : Runs (step config order) (InStep config) (init config id) pm) : Poised config pm :=
  h.keeps (init_poised config id) fun _ _ _ hpm he hs => hpm.event hc he _ hs

/-! ## Before the first commit -/

/-- A step that is in order and keeps up, before the first commit, other than `on_propose`. -/
structure BeforeCommit (config : Config Hash Sig) (pm : PMHighTail Hash Sig)
    (e : Event Hash Sig) : Prop where
  orderly : pm.Orderly e
  keeps_up : pm.KeepsUp config e
  exec : pm.hsc.b_exec = config.b0
  call : e.call.isSome

instance (pm : PMHighTail Hash Sig) (e : Event Hash Sig) : Decidable (BeforeCommit config pm e) :=
  decidable_of_iff (pm.Orderly e ∧ pm.KeepsUp config e ∧ pm.hsc.b_exec = config.b0 ∧ e.call.isSome)
    ⟨fun h => ⟨h.1, h.2.1, h.2.2.1, h.2.2.2⟩, fun h => ⟨h.1, h.2, h.3, h.4⟩⟩

/-- A list of fewer than 2^32 such events is a run in step. -/
theorem runs_of_play_before_commit (hc : config.CollisionFree) {id : ReplicaID}
    {es : List (Event Hash Sig)} (hes : es.length + 1 < 2 ^ 32)
    (h : transitions.play (step config order) (BeforeCommit config) (init config id) es = some pm) :
    Runs (step config order) (InStep config) (init config id) pm ∧ Poised config pm ∧
      pm.hsc.Short := by
  have hstep : ∀ k pm e pm', k < es.length → Poised config pm ∧ pm.hsc.Low config k →
      BeforeCommit config pm e → step config order pm e = some pm' →
        InStep config pm e ∧ Poised config pm' ∧ pm'.hsc.Low config (k + 1) := by
    rintro k pm e pm' hk ⟨hpoised, hlow⟩ ho hs
    have hin : InStep config pm e := ⟨ho.orderly, hlow.short (by omega),
      HotStuffCore.noFork_of_genesis hpoised.order.tidy hpoised.blocks ho.exec, ho.keeps_up⟩
    obtain ⟨c, hcall⟩ := Option.isSome_iff_exists.mp ho.call
    exact ⟨hin, hpoised.event hc hin pm' hs,
      event_leaves hcall (fun s => hlow.call (by omega) c) pm' hs⟩
  obtain ⟨hrun, hpoised, hlow⟩ := Runs.of_play_keeping
    (P := fun k pm => Poised config pm ∧ pm.hsc.Low config k) hstep (Nat.zero_add _).le
    ⟨init_poised config id, HotStuffCore.low_init config id⟩ h
  exact ⟨hrun, hpoised, hlow.short (by omega)⟩

/-! ## Proposing -/

/-- As long as the tail keeps up, the replica can propose. After a step with which it does not, the
replica cannot. -/
theorem a_replica_can_propose_as_long_as_its_tail_keeps_up (hc : config.CollisionFree)
    (order : TailOrder Hash) (id : ReplicaID)
    (h : Runs (step config order) (InStep config) (init config id) pm) (hshort : pm.hsc.Short)
    (hfork : NoFork config pm.hsc) :
    (∀ cmds extra self_vote,
      ∃ pm', pm.on_propose config order cmds extra self_vote = .ok pm') ∧
    ∀ e, pm.Orderly e → ¬ pm.KeepsUp config e →
      (pm.event config order e).Leaves fun pm' => ∀ cmds extra self_vote,
        ¬ ∃ pm'', pm'.on_propose config order cmds extra self_vote = .ok pm'' := by
  have hpoised := Poised.of_runs hc h
  refine ⟨hpoised.on_propose_ok hc hshort hfork order, ?_⟩
  intro e ho hlow pm' hpm' cmds extra self_vote hok
  have hhigh := mt (hpoised.high_iff hc ho hshort hfork pm' hpm').mp hlow
  have hlt := (((hpoised.order.event hc ho pm' hpm').on_propose_ok_iff hc).mp hok).1
  have hmod := Nat.mod_le (pm'.hsc.height pm'.hqc_tail + 1) (2 ^ 32)
  exact hhigh (Nat.lt_succ_iff.mp (hlt.trans_le hmod))

/-- Replica 0 gets two blocks in a row and then proposes. -/
theorem the_third_block_in_a_row_is_proposed :
    ∃ pm, Runs (step (coded_replicas false) ascending) (InStep (coded_replicas false))
        (init (coded_replicas false) 0) pm ∧
      pm.get_parents = [chain_code 2] ∧ pm.hsc.vheight = 2 ∧ ∀ cmds extra self_vote,
        ∃ pm', pm.on_propose (coded_replicas false) ascending cmds extra self_vote = .ok pm' := by
  have hend : (transitions.play (step (coded_replicas false) ascending)
      (BeforeCommit (coded_replicas false)) (init (coded_replicas false) 0) two_in_a_row).map
        (fun pm => (pm.get_parents, pm.hsc.vheight, pm.hsc.b_exec)) =
      some ([chain_code 2], 2, (coded_replicas false).b0) := by
    decide +kernel
  obtain ⟨pm, hpm, hstate⟩ := Option.map_eq_some_iff.mp hend
  obtain ⟨htail, hv, hexec⟩ : _ ∧ _ ∧ _ := by simpa only [Prod.mk.injEq] using hstate
  obtain ⟨hrun, hpoised, hshort⟩ := runs_of_play_before_commit (coded_collisionFree false)
    (by decide) hpm
  have hfork := HotStuffCore.noFork_of_genesis hpoised.order.tidy hpoised.blocks hexec
  exact ⟨pm, hrun, htail, hv, (a_replica_can_propose_as_long_as_its_tail_keeps_up
    (coded_collisionFree false) ascending 0 hrun hshort hfork).1⟩

/-- Block number `i` of a branch with the certificate of genesis. Genesis is number 0. -/
def low_code : ℕ → ℕ
  | 0 => 0
  | i + 1 => block_code (coded_block (low_code i) 0 1)

/-- A branch of three blocks comes after two in a row. -/
def overtaking_blocks : List (BlockData ℕ (ReplicaID × ℕ)) :=
  [chain_block 0, chain_block 1] ++ [0, 1, 2].map fun i => coded_block (low_code i) 0 1

/-- Replica 0 votes for the longer branch, as its lock is still genesis, and its tail stays above
the certified block: the next block is stored, delivered and put in the tails, and is too low. -/
theorem a_longer_branch_keeps_a_replica_from_proposing :
    (∀ data ∈ overtaking_blocks,
      (Block.unserialize data).verify (coded_replicas false) = some true) ∧
    ∃ pm, Runs (step (coded_replicas false) ascending) Orderly (init (coded_replicas false) 0) pm ∧
      (pm.hsc.vheight, pm.get_parents, pm.hsc.b_lock) = (3, [chain_code 2], 0) ∧
      ∃ pm', pm.on_propose (coded_replicas false) ascending [7] [] true =
          .throw pm' .not_higher_than_vheight ∧
        let bnew := block_code (coded_block (chain_code 2) (chain_code 1) 7)
        pm'.hsc.delivered bnew = true ∧ bnew ∈ pm'.hsc.tails := by
  have hend : (transitions.play (step (coded_replicas false) ascending) Orderly
      (init (coded_replicas false) 0) (overtaking_blocks.flatMap proposed_by_1)).map (fun pm =>
        ((pm.hsc.vheight, pm.get_parents, pm.hsc.b_lock),
          match pm.on_propose (coded_replicas false) ascending [7] [] true with
          | .throw pm' what =>
            let bnew := block_code (coded_block (chain_code 2) (chain_code 1) 7)
            some (what, pm'.hsc.delivered bnew, decide (bnew ∈ pm'.hsc.tails))
          | _ => none)) =
      some ((3, [chain_code 2], 0), some (.not_higher_than_vheight, true, true)) := by
    decide +kernel
  obtain ⟨pm, hpm, hstate⟩ := Option.map_eq_some_iff.mp hend
  obtain ⟨hread, hpropose⟩ := Prod.mk.inj hstate
  refine ⟨by decide +kernel, pm, Runs.of_play hpm, hread, ?_⟩
  split at hpropose
  · rename_i pm' what hthrow
    simp only [Option.some.injEq, Prod.mk.injEq, decide_eq_true_eq] at hpropose
    obtain ⟨rfl, hd, htails⟩ := hpropose
    exact ⟨pm', hthrow, hd, htails⟩
  · cases hpropose

end PMHighTail

end general_hotstuff
