-- `update` throws `safety breached` when the block to commit is not on the chain above
-- `b_exec`. While the secured blocks lie on one chain, no call throws it, and none comes to the
-- message of the exception.
import GeneralHotStuff.NodeCalls

namespace general_hotstuff

open quorums (ReplicaID)

namespace Outcome

variable {σ : Type}

/-- The call does not throw `what`. -/
def Spares (o : Outcome σ) (what : Fault) : Prop := ∀ s, o ≠ throw s what

@[simp] theorem spares_ok {s : σ} {what : Fault} : (ok s).Spares what := fun _ h => by cases h

@[simp] theorem spares_undefined {what : Fault} : (undefined : Outcome σ).Spares what :=
  fun _ h => by cases h

@[simp] theorem spares_throw {s : σ} {what what' : Fault} :
    (throw s what').Spares what ↔ what' ≠ what := by
  simp [Spares]

theorem Spares.andThen {o : Outcome σ} {f : σ → Outcome σ} {what : Fault} (h : o.Spares what)
    (hf : ∀ s, o = ok s → (f s).Spares what) : (o.andThen f).Spares what := by
  cases o with
  | ok s => exact hf s rfl
  | throw s what' => exact h
  | undefined => exact spares_undefined

end Outcome

variable {Hash Sig : Type}

/-- The secured blocks lie on one chain. -/
def Linear (config : Config Hash Sig) (correct : ReplicaID → Prop)
    (votes : List (ReplicaID × Hash)) : Prop :=
  ∀ b b' n n', Secured config correct votes b → config.Depth b n →
    Secured config correct votes b' → config.Depth b' n' →
      config.Above b b' ∨ config.Above b' b

namespace HotStuffCore

variable {config : Config Hash Sig} {correct : ReplicaID → Prop} {r : ReplicaID}
  {votes : List (ReplicaID × Hash)} {s s' : HotStuffCore Hash Sig}

/-! ## Calls of update that return -/

theorem BlocksOk.above_of_content (hok : BlocksOk config s) (hc : config.CollisionFree)
    {x y : Hash} (hd : s.delivered x = true) (h : config.Above x y) : s.above x y := by
  induction h with
  | refl => exact .refl
  | tail _ hp ih =>
    exact ih.tail (hok.parents_of_parent hc (hok.above_of_above hd ih).2 hp)

theorem NodeOk.descending (h : NodeOk config correct r votes s) : s.Descending := by
  intro x hx
  have hd := h.delivered_of_height hx
  obtain ⟨p, -, hp, -⟩ := h.blocks.refs_of_height hd hx
  exact ⟨p, hp, h.blocks.height_parent hd hp⟩

theorem NodeOk.not_orphaned (h : NodeOk config correct r votes s) : ¬ s.Orphaned := by
  rintro ⟨x, hdec, hpar, hq⟩
  obtain ⟨q, hq⟩ := Option.isSome_iff_exists.mp hq
  obtain ⟨b, hb, hbd⟩ := exists_of_delivered (h.delivered_of_qc_ref hq)
  have hne : x ≠ config.b0 := by
    intro heq
    rw [heq, (h.log.decided config.b0).mpr (.inl rfl)] at hdec
    cases hdec
  obtain ⟨p, ps, -, hps, -⟩ := (h.blocks.law x b hne hb).linked hbd
  rw [parents_eq hb, hps] at hpar
  cases hpar

variable [DecidableEq Hash]

/-- An undecided secured block is above `b_exec`, and the commit loop reaches it. -/
theorem NodeOk.update_ok (hc : config.CollisionFree) (h : NodeOk config correct r votes s)
    (hlin : Linear config correct votes) {nblk : Hash} (hd : s.delivered nblk = true) :
    ∃ s', s.update config nblk = .ok s' := by
  refine h.log.update_ok_of_above h.blocks h.descending h.not_orphaned hd fun blk1 blk hcom => ?_
  have hblk := h.blocks.parent_delivered hcom.parent
  have hexec := h.log.exec_delivered h.blocks.grounded
  exact (hlin blk s.b_exec _ _ (.inr (h.guarded_of_commits hcom))
    (h.blocks.depth_of_delivered hblk) h.secured (h.blocks.depth_of_delivered hexec)).imp
      (h.blocks.above_of_content hc hblk) (h.blocks.above_of_content hc hexec)

theorem NodeOk.update_spares (hc : config.CollisionFree) (h : NodeOk config correct r votes s)
    (hlin : Linear config correct votes) {nblk : Hash} (hd : s.delivered nblk = true) :
    (s.update config nblk).Spares .safety_breached := by
  obtain ⟨s', hs'⟩ := h.update_ok hc hlin hd
  exact hs' ▸ Outcome.spares_ok

/-! ## Calls -/

theorem vote_on_spares (config : Config Hash Sig) (s : HotStuffCore Hash Sig)
    (prop : Proposal Hash) (what : Fault) : (s.vote_on config prop).Spares what := by
  rcases vote_on_cases config prop s with ⟨-, h⟩ | h | ⟨-, h⟩
  · exact h ▸ Outcome.spares_undefined
  · exact h ▸ Outcome.spares_ok
  · exact h ▸ Outcome.spares_ok

theorem on_deliver_blk_spares (s : HotStuffCore Hash Sig) (blk : Hash) :
    (s.on_deliver_blk blk).Spares .safety_breached := by
  unfold on_deliver_blk
  split
  · exact Outcome.spares_undefined
  split
  · exact Outcome.spares_ok
  · dsimp only
    split
    · simp
    split
    · exact Outcome.spares_undefined
    split
    · exact Outcome.spares_ok
    · simp

theorem on_receive_vote_spares (config : Config Hash Sig) (s : HotStuffCore Hash Sig)
    (vote : Vote Hash Sig) : (s.on_receive_vote config vote).Spares .safety_breached := by
  rcases on_receive_vote_cases config vote s with h | h | ⟨b, -, -, -, -, h⟩
  · simp [h]
  · simp [h]
  · generalize s.on_receive_vote config vote = o at h ⊢
    cases h with
    | mismatch => simp
    | collected => simp
    | computed => simp

theorem NodeOk.on_receive_proposal_spares (hc : config.CollisionFree)
    (h : NodeOk config correct r votes s) (hlin : Linear config correct votes)
    (prop : Proposal Hash) :
    (s.on_receive_proposal config prop).Spares .safety_breached := by
  unfold HotStuffCore.on_receive_proposal
  split
  · exact vote_on_spares config s prop _
  · split
    · rename_i hd
      exact (h.update_spares hc hlin hd).andThen fun s1 _ => vote_on_spares config s1 prop _
    · simp

theorem NodeOk.on_propose_spares (hc : config.CollisionFree) (h : NodeOk config correct r votes s)
    (hlin : Linear config correct votes) (hshort : s.Short) (cmds parents : List Hash)
    (extra : List UInt8) (hps : ∀ y ∈ parents, s.delivered y = true) :
    (s.on_propose config cmds parents extra).Spares .safety_breached := by
  cases parents with
  | nil => simp [HotStuffCore.on_propose]
  | cons p ps =>
    simp only [HotStuffCore.on_propose]
    generalize hx : config.get_hash (s.proposed cmds (p :: ps) extra) = x
    obtain ⟨b, t, hdel, h1, -⟩ := h.deliver_proposed hc hshort hps cmds extra hx
    have hxd := delivered_of_on_deliver_blk hdel
    rw [hdel]
    generalize { s.put x b with tails := t } = s1 at h1 hxd
    rw [Outcome.andThen]
    refine (h1.update_spares hc hlin hxd).andThen fun s2 hs2 => ?_
    have h2 := (h1.update hc hxd) s2 (by rw [hs2]; rfl)
    split
    · simp
    · exact (h2.1.on_receive_proposal_spares hc hlin _).andThen fun s3 _ => Outcome.spares_ok

/-- No call that can occur throws `safety breached`. -/
theorem NodeOk.call_spares (hc : config.CollisionFree) {w : World Hash Sig}
    (h : NodeOk config correct r w.votes (w.core r)) (hlin : Linear config correct w.votes)
    (hshort : (w.core r).Short) {c : Call Hash Sig} (he : w.Enabled config correct r c) :
    ((w.core r).call config c).Spares .safety_breached := by
  cases c with
  | add_blk data => exact Outcome.spares_ok
  | on_deliver_blk blk => exact on_deliver_blk_spares (w.core r) blk
  | on_propose cmds parents extra => exact h.on_propose_spares hc hlin hshort cmds parents extra he
  | on_receive_proposal prop => exact h.on_receive_proposal_spares hc hlin prop
  | on_receive_vote vote => exact on_receive_vote_spares config (w.core r) vote
  | set_vote_disabled f => exact Outcome.spares_ok

/-! ## Calls that have an outcome -/

theorem NodeOk.update_defined (h : NodeOk config correct r votes s) {nblk : Hash}
    (hd : s.delivered nblk = true) : (s.update config nblk).Defined :=
  h.log.update_defined h.blocks h.descending h.not_orphaned hd

theorem NodeOk.on_receive_proposal_defined (hc : config.CollisionFree)
    (h : NodeOk config correct r votes s) (prop : Proposal Hash) :
    (s.on_receive_proposal config prop).Defined := by
  unfold HotStuffCore.on_receive_proposal
  split
  · exact h.descending.vote_on_defined config prop
  · split
    · rename_i hd
      refine (h.update_defined hd).andThen fun s1 hs1 => ?_
      have h1 := (h.update hc hd) s1 (by rw [hs1]; rfl)
      exact h1.1.descending.vote_on_defined config prop
    · trivial

theorem NodeOk.on_propose_defined (hc : config.CollisionFree)
    (h : NodeOk config correct r votes s) (hshort : s.Short) (cmds parents : List Hash)
    (extra : List UInt8) (hps : ∀ y ∈ parents, s.delivered y = true) :
    (s.on_propose config cmds parents extra).Defined := by
  cases parents with
  | nil => trivial
  | cons p ps =>
    simp only [HotStuffCore.on_propose]
    generalize hx : config.get_hash (s.proposed cmds (p :: ps) extra) = x
    obtain ⟨b, t, hdel, h1, -⟩ := h.deliver_proposed hc hshort hps cmds extra hx
    have hxd := delivered_of_on_deliver_blk hdel
    rw [hdel]
    generalize { s.put x b with tails := t } = s1 at h1 hxd
    rw [Outcome.andThen]
    refine (h1.update_defined hxd).andThen fun s2 hs2 => ?_
    have h2 := (h1.update hc hxd) s2 (by rw [hs2]; rfl)
    split
    · trivial
    · exact (h2.1.on_receive_proposal_defined hc _).andThen fun _ _ => trivial

/-- Of the calls that can occur, only a delivery can read the first element of an empty list. -/
theorem NodeOk.call_defined (hc : config.CollisionFree) {w : World Hash Sig}
    (h : NodeOk config correct r w.votes (w.core r)) (hshort : (w.core r).Short)
    {c : Call Hash Sig} (he : w.Enabled config correct r c)
    (hne : ∀ blk, c ≠ .on_deliver_blk blk) : ((w.core r).call config c).Defined := by
  cases c with
  | add_blk data => trivial
  | on_deliver_blk blk => exact absurd rfl (hne blk)
  | on_propose cmds parents extra => exact h.on_propose_defined hc hshort cmds parents extra he
  | on_receive_proposal prop => exact h.on_receive_proposal_defined hc prop
  | on_receive_vote vote => exact on_receive_vote_defined config (w.core r) vote
  | set_vote_disabled f => trivial

end HotStuffCore

end general_hotstuff
