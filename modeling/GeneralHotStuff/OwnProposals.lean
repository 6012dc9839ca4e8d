-- One call of `on_propose` of `PaceMakerDummyFixed`: a block that is new to the replica gets
-- the vote of the replica alone, so that the call resolves no other beat, and it leaves the
-- next beat waiting for the certificate of the block.
import GeneralHotStuff.ProposalHeights
import GeneralHotStuff.VoteCollection
import GeneralHotStuff.WaitQC

namespace general_hotstuff

open quorums (ReplicaID)

variable {Hash Sig : Type}

/-! ## Outcomes -/

namespace Outcome

variable {σ : Type} {P Q R : σ → Prop}

/-- `P` holds when the call returns, and `Q` when it throws. -/
def Ends (o : Outcome σ) (P Q : σ → Prop) : Prop :=
  match o with
  | ok s => P s
  | throw s _ => Q s
  | undefined => True

theorem Ends.mono {P' Q' : σ → Prop} {o : Outcome σ} (h : o.Ends P Q) (hP : ∀ s, P s → P' s)
    (hQ : ∀ s, Q s → Q' s) : o.Ends P' Q' := by
  cases o with
  | ok s => exact hP s h
  | throw s what => exact hQ s h
  | undefined => trivial

theorem Leaves.ends {o : Outcome σ} (h : o.Leaves P) (hQ : ∀ s, P s → Q s) :
    o.Ends (fun s => P s ∧ o = ok s) Q := by
  cases o with
  | ok s => exact ⟨leaves_ok.mp h, rfl⟩
  | throw s what => exact hQ s (leaves_throw.mp h)
  | undefined => trivial

theorem Ends.andThen {o : Outcome σ} {f : σ → Outcome σ} (h : o.Ends P Q)
    (hf : ∀ s, P s → (f s).Ends R Q) : (o.andThen f).Ends R Q := by
  cases o with
  | ok s => exact hf s h
  | throw s what => exact h
  | undefined => trivial

/-- What follows is the same wherever the call returns. -/
theorem Ends.andThen_same {o : Outcome σ} {f g : σ → Outcome σ} (h : o.Ends P Q)
    (hf : ∀ s, P s → f s = g s ∧ (f s).Ends R Q) :
    o.andThen f = o.andThen g ∧ (o.andThen f).Ends R Q := by
  cases o with
  | ok s => exact hf s h
  | throw s what => exact ⟨rfl, h⟩
  | undefined => exact ⟨rfl, trivial⟩

theorem Ends.leaves {o : Outcome σ} (h : o.Ends P Q) (hP : ∀ s, P s → R s)
    (hQ : ∀ s, Q s → R s) : o.Leaves R := by
  cases o with
  | ok s => exact leaves_ok.mpr (hP s h)
  | throw s what => exact leaves_throw.mpr (hQ s h)
  | undefined => exact leaves_undefined

end Outcome

/-- No replica is a quorum by itself. -/
def QuorumRule.NeedsTwo (rule : QuorumRule) : Prop :=
  ∀ A : Finset ReplicaID, A.card ≤ 1 → rule.isQuorum A = false

/-! ## The core by itself -/

namespace HotStuffCore

/-- The replica has a certificate for the block that verifies: it has computed one, or one is in
a block that it stores. -/
def HasQC [DecidableEq Hash] (config : Config Hash Sig) (s : HotStuffCore Hash Sig) (x : Hash) :
    Prop :=
  ∃ qc : QuorumCert Hash Sig, qc.obj_hash = x ∧ qc.verify config = some true ∧
    (qc ∈ s.certificates x ∨ ∃ y b, s.storage y = some b ∧ b.qc = qc)

variable [DecidableEq Hash]

structure CoreOk (config : Config Hash Sig) (id : ReplicaID) (s : HotStuffCore Hash Sig) :
    Prop where
  attached : Attached config s
  collecting : Collecting config s
  id : s.id = id

/-- Nobody but replica `id` has voted for block `x`. -/
def VotedAlone (id : ReplicaID) (x : Hash) (s : HotStuffCore Hash Sig) : Prop :=
  ∀ b, s.storage x = some b → b.voted ⊆ {id}

variable {config : Config Hash Sig} {id : ReplicaID} {s s' : HotStuffCore Hash Sig}

omit [DecidableEq Hash] in
theorem VotedAlone.of_sameVotes {x : Hash} (h : s.VotedAlone id x) (hv : SameVotes s s') :
    s'.VotedAlone id x := by
  intro b' hb'
  obtain ⟨b, hb, -, hvoted⟩ := hv.block hb'
  exact hvoted ▸ h b hb

/-- The voters on a block have become a quorum: its certificate was computed. -/
theorem CoreOk.hasQC_of_quorum (h : CoreOk config id s) (hbls : QuorumCert.Combines config)
    (htwo : config.rule.NeedsTwo) {x : Hash} (hx : x ≠ config.b0)
    (hq : config.rule.isQuorum ((s.storage x).elim ∅ (·.voted)) = true) : HasQC config s x := by
  have hempty : config.rule.isQuorum ∅ = false := htwo ∅ (by simp)
  cases hb : s.storage x with
  | none => simp [hb, hempty] at hq
  | some b =>
    rw [hb, Option.elim_some] at hq
    have hne : b.voted ≠ ∅ := by
      intro hv
      rw [hv, hempty] at hq
      cases hq
    have hone := h.collecting.count x b hx hb
    rw [if_pos ⟨hq, hne⟩] at hone
    obtain ⟨qc, hqc⟩ := List.length_eq_one_iff.mp hone
    have hmem : qc ∈ s.certificates x := by simp [hqc]
    obtain ⟨voted, qc0, hcol, hvoted, rfl⟩ := h.collecting.computed x qc hx hmem
    exact ⟨qc0.compute config, (QuorumCert.compute_obj_hash config qc0).trans hcol.obj_hash,
      hcol.verify_compute hbls hvoted, .inl hmem⟩

/-- A verified block that is delivered has the certificate for the block that it refers to. -/
theorem CoreOk.hasQC_of_verified (h : CoreOk config id s) {x y : Hash} {b : Block Hash Sig}
    (hb : s.storage y = some b) (hd : b.delivered = true) (hq : b.qc_ref = some x)
    (hx : x ≠ config.b0) (hver : b.verify config = some true) : HasQC config s x := by
  have hobj : b.qc.obj_hash = x := by
    rw [(h.attached.links.qc_ref_stored hb hd).1] at hq
    exact Option.some.inj hq
  unfold Block.verify at hver
  rw [if_neg (by rwa [hobj])] at hver
  exact ⟨b.qc, hobj, hver, .inr ⟨y, b, hb, rfl⟩⟩

/-! ### Calls -/

theorem CoreOk.of_advanced (h : CoreOk config id s) (hadv : Advanced config s s')
    (hcol : Collecting config s') : CoreOk config id s' :=
  ⟨hadv.core, hcol, hadv.id.trans h.id⟩

theorem CoreOk.update (h : CoreOk config id s) {blk : Hash} (hd : s.delivered blk = true) :
    (s.update config blk).Leaves fun s' => CoreOk config id s' ∧ SameVotes s s' ∧ Grows s s' := by
  intro s' hs'
  have hadv := (kept_advanced config s).update s blk h.attached.refl hd s' hs'
  exact ⟨h.of_advanced hadv (h.collecting.update blk s' hs'),
    update_sameVotes config s blk s' hs', hadv.grows⟩

theorem CoreOk.on_receive_vote (h : CoreOk config id s) {vote : Vote Hash Sig}
    (hv : Verified config vote) :
    (s.on_receive_vote config vote).Leaves (CoreOk config id) := fun s' hs' =>
  h.of_advanced (h.attached.on_receive_vote vote s' hs') (h.collecting.on_receive_vote hv s' hs')

theorem CoreOk.on_deliver_blk (h : CoreOk config id s) (blk : Hash) :
    (s.on_deliver_blk blk).Leaves (CoreOk config id) := fun s' hs' =>
  h.of_advanced (h.attached.on_deliver_blk blk s' hs') (h.collecting.on_deliver_blk blk s' hs')

theorem CoreOk.add_blk (h : CoreOk config id s) (data : BlockData Hash Sig) :
    (s.call config (.add_blk data)).Leaves (CoreOk config id) := fun s' hs' =>
  h.of_advanced (h.attached.add_blk data s' hs')
    (call_collecting config h.collecting (c := .add_blk data) trivial s' hs')

theorem CoreOk.set_vote_disabled (h : CoreOk config id s) (f : Bool) :
    (s.call config (.set_vote_disabled f)).Leaves (CoreOk config id) := fun s' hs' =>
  h.of_advanced (h.attached.set_vote_disabled f s' hs')
    (call_collecting config h.collecting (c := .set_vote_disabled f) trivial s' hs')

/-- Nothing that blocks and certificates depend on is written. -/
theorem CoreOk.frame (h : CoreOk config id s) (hst : s'.storage = s.storage) (hhqc : s'.hqc = s.hqc)
    (ht : s'.tails = s.tails) (hid : s'.id = s.id)
    (hc : ∀ x, s'.certificates x = s.certificates x) : CoreOk config id s' := by
  have hsh : SameShape s s' := .of_storage_eq hst
  have hv : SameVotes s s' := .of_storage_eq hst
  refine ⟨⟨(storedLaw_link config).of_sameShape hsh h.attached.links,
    h.attached.certs.frame hsh.grows hhqc hv, ?_⟩, h.collecting.frame hv hc, hid.trans h.id⟩
  intro x hx
  rw [ht] at hx
  exact hsh.grows.delivered (h.attached.tails x hx)

theorem CoreOk.broadcast (h : CoreOk config id s) (prop : Proposal Hash) :
    CoreOk config id { s with out := s.out ++ [.do_broadcast_proposal prop] } := by
  refine h.frame rfl rfl rfl rfl (certificates_append rfl fun x qc hx => ?_)
  cases List.mem_singleton.mp hx

/-- A new block, or one without voters, is proposed. -/
theorem CoreOk.deliver_proposed (h : CoreOk config id s) (cmds : List Hash) (p : Hash)
    (ps : List Hash) (extra : List UInt8)
    (hfresh : ∀ b, s.storage (config.get_hash (s.proposed cmds (p :: ps) extra)) = some b →
      b.voted = ∅) :
    ((s.store_proposed config cmds p ps extra).on_deliver_blk
      (config.get_hash (s.proposed cmds (p :: ps) extra))).Leaves fun s' =>
        CoreOk config id s' ∧
          s'.VotedAlone id (config.get_hash (s.proposed cmds (p :: ps) extra)) := by
  intro s' hs'
  have hstored : Collecting config (s.store_proposed config cmds p ps extra) :=
    h.collecting.store_proposed fun _ b hb => .inl (hfresh b hb)
  refine ⟨h.of_advanced (h.attached.deliver_proposed cmds p ps extra s' hs')
    (hstored.on_deliver_blk _ s' hs'), ?_⟩
  refine VotedAlone.of_sameVotes ?_ (on_deliver_blk_sameVotes _ _ s' hs').2
  intro b hb
  cases hold : s.storage (config.get_hash (s.proposed cmds (p :: ps) extra)) with
  | none =>
    rw [store_proposed_of_none hold] at hb
    have hb := (storage_put_self s _ _).symm.trans hb
    rw [Option.some.injEq] at hb
    rw [← hb]
    exact Finset.empty_subset _
  | some c =>
    rw [store_proposed_of_some hold] at hb
    have hb := (storage_put_self s _ _).symm.trans hb
    rw [Option.some.injEq] at hb
    have hvoted : b.voted = c.voted := by
      rw [← hb]
      rfl
    rw [hvoted, hfresh c hold]
    exact Finset.empty_subset _

/-- A vote that completes a quorum leaves a quorum of voters. -/
theorem quorum_of_completes {vote : Vote Hash Sig}
    (hc : PaceMakerDummyFixed.completes config vote s = true)
    (ho : s.on_receive_vote config vote = .ok s') :
    config.rule.isQuorum ((s'.storage vote.blk_hash).elim ∅ (·.voted)) = true := by
  unfold PaceMakerDummyFixed.completes at hc
  rw [Option.any_eq_true] at hc
  obtain ⟨b, hb, hc⟩ := hc
  simp only [Bool.and_eq_true, Bool.not_eq_true', decide_eq_true_eq] at hc
  obtain ⟨⟨⟨hd, hq⟩, hnew⟩, hbecomes⟩ := hc
  have hquorum := config.rule.becomesQuorum_eq hnew hq
  simp only [HotStuffCore.on_receive_vote, hb] at ho
  rw [if_neg (by simp [hd]), if_neg (by simp [hq]), if_neg hnew] at ho
  split at ho
  · cases ho
  · rw [if_pos hbecomes, Outcome.ok.injEq] at ho
    rw [← ho, update_hqc_eq]
    simp [modify, EntityStorage.modify, hb, ← hquorum, hbecomes]

omit [DecidableEq Hash] in
/-- The first vote on a block does not make a quorum. -/
theorem not_completes (htwo : config.rule.NeedsTwo) {vote : Vote Hash Sig}
    (h : s.VotedAlone vote.voter vote.blk_hash) :
    PaceMakerDummyFixed.completes config vote s = false := by
  by_contra hc
  unfold PaceMakerDummyFixed.completes at hc
  rw [Bool.not_eq_false, Option.any_eq_true] at hc
  obtain ⟨b, hb, hc⟩ := hc
  simp only [Bool.and_eq_true, Bool.not_eq_true', decide_eq_true_eq] at hc
  obtain ⟨⟨⟨-, hq⟩, hnew⟩, hbecomes⟩ := hc
  have hone : (insert vote.voter b.voted).card ≤ 1 :=
    (Finset.card_le_card (Finset.insert_subset (Finset.mem_singleton_self _) (h b hb))).trans
      (Finset.card_singleton _).le
  rw [config.rule.becomesQuorum_eq hnew hq, htwo _ hone] at hbecomes
  cases hbecomes

theorem VotedAlone.on_receive_vote {vote : Vote Hash Sig}
    (h : s.VotedAlone vote.voter vote.blk_hash) :
    (s.on_receive_vote config vote).Leaves (VotedAlone vote.voter vote.blk_hash) := by
  rcases on_receive_vote_cases config vote s with ho | ho | ⟨b, hb, -, -, -, ho⟩
  · exact ho ▸ Outcome.leaves_throw.mpr h
  · exact ho ▸ Outcome.leaves_ok.mpr h
  have hput : ∀ qc (s' : HotStuffCore Hash Sig), s'.storage = (s.put vote.blk_hash
      { b with voted := insert vote.voter b.voted, self_qc := qc }).storage →
      s'.VotedAlone vote.voter vote.blk_hash := by
    intro qc s' hs' c hc
    rw [hs', storage_put_self, Option.some.injEq] at hc
    rw [← hc]
    exact Finset.insert_subset (Finset.mem_singleton_self _) (h b hb)
  generalize s.on_receive_vote config vote = o at ho ⊢
  cases ho with
  | mismatch => exact Outcome.leaves_throw.mpr (hput _ _ rfl)
  | collected => exact Outcome.leaves_ok.mpr (hput _ _ rfl)
  | computed => exact Outcome.leaves_ok.mpr (hput _ _ rfl)

omit [DecidableEq Hash] in
theorem VotedAlone.not_quorum (htwo : config.rule.NeedsTwo) {x : Hash} (h : s.VotedAlone id x) :
    config.rule.isQuorum ((s.storage x).elim ∅ (·.voted)) = false := by
  apply htwo
  cases hb : s.storage x with
  | none => simp
  | some b => exact (Finset.card_le_card (h b hb)).trans (Finset.card_singleton id).le

end HotStuffCore

/-- The block is new: the replica has not proposed it before, and has counted no vote for it. -/
def ProposeCall.Fresh (p : ProposeCall Hash Sig) : Prop :=
  p.blk ∉ p.earlier ∧ ∀ b ∈ p.hsc.storage p.blk, b.voted = ∅

namespace PaceMakerDummyFixed

open HotStuffCore (CoreOk HasQC VotedAlone)

variable [DecidableEq Hash] {config : Config Hash Sig} {order : TailOrder Hash} {id : ReplicaID}
  {s s' s0 : PaceMakerDummyFixed Hash Sig}

/-! ## One proposal after the other -/

/-- Every call of `on_propose` made a new block. -/
def AllFresh (s : PaceMakerDummyFixed Hash Sig) : Prop := ∀ p ∈ s.proposals, p.Fresh

/-- Each block was proposed when the replica had a certificate for the one before it. -/
def Certified (config : Config Hash Sig) (l : List (ProposeCall Hash Sig)) : Prop :=
  l.IsChain fun p q => HasQC config q.hsc p.blk

/-- The block of the last call, genesis when there is none. -/
def last_blk (config : Config Hash Sig) (l : List (ProposeCall Hash Sig)) : Hash :=
  l.getLast?.elim config.b0 (·.blk)

/-- The beats that wait for the certificate of the last own block. -/
def awaiting (s : PaceMakerDummyFixed Hash Sig) : List (Beat Hash) :=
  match s.qc_waiting s.last_proposed with
  | some (.pending beats) => beats
  | _ => []

/-- What holds at every moment, also inside of callbacks. -/
structure Base (config : Config Hash Sig) (id : ReplicaID) (s : PaceMakerDummyFixed Hash Sig) :
    Prop where
  core : CoreOk config id s.hsc
  listens : s.pm_wait_propose = true
  ne_b0 : ∀ p ∈ s.proposals, p.blk ≠ config.b0
  certified : Certified config s.proposals

/-- The replica between two events: at most one beat waits for the certificate of the last own
block, the others wait behind it, and all before it are resolved. -/
structure Inv (config : Config Hash Sig) (id : ReplicaID) (s : PaceMakerDummyFixed Hash Sig) :
    Prop extends Base config id s where
  only : ∀ x p, s.qc_waiting x = some p → x = s.last_proposed ∧ s.locked = true
  single : s.awaiting.length ≤ 1
  numbers : s.resolved ++ (s.awaiting ++ s.pending_beats).map (·.number) = List.range s.requested
  held : s.locked = false → s.pending_beats = []
  last : s.locked = false ∨ s.awaiting ≠ [] → last_blk config s.proposals = s.last_proposed

/-- The invariant holds as long as the replica proposes new blocks. -/
def Good (config : Config Hash Sig) (id : ReplicaID) (s : PaceMakerDummyFixed Hash Sig) : Prop :=
  s.AllFresh → Inv config id s

/-- The replica when a beat is resolved: it has a certificate for its last block. -/
structure Ready (config : Config Hash Sig) (id : ReplicaID) (s : PaceMakerDummyFixed Hash Sig) :
    Prop extends Base config id s where
  locked : s.locked = true
  only : ∀ x p, s.qc_waiting x = some p → x = s.last_proposed ∧ p = .fulfilled
  numbers : s.resolved ++ s.pending_beats.map (·.number) = List.range s.requested
  last : last_blk config s.proposals = s.last_proposed
  qc : s.proposals ≠ [] → HasQC config s.hsc s.last_proposed

/-- The replica inside of `on_propose`, up to `on_propose_`. At the call it was `s0`. -/
structure Proposing (config : Config Hash Sig) (id : ReplicaID) (bnew : Hash)
    (s0 s : PaceMakerDummyFixed Hash Sig) : Prop extends Base config id s where
  last_eq : s.last_proposed = s0.last_proposed
  waiting_eq : s.qc_waiting = s0.qc_waiting
  locked : s.locked = true
  only : ∀ x p, s.qc_waiting x = some p → x = s.last_proposed ∧ p = .fulfilled
  numbers : s.resolved ++ s.pending_beats.map (·.number) = List.range s.requested
  last : last_blk config s.proposals = bnew
  ne : bnew ≠ s.last_proposed
  voted : s.hsc.VotedAlone id bnew

/-- What `on_propose` leaves of the replica, apart from the promise of the block before. -/
def Proposed (config : Config Hash Sig) (id : ReplicaID) (s s' : PaceMakerDummyFixed Hash Sig) :
    Prop :=
  Inv config id (s'.set_promise s.last_proposed none) ∧
    s'.qc_waiting s.last_proposed = s.qc_waiting s.last_proposed

omit [DecidableEq Hash] in
theorem awaiting_of_only
    (h : ∀ x p, s.qc_waiting x = some p → x = s.last_proposed ∧ p = .fulfilled) :
    s.awaiting = [] := by
  unfold awaiting
  split
  · rename_i beats hp
    cases (h _ _ hp).2
  · rfl

/-- Where `on_propose` throws before `on_propose_`, the lock stays. -/
theorem Proposing.inv {bnew : Hash} (h : Proposing config id bnew s0 s) : Inv config id s := by
  have hnil : s.awaiting = [] := awaiting_of_only h.only
  refine ⟨h.toBase, fun x p hp => ⟨(h.only x p hp).1, h.locked⟩, ?_, ?_, ?_, ?_⟩
  · simp [hnil]
  · rw [hnil, List.nil_append]
    exact h.numbers
  · intro hl
    rw [h.locked] at hl
    cases hl
  · rintro (hl | hne)
    · rw [h.locked] at hl
      cases hl
    · exact absurd hnil hne

theorem Base.congr (h : Base config id s) (hc : CoreOk config id s'.hsc)
    (hl : s'.pm_wait_propose = true) (hp : s'.proposals = s.proposals) : Base config id s' :=
  ⟨hc, hl, hp ▸ h.ne_b0, hp ▸ h.certified⟩

theorem Base.last_ne_b0 (h : Base config id s) (hne : s.proposals ≠ []) :
    last_blk config s.proposals ≠ config.b0 := by
  rw [last_blk, List.getLast?_eq_some_getLast hne]
  exact h.ne_b0 _ (List.getLast_mem hne)

theorem Inv.of_idle (h : Base config id s) (hnone : ∀ x, s.qc_waiting x = none)
    (hp : s.pending_beats = []) (hn : s.resolved = List.range s.requested)
    (hl : last_blk config s.proposals = s.last_proposed) : Inv config id s := by
  have hnil : s.awaiting = [] := by simp [awaiting, hnone]
  refine ⟨h, ?_, ?_, ?_, fun _ => hp, fun _ => hl⟩
  · intro x p hx
    rw [hnone] at hx
    cases hx
  · simp [hnil]
  · simp [hnil, hp, hn]

/-- Nothing waits while the lock is open. -/
theorem Inv.unlocked (h : Inv config id s) (hl : s.locked = false) :
    (∀ x, s.qc_waiting x = none) ∧ s.pending_beats = [] ∧ s.resolved = List.range s.requested := by
  have hnone : ∀ x, s.qc_waiting x = none := by
    intro x
    by_contra hne
    obtain ⟨p, hp⟩ := Option.ne_none_iff_exists'.mp hne
    rw [(h.only x p hp).2] at hl
    cases hl
  have hp := h.held hl
  exact ⟨hnone, hp, by simpa [awaiting, hnone, hp] using h.numbers⟩

theorem Inv.of_waits (h : Base config id s) {b : Beat Hash}
    (hw : s.qc_waiting s.last_proposed = some (.pending [b]))
    (hother : ∀ x, x ≠ s.last_proposed → s.qc_waiting x = none) (hlock : s.locked = true)
    (hn : s.resolved ++ b.number :: s.pending_beats.map (·.number) = List.range s.requested)
    (hl : last_blk config s.proposals = s.last_proposed) : Inv config id s := by
  have hone : s.awaiting = [b] := by simp [awaiting, hw]
  refine ⟨h, ?_, ?_, ?_, ?_, fun _ => hl⟩
  · intro x p hx
    refine ⟨?_, hlock⟩
    by_contra hne
    rw [hother x hne] at hx
    cases hx
  · simp [hone]
  · simp [hone, hn]
  · intro hl
    rw [hlock] at hl
    cases hl

/-- A promise without a beat is erased. -/
theorem Inv.erase (h : Inv config id s) (hnil : s.awaiting = []) :
    Inv config id (s.set_promise s.last_proposed none) := by
  have hnil' : (s.set_promise s.last_proposed none).awaiting = [] := by
    simp [awaiting, set_promise]
  refine ⟨h.toBase.congr h.core h.listens rfl, ?_, ?_, ?_, h.held, ?_⟩
  · intro x p hx
    by_cases hxl : x = s.last_proposed
    · simp [set_promise, hxl] at hx
    · exact absurd (h.only x p (by simpa [set_promise, hxl] using hx)).1 hxl
  · simp [hnil']
  · have hnum := h.numbers
    rw [hnil] at hnum
    rw [hnil']
    exact hnum
  · rintro (hl | hne)
    · exact h.last (.inl hl)
    · exact absurd hnil' hne

/-- No promise is pending, so none is rejected. -/
theorem reject_eq_self (h : ∀ x p, s.qc_waiting x = some p → p = .fulfilled) : s.reject = s := by
  unfold reject
  split
  · rfl
  · rename_i blk _
    split
    · rename_i beats hp
      cases h blk _ hp
    · rfl

/-- Behind the lock nothing is scheduled. -/
theorem schedule_next_locked (config : Config Hash Sig) (resolve : Resolver Hash Sig)
    (hl : s.locked = true) : s.schedule_next config resolve = .ok s := by
  unfold schedule_next
  split
  · rfl
  · exact if_pos hl

theorem set_promise_self {x : Hash} {p : Option (QcPromise Hash)} (h : s.qc_waiting x = p) :
    s.set_promise x p = s := by
  simp [set_promise, ← h]

/-- The next beat waits for a block that has no quorum and that no other beat waits for. -/
theorem schedule_next_waits (resolve : Resolver Hash Sig) {b : Beat Hash} {rest : List (Beat Hash)}
    (hp : s.pending_beats = b :: rest) (hl : s.locked = false)
    (hful : ∀ x p, s.qc_waiting x = some p → p = .fulfilled)
    (hnone : s.qc_waiting s.last_proposed = none)
    (hq : config.rule.isQuorum ((s.hsc.storage s.last_proposed).elim ∅ (·.voted)) = false) :
    s.schedule_next config resolve =
      .ok
        { s.set_promise s.last_proposed (some (.pending [b])) with
          pending_beats := rest
          pm_qc_finish := some s.last_proposed
          locked := true } := by
  have hreject : ({ s with pending_beats := rest } : PaceMakerDummyFixed Hash Sig).reject =
      { s with pending_beats := rest } := reject_eq_self hful
  have hasync : ({ s with pending_beats := rest } : PaceMakerDummyFixed Hash Sig).async_qc_finish
      config s.last_proposed = .pending [] := by
    unfold async_qc_finish
    have hq' : ¬ config.rule.isQuorum ((s.hsc.storage s.last_proposed).elim ∅ (·.voted)) = true :=
      ne_true_of_eq_false hq
    exact (if_neg hq').trans (congrArg (·.getD (.pending [])) hnone)
  unfold schedule_next
  rw [hp]
  dsimp only
  rw [if_neg (by simp [hl]), hreject]
  dsimp only
  rw [hasync]
  rfl

/-! ### Parts of the core -/

omit [DecidableEq Hash] in
theorem lift_leaves {f : PMHighTail Hash Sig → Outcome (PMHighTail Hash Sig)}
    {P : PaceMakerDummyFixed Hash Sig → Prop}
    (hf : (f s.tail).Leaves fun tail => P { s with tail := tail }) : (s.lift f).Leaves P := by
  unfold lift
  cases hout : f s.tail with
  | ok tail =>
    rw [hout, Outcome.leaves_ok] at hf
    exact Outcome.leaves_ok.mpr hf
  | throw tail what =>
    rw [hout, Outcome.leaves_throw] at hf
    exact Outcome.leaves_throw.mpr hf
  | undefined => exact Outcome.leaves_undefined

theorem core_leaves {f : HotStuffCore Hash Sig → Outcome (HotStuffCore Hash Sig)}
    {Q : HotStuffCore Hash Sig → Prop} {P : PaceMakerDummyFixed Hash Sig → Prop}
    (hf : (f s.hsc).Leaves Q)
    (hP : ∀ tail : PMHighTail Hash Sig, Q tail.hsc → P { s with tail := tail }) :
    (s.core order f).Leaves P :=
  lift_leaves ((PMHighTail.run_leaves hf).mono hP)

theorem core_ok {f : HotStuffCore Hash Sig → Outcome (HotStuffCore Hash Sig)}
    (h : s.core order f = .ok s') : f s.hsc = .ok s'.hsc := by
  unfold core lift at h
  split at h
  · rename_i tail htail
    rw [Outcome.ok.injEq] at h
    obtain ⟨c, hc, hr⟩ := PMHighTail.run_ok htail
    rw [← h]
    exact hc.trans (congrArg Outcome.ok (PMHighTail.hsc_of_hqc_update hr).symm)
  · cases h
  · cases h

theorem Inv.with_tail (h : Inv config id s) {tail : PMHighTail Hash Sig}
    (hc : CoreOk config id tail.hsc) : Inv config id { s with tail := tail } :=
  ⟨h.toBase.congr hc h.listens rfl, h.only, h.single, h.numbers, h.held, h.last⟩

theorem Proposing.with_tail {bnew : Hash} (h : Proposing config id bnew s0 s)
    {tail : PMHighTail Hash Sig} (hc : CoreOk config id tail.hsc)
    (hv : tail.hsc.VotedAlone id bnew) : Proposing config id bnew s0 { s with tail := tail } :=
  ⟨h.toBase.congr hc h.listens rfl, h.last_eq, h.waiting_eq, h.locked, h.only, h.numbers, h.last,
    h.ne, hv⟩

theorem Inv.core_leaves (h : Inv config id s)
    {f : HotStuffCore Hash Sig → Outcome (HotStuffCore Hash Sig)}
    (hf : (f s.hsc).Leaves (CoreOk config id)) : (s.core order f).Leaves (Inv config id) :=
  PaceMakerDummyFixed.core_leaves hf fun _ hc => h.with_tail hc

/-! ### Proposing -/

omit [DecidableEq Hash] in
theorem own_vote_verified (hid : id < config.nreplicas)
    (hsign : ∀ h, config.sigVerify id h (config.sign id h) = true) (blk : Hash) :
    HotStuffCore.Verified config (own_vote config id blk) := ⟨hid, rfl, hsign blk⟩

section Proposing

variable (htwo : config.rule.NeedsTwo) (hid : id < config.nreplicas)
  (hsign : ∀ h, config.sigVerify id h (config.sign id h) = true) {bnew : Hash}
include htwo hid hsign

omit hid hsign in
/-- The vote of the replica for its own block, which is the first one, completes nothing. -/
theorem Proposing.do_vote_eq (h : Proposing config id bnew s0 s) (resolve : Resolver Hash Sig) :
    s.do_vote config order resolve bnew =
      s.core order (HotStuffCore.on_receive_vote config (own_vote config id bnew)) := by
  unfold PaceMakerDummyFixed.do_vote PaceMakerDummyFixed.on_receive_vote
  rw [h.core.id]
  have hno : completes config (own_vote config id bnew) s.hsc = false :=
    HotStuffCore.not_completes htwo h.voted
  rw [hno]
  cases s.core order (HotStuffCore.on_receive_vote config (own_vote config id bnew)) <;> rfl

theorem Proposing.do_vote (h : Proposing config id bnew s0 s) (resolve : Resolver Hash Sig) :
    (s.do_vote config order resolve bnew).Leaves (Proposing config id bnew s0) := by
  rw [h.do_vote_eq htwo]
  have hvote := h.core.on_receive_vote (own_vote_verified hid hsign bnew)
  have halone : (s.hsc.on_receive_vote config (own_vote config id bnew)).Leaves
      (VotedAlone id bnew) := HotStuffCore.VotedAlone.on_receive_vote h.voted
  exact core_leaves (Q := fun c => CoreOk config id c ∧ c.VotedAlone id bnew)
    (fun c hc => ⟨hvote c hc, halone c hc⟩) fun tail hq => h.with_tail hq.1 hq.2

/-- The opinion on the own block, whatever resolving a beat would do. -/
theorem Proposing.vote_on (h : Proposing config id bnew s0 s)
    (resolve resolve' : Resolver Hash Sig) :
    s.vote_on config order resolve ⟨id, bnew⟩ = s.vote_on config order resolve' ⟨id, bnew⟩ ∧
      (s.vote_on config order resolve ⟨id, bnew⟩).Ends (Proposing config id bnew s0)
        (Proposing config id bnew s0) := by
  unfold PaceMakerDummyFixed.vote_on
  cases s.hsc.opinion bnew with
  | none => exact ⟨rfl, trivial⟩
  | some opinion =>
    dsimp only
    rw [if_pos h.core.id.symm]
    have hraise : Proposing config id bnew s0 (if opinion then s.raise_vheight bnew else s) := by
      split
      · exact h.with_tail (h.core.frame rfl rfl rfl rfl fun _ => rfl) h.voted
      · exact h
    generalize (if opinion then s.raise_vheight bnew else s) = s1 at hraise ⊢
    have hreg : (s1.lift (PMHighTail.reg_receive_proposal ⟨id, bnew⟩)).Leaves
        (Proposing config id bnew s0) :=
      lift_leaves (PMHighTail.reg_receive_proposal_leaves.mono fun tail heq =>
        hraise.with_tail (heq ▸ hraise.core) (heq ▸ hraise.voted))
    refine (hreg.ends fun _ ht => ht).andThen_same fun s3 hs3 => ?_
    have h3 := hs3.1
    split
    · refine ⟨?_, ((h3.do_vote htwo hid hsign resolve).ends fun _ ht => ht).mono
        (fun _ ht => ht.1) fun _ ht => ht⟩
      rw [h3.do_vote_eq htwo, h3.do_vote_eq htwo]
    · exact ⟨rfl, h3⟩

omit hid hsign in
/-- The block joins the pace maker: the next beat waits for its certificate. What is left of the
promise of the block before is to be erased. -/
theorem Proposing.on_propose_ (h : Proposing config id bnew s0 s) :
    ∃ s', (∀ resolve, s.on_propose_ config resolve ⟨id, bnew⟩ = .ok s') ∧
      Proposed config id s0 s' := by
  unfold Proposed
  rw [← h.last_eq, ← h.waiting_eq]
  unfold PaceMakerDummyFixed.on_propose_
  simp only [h.listens, if_true]
  have hnone : ∀ x, x ≠ s.last_proposed → s.qc_waiting x = none := by
    intro x hx
    by_contra hne
    obtain ⟨p, hp⟩ := Option.ne_none_iff_exists'.mp hne
    exact hx (h.only _ p hp).1
  have hnum := h.numbers
  cases hpend : s.pending_beats with
  | nil =>
    refine ⟨_, fun _ => rfl, Inv.of_idle (h.toBase.congr h.core rfl rfl) ?_ rfl ?_ h.last, rfl⟩
    · intro x
      by_cases hx : x = s.last_proposed
      · simp [set_promise, hx]
      · simp [set_promise, hx, hnone]
    · have hnum : s.resolved = List.range s.requested := by simpa [hpend] using hnum
      exact hnum
  | cons b rest =>
    let s1 : PaceMakerDummyFixed Hash Sig :=
      { s with
        tail := s.tail.reg_proposal ⟨id, bnew⟩
        pending_beats := b :: rest
        pm_wait_propose := false
        last_proposed := bnew
        locked := false }
    have hnext : ∀ resolve, s1.schedule_next config resolve =
        .ok
          { s1.set_promise bnew (some (.pending [b])) with
            pending_beats := rest
            pm_qc_finish := some bnew
            locked := true } := fun resolve =>
      schedule_next_waits resolve rfl rfl (fun x p hp => (h.only x p hp).2) (hnone bnew h.ne)
        (h.voted.not_quorum htwo)
    refine ⟨_, fun resolve => congrArg
      (Outcome.andThen · fun s2 => .ok { s2 with pm_wait_propose := true }) (hnext resolve), ?_, ?_⟩
    · refine Inv.of_waits (b := b) (h.toBase.congr h.core rfl rfl) ?_ ?_ rfl ?_ h.last
      · simp [set_promise, s1, h.ne]
      · intro x hx
        by_cases hxl : x = s.last_proposed
        · simp [set_promise, hxl]
        · have hxb : x ≠ bnew := hx
          simp [set_promise, s1, hxl, hxb, hnone]
      · have hnum : s.resolved ++ b.number :: rest.map (·.number) = List.range s.requested := by
          simpa [hpend] using hnum
        exact hnum
    · simp [set_promise, s1, h.ne.symm]

omit htwo hid hsign in
/-- A new block is not the one before it. -/
theorem Ready.ne_last (h : Ready config id s) {cmds : List Hash}
    (hb0 : (s.propose_call config cmds).blk ≠ config.b0)
    (hfresh : (s.propose_call config cmds).Fresh) :
    (s.propose_call config cmds).blk ≠ s.last_proposed := by
  rw [← h.last, last_blk]
  cases hlast : s.proposals.getLast? with
  | none => exact hb0
  | some p =>
    intro heq
    apply hfresh.1
    rw [heq]
    exact List.mem_map_of_mem (List.mem_of_getLast? hlast)

omit htwo hid hsign in
theorem Ready.logged (h : Ready config id s) {cmds : List Hash}
    (hb0 : (s.propose_call config cmds).blk ≠ config.b0) :
    Base config id { s with proposals := s.proposals ++ [s.propose_call config cmds] } where
  core := h.core
  listens := h.listens
  ne_b0 p hp := by
    rcases List.mem_append.mp hp with hp | hp
    · exact h.ne_b0 p hp
    · rw [List.mem_singleton.mp hp]
      exact hb0
  certified := by
    refine List.isChain_append.mpr ⟨h.certified, List.isChain_singleton _, ?_⟩
    intro p hp q hq
    obtain rfl : s.propose_call config cmds = q := by simpa using hq
    have hlast : p.blk = s.last_proposed := by
      rw [← h.last, last_blk, Option.mem_def.mp hp, Option.elim_some]
    rw [hlast]
    apply h.qc
    rintro hnil
    simp [hnil] at hp

/-- A new block is proposed. The replica has a certificate for the block before, and the call does
not come to resolve another beat. -/
theorem Ready.on_propose (hgen : ∀ data, config.get_hash data = config.b0 → data.parent_hashes = [])
    (h : Ready config id s) (resolve resolve' : Resolver Hash Sig) {cmds : List Hash}
    (hfresh : (s.propose_call config cmds).Fresh) :
    s.on_propose config order resolve cmds = s.on_propose config order resolve' cmds ∧
      (s.on_propose config order resolve cmds).Ends (Proposed config id s) (Inv config id) := by
  unfold PaceMakerDummyFixed.on_propose
  dsimp only
  have hb0 : (s.propose_call config cmds).blk ≠ config.b0 := fun heq => by
    have hnil := hgen _ heq
    simp [HotStuffCore.proposed, PMHighTail.get_parents] at hnil
  have hne := h.ne_last hb0 hfresh
  have hbase := h.logged hb0
  have hdeliver := h.core.deliver_proposed cmds s.tail.hqc_tail [] [] hfresh.2
  have hlast : last_blk config (s.proposals ++ [s.propose_call config cmds]) =
      (s.propose_call config cmds).blk := by simp [last_blk]
  generalize s.proposals ++ [s.propose_call config cmds] = proposals at hbase hlast ⊢
  have hblk : (s.propose_call config cmds).blk =
      config.get_hash (s.hsc.proposed cmds [s.tail.hqc_tail] []) := rfl
  rw [← hblk] at hdeliver
  generalize (s.propose_call config cmds).blk = bnew at *
  have hstart : (({ s with proposals := proposals } : PaceMakerDummyFixed Hash Sig).core order
      fun c => (c.store_proposed config cmds s.tail.hqc_tail [] []).on_deliver_blk bnew).Leaves
      (Proposing config id bnew s) :=
    core_leaves hdeliver fun tail hc => ⟨hbase.congr hc.1 hbase.listens rfl, rfl, rfl, h.locked,
      h.only, h.numbers, hlast, hne, hc.2⟩
  refine (hstart.ends fun _ ht => ht.inv).andThen_same fun s1 hs1 => ?_
  obtain ⟨h1, hok⟩ := hs1
  have hd : s1.hsc.delivered bnew = true :=
    HotStuffCore.delivered_of_on_deliver_blk (core_ok
      (f := fun c => (c.store_proposed config cmds s.tail.hqc_tail [] []).on_deliver_blk bnew) hok)
  have hupdate : (s1.core order (HotStuffCore.update config bnew)).Leaves
      (Proposing config id bnew s) :=
    core_leaves (h1.core.update hd) fun tail hc =>
      h1.with_tail hc.1 (h1.voted.of_sameVotes hc.2.1)
  refine (hupdate.ends fun _ ht => ht.inv).andThen_same fun s2 hs2 => ?_
  have h2 := hs2.1
  split
  · exact ⟨rfl, h2.inv⟩
  have hself : ∀ r : Resolver Hash Sig, s2.on_receive_proposal config order r ⟨s.hsc.id, bnew⟩ =
      s2.vote_on config order r ⟨id, bnew⟩ := by
    intro r
    rw [h.core.id]
    exact if_pos h2.core.id.symm
  obtain ⟨hsame, hvote⟩ : s2.vote_on config order resolve ⟨id, bnew⟩ = _ ∧ _ :=
    h2.vote_on htwo hid hsign resolve resolve'
  rw [hself, hself, ← hsame]
  refine (hvote.mono (fun _ ht => ht) fun _ ht => ht.inv).andThen_same fun s3 h3 => ?_
  obtain ⟨s4, hs4, hinv, hwaiting⟩ := h3.on_propose_ htwo
  rw [h.core.id, hs4, hs4]
  have hcast : CoreOk config id (s4.broadcast ⟨id, bnew⟩).tail.hsc := hinv.core.broadcast ⟨id, bnew⟩
  exact ⟨rfl, hinv.with_tail hcast, hwaiting⟩

end Proposing

end PaceMakerDummyFixed

end general_hotstuff
