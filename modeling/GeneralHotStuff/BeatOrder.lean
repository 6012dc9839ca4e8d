-- The beats of `PaceMakerDummyFixed` over whole runs: one uncertified block at a time, and the
-- beats in the order of their requests, as long as every block that is proposed is new. A
-- block that has votes when it is proposed gets a certificate that does not verify.
import GeneralHotStuff.OwnProposals

namespace general_hotstuff

open quorums (ReplicaID)
open transitions (Runs)

variable {Hash Sig : Type}

namespace PaceMakerDummyFixed

open HotStuffCore (CoreOk HasQC)

variable [DecidableEq Hash] {config : Config Hash Sig} {order : TailOrder Hash} {id : ReplicaID}
  {s : PaceMakerDummyFixed Hash Sig}

/-! ## Resolving a beat -/

section Resolving

variable (order) (hgen : ∀ data, config.get_hash data = config.b0 → data.parent_hashes = [])
  (htwo : config.rule.NeedsTwo) (hid : id < config.nreplicas)
  (hsign : ∀ h, config.sigVerify id h (config.sign id h) = true)
include hgen htwo hid hsign

/-- The continuation of a beat proposes, unless the block is not a new one. -/
theorem Ready.resolve {b : Beat Hash}
    (h : Ready config id { s with resolved := s.resolved ++ [b.number] }) (fuel : ℕ) :
    (PaceMakerDummyFixed.resolve config order fuel b s).Ends
      (fun s' => s'.AllFresh → Proposed config id s s') (Good config id) := by
  cases fuel with
  | zero => trivial
  | succ fuel =>
    unfold PaceMakerDummyFixed.resolve
    by_cases hfresh : (propose_call config b.cmds
        { s with resolved := s.resolved ++ [b.number] }).Fresh
    · exact (h.on_propose htwo hid hsign hgen _ (PaceMakerDummyFixed.resolve config order fuel)
        hfresh).2.mono (fun _ ht _ => ht) fun _ ht _ => ht
    · have hlogs := on_propose_logs (resolve_logs config order fuel) config order b.cmds
        { s with resolved := s.resolved ++ [b.number] }
      have hno := hlogs.mono (Q := fun s' => ¬ s'.AllFresh) fun s' hs' hall =>
        hfresh (hall _ (hs' (List.mem_append_right _ (List.mem_singleton_self _))))
      exact (hno.ends fun _ ht => ht).mono (fun _ ht hall => absurd hall ht.1)
        fun _ ht hall => absurd hall ht

/-- No continuation runs inside of the one of a beat that proposes a new block: the fuel lasts. -/
theorem Ready.resolve_fuel {b : Beat Hash}
    (h : Ready config id { s with resolved := s.resolved ++ [b.number] })
    (hfresh : (propose_call config b.cmds { s with resolved := s.resolved ++ [b.number] }).Fresh)
    (fuel fuel' : ℕ) :
    PaceMakerDummyFixed.resolve config order (fuel + 1) b s =
      PaceMakerDummyFixed.resolve config order (fuel' + 1) b s :=
  (h.on_propose htwo hid hsign hgen _ _ hfresh).1

/-- The one beat that waits for the block is resolved. -/
theorem Inv.fire (h : Inv config id s) {b : Beat Hash}
    (hp : s.qc_waiting s.last_proposed = some (.pending [b]))
    (hqc : s.last_proposed ≠ config.b0 → HasQC config s.hsc s.last_proposed) (fuel : ℕ) :
    (PaceMakerDummyFixed.resolve config order fuel b
        (s.set_promise s.last_proposed (some .fulfilled))).Ends
      (fun s' => Good config id (s'.set_promise s.last_proposed none)) (Good config id) := by
  have hone : s.awaiting = [b] := by simp [awaiting, hp]
  have hlast := h.last (.inr (by simp [hone]))
  have hready : Ready config id { s.set_promise s.last_proposed (some .fulfilled) with
      resolved := s.resolved ++ [b.number] } := by
    refine ⟨h.toBase.congr h.core h.listens rfl, (h.only _ _ hp).2, ?_, ?_, hlast, ?_⟩
    · intro x p hx
      by_cases hxl : x = s.last_proposed
      · have hpf : p = .fulfilled := by simpa [set_promise, hxl] using hx.symm
        exact ⟨hxl, hpf⟩
      · exact absurd (h.only x p (by simpa [set_promise, hxl] using hx)).1 hxl
    · have hnum : s.resolved ++ [b.number] ++ s.pending_beats.map (·.number) =
          List.range s.requested := by simpa [hone] using h.numbers
      exact hnum
    · intro hne
      exact hqc (hlast ▸ h.last_ne_b0 hne)
  exact (hready.resolve order hgen htwo hid hsign fuel).mono (fun _ ht hall => (ht hall).1)
    fun _ ht => ht

theorem Inv.on_qc_finish (h : Inv config id s) {blk : Hash}
    (hqc : blk ≠ config.b0 → HasQC config s.hsc blk) (fuel : ℕ) :
    (s.on_qc_finish (PaceMakerDummyFixed.resolve config order fuel) blk).Leaves
      (Good config id) := by
  unfold PaceMakerDummyFixed.on_qc_finish
  split
  · exact Outcome.leaves_ok.mpr fun _ => h
  · rename_i beats hp
    obtain ⟨rfl, -⟩ := h.only _ _ hp
    have hbeats : s.awaiting = beats := by simp [awaiting, hp]
    cases beats with
    | nil =>
      refine Outcome.leaves_ok.mpr fun _ => ?_
      rw [set_promise_set_promise]
      exact h.erase hbeats
    | cons b rest =>
      obtain rfl : rest = [] := by
        have hsingle := h.single
        rw [hbeats, List.length_cons] at hsingle
        exact List.length_eq_zero_iff.mp (by omega)
      have hfire := h.fire order hgen htwo hid hsign hp hqc fuel
      simp only [PaceMakerDummyFixed.fire]
      have herased := hfire.andThen (f := .ok)
        (R := fun s' : PaceMakerDummyFixed Hash Sig =>
          Good config id (s'.set_promise s.last_proposed none)) fun t ht => ht
      have hdone := herased.andThen (f := fun t => .ok (t.set_promise s.last_proposed none))
        (R := Good config id) fun t ht => ht
      exact hdone.leaves (fun _ ht => ht) fun _ ht => ht
  · rename_i p hpend hp
    obtain ⟨rfl, -⟩ := h.only _ _ hp
    have hnil : s.awaiting = [] := by
      unfold awaiting
      split
      · rename_i beats hp'
        rw [hp, Option.some.injEq] at hp'
        exact absurd hp' (hpend beats)
      · rfl
    exact Outcome.leaves_ok.mpr fun _ => h.erase hnil

/-- A beat for which the certificate is there. -/
theorem Inv.beat_at_once (hbls : QuorumCert.Combines config) (h : Inv config id s)
    (hl : s.locked = false)
    (hq : config.rule.isQuorum ((s.hsc.storage s.last_proposed).elim ∅ (·.voted)) = true)
    (cmds : List Hash) (fuel : ℕ) :
    (PaceMakerDummyFixed.resolve config order fuel ⟨s.requested, cmds⟩
      { s with requested := s.requested + 1, pm_qc_finish := none, locked := true }).Leaves
      (Good config id) := by
  obtain ⟨hnone, hp, hnum⟩ := h.unlocked hl
  have hlast := h.last (.inl hl)
  have hready : Ready config id { s with
      requested := s.requested + 1
      pm_qc_finish := none
      locked := true
      resolved := s.resolved ++ [s.requested] } := by
    refine ⟨h.toBase.congr h.core h.listens rfl, rfl, fun x p hp => by simp [hnone] at hp, ?_,
      hlast, fun hne => ?_⟩
    · simp [hp, hnum, List.range_succ]
    · exact h.core.hasQC_of_quorum hbls htwo (hlast ▸ h.last_ne_b0 hne) hq
  have hresolve := Ready.resolve order hgen htwo hid hsign (b := ⟨s.requested, cmds⟩)
    (s := { s with requested := s.requested + 1, pm_qc_finish := none, locked := true }) hready fuel
  refine hresolve.leaves (fun t ht hall => ?_) fun _ ht => ht
  obtain ⟨hinv, hwait⟩ := ht hall
  rwa [set_promise_self (hwait.trans (hnone _))] at hinv

omit hgen htwo hid hsign in
/-- A beat that waits, behind the lock or for the certificate. -/
theorem Inv.beat_waits (h : Inv config id s) (resolve : Resolver Hash Sig) (cmds : List Hash)
    (hno : s.locked = true ∨
      config.rule.isQuorum ((s.hsc.storage s.last_proposed).elim ∅ (·.voted)) = false) :
    (schedule_next config resolve
      { s with
        requested := s.requested + 1
        pending_beats := s.pending_beats ++ [⟨s.requested, cmds⟩] }).Leaves (Inv config id) := by
  set t : PaceMakerDummyFixed Hash Sig :=
    { s with
      requested := s.requested + 1
      pending_beats := s.pending_beats ++ [⟨s.requested, cmds⟩] } with ht
  have hbase : Base config id t := h.toBase.congr h.core h.listens rfl
  rcases Bool.eq_false_or_eq_true s.locked with hl | hl
  · rw [schedule_next_locked (s := t) _ _ hl, Outcome.leaves_ok]
    have hnum : t.resolved ++ (t.awaiting ++ t.pending_beats).map (·.number) =
        List.range t.requested := by
      have hrange : List.range t.requested = List.range s.requested ++ [s.requested] :=
        List.range_succ
      rw [hrange, ← h.numbers]
      simp [ht, awaiting]
    exact ⟨hbase, h.only, h.single, hnum, fun hl' => absurd (hl'.symm.trans hl) Bool.false_ne_true,
      h.last⟩
  · obtain ⟨hnone, hp, hnum⟩ := h.unlocked hl
    have hq := hno.resolve_left (by simp [hl])
    have hpend : t.pending_beats = [⟨s.requested, cmds⟩] := by simp [ht, hp]
    have hful : ∀ x p, t.qc_waiting x = some p → p = .fulfilled := fun x p hx => by
      simp [ht, hnone] at hx
    rw [schedule_next_waits (s := t) _ hpend hl hful (hnone _) hq, Outcome.leaves_ok]
    refine Inv.of_waits (b := ⟨s.requested, cmds⟩) (hbase.congr h.core h.listens rfl) ?_ ?_ rfl ?_
      (h.last (.inl hl))
    · simp [set_promise]
    · intro x hx
      have hx' : x ≠ s.last_proposed := hx
      simp [set_promise, ht, hx', hnone]
    · simp [ht, set_promise, hnum, List.range_succ]

theorem Inv.beat (hbls : QuorumCert.Combines config) (h : Inv config id s) (cmds : List Hash)
    (fuel : ℕ) :
    (s.beat config (PaceMakerDummyFixed.resolve config order fuel) cmds).Leaves
      (Good config id) := by
  unfold PaceMakerDummyFixed.beat
  dsimp only
  split
  · rename_i hl _ hful
    obtain ⟨hnone, -, -⟩ := h.unlocked hl
    have hreject : ∀ t : PaceMakerDummyFixed Hash Sig, t.qc_waiting = s.qc_waiting → t.reject = t :=
      fun t ht => reject_eq_self fun x p hx => by simp [ht, hnone] at hx
    have hq : config.rule.isQuorum ((s.hsc.storage s.last_proposed).elim ∅ (·.voted)) = true := by
      by_contra hq
      simp [hreject s rfl, async_qc_finish, hq, hnone] at hful
    rw [hreject { s with requested := s.requested + 1 } rfl]
    exact h.beat_at_once order hgen htwo hid hsign hbls hl hq cmds fuel
  · rename_i hno
    refine (h.beat_waits _ cmds ?_).mono fun _ ht _ => ht
    by_contra hcon
    rw [not_or, Bool.not_eq_true, Bool.not_eq_false] at hcon
    obtain ⟨hl, hq⟩ := hcon
    obtain ⟨hnone, hp, -⟩ := h.unlocked hl
    have hreject : s.reject = s := reject_eq_self fun x p hx => by simp [hnone] at hx
    refine hno hl hp ?_
    rw [hreject]
    exact if_pos hq

/-! ## Events -/

omit hgen htwo hid hsign in
/-- What the steps up to here leave in order, the rest of the event leaves in order. -/
theorem good_andThen {o : Outcome (PaceMakerDummyFixed Hash Sig)}
    {f : PaceMakerDummyFixed Hash Sig → Outcome (PaceMakerDummyFixed Hash Sig)}
    (ho : o.Leaves (Good config id)) (hlogs : ∀ t, (f t).Leaves (Logs t))
    (hf : ∀ t, o = .ok t → Inv config id t → (f t).Leaves (Good config id)) :
    (o.andThen f).Leaves (Good config id) := by
  refine ho.andThen fun t hok ht => ?_
  by_cases hall : t.AllFresh
  · exact hf t hok (ht hall)
  · exact (hlogs t).mono fun u hu hall' => absurd (fun p hp => hall' p (hu hp)) hall

theorem Inv.on_receive_vote (hbls : QuorumCert.Combines config) (h : Inv config id s)
    {vote : Vote Hash Sig} (hv : HotStuffCore.Verified config vote) (fuel : ℕ) :
    (s.on_receive_vote config order (PaceMakerDummyFixed.resolve config order fuel) vote).Leaves
      (Good config id) := by
  unfold PaceMakerDummyFixed.on_receive_vote
  refine good_andThen ((h.core_leaves (h.core.on_receive_vote hv)).mono fun _ ht _ => ht)
    (fun t => ?_) fun t hok ht => ?_
  · split
    · exact on_qc_finish_logs (resolve_logs config order fuel) _ t
    · exact Outcome.leaves_ok.mpr (List.Subset.refl _)
  · split
    · rename_i hc
      have hquorum := HotStuffCore.quorum_of_completes hc (core_ok hok)
      exact ht.on_qc_finish order hgen htwo hid hsign
        (fun hne => ht.core.hasQC_of_quorum hbls htwo hne hquorum) fuel
    · exact Outcome.leaves_ok.mpr fun _ => ht

theorem Inv.vote_on (hbls : QuorumCert.Combines config) (h : Inv config id s)
    {prop : Proposal Hash} (hne : prop.proposer ≠ id) {b : Block Hash Sig}
    (hb : s.hsc.storage prop.blk = some b) (hd : b.delivered = true)
    (hver : b.verify config = some true) (fuel : ℕ) :
    (s.vote_on config order (PaceMakerDummyFixed.resolve config order fuel) prop).Leaves
      (Good config id) := by
  have hlogs := resolve_logs config order fuel
  unfold PaceMakerDummyFixed.vote_on
  split
  · exact Outcome.leaves_undefined
  · rename_i opinion _
    dsimp only
    rw [if_neg (by rwa [h.core.id])]
    have hraise : Inv config id (if opinion then s.raise_vheight prop.blk else s) ∧
        (if opinion then s.raise_vheight prop.blk else s).hsc.storage = s.hsc.storage := by
      split
      · exact ⟨h.with_tail (h.core.frame rfl rfl rfl rfl fun _ => rfl), rfl⟩
      · exact ⟨h, rfl⟩
    generalize (if opinion then s.raise_vheight prop.blk else s) = s1 at hraise ⊢
    obtain ⟨h1, hst⟩ := hraise
    rw [← hst] at hb
    refine good_andThen ?_ (fun t => ?_) fun s2 _ h2 => ?_
    · cases hq : s1.hsc.qc_ref prop.blk with
      | none => exact Outcome.leaves_ok.mpr fun _ => h1
      | some q =>
        rw [HotStuffCore.qc_ref_eq hb] at hq
        exact h1.on_qc_finish order hgen htwo hid hsign
          (fun hx => h1.core.hasQC_of_verified hb hd hq hx hver) fuel
    · refine logs_andThen (lift_logs _ t) fun u => ?_
      split
      · exact on_receive_vote_logs hlogs config order _ u
      · exact Outcome.leaves_ok.mpr (List.Subset.refl _)
    · have hreg : (s2.lift (PMHighTail.reg_receive_proposal prop)).Leaves (Inv config id) :=
        lift_leaves (PMHighTail.reg_receive_proposal_leaves.mono fun tail heq =>
          h2.with_tail (heq ▸ h2.core))
      refine good_andThen (hreg.mono fun _ ht _ => ht) (fun t => ?_) fun s3 _ h3 => ?_
      · split
        · exact on_receive_vote_logs hlogs config order _ t
        · exact Outcome.leaves_ok.mpr (List.Subset.refl _)
      · split
        · unfold PaceMakerDummyFixed.do_vote
          rw [h3.core.id]
          exact h3.on_receive_vote order hgen htwo hid hsign hbls
            (own_vote_verified hid hsign prop.blk) fuel
        · exact Outcome.leaves_ok.mpr fun _ => h3

theorem Inv.on_receive_proposal (hbls : QuorumCert.Combines config) (h : Inv config id s)
    {prop : Proposal Hash} (hne : prop.proposer ≠ id) {b : Block Hash Sig}
    (hb : s.hsc.storage prop.blk = some b) (hver : b.verify config = some true) (fuel : ℕ) :
    (s.on_receive_proposal config order (PaceMakerDummyFixed.resolve config order fuel) prop).Leaves
      (Good config id) := by
  unfold PaceMakerDummyFixed.on_receive_proposal
  rw [if_neg (by rwa [h.core.id])]
  split
  · rename_i hd
    have hupdate := h.core.update hd
    refine good_andThen ((h.core_leaves (hupdate.mono fun _ hc => hc.1)).mono fun _ ht _ => ht)
      (fun t => vote_on_logs (resolve_logs config order fuel) config order prop t)
      fun t hok ht => ?_
    obtain ⟨-, -, hg⟩ := hupdate t.hsc (congrArg Outcome.state? (core_ok hok))
    obtain ⟨c, hc, hdata, -⟩ := hg prop.blk b hb
    have hcd : c.delivered = true := (HotStuffCore.delivered_eq hc).symm.trans (hg.delivered hd)
    have hcver : c.verify config = some true := by
      unfold Block.verify at hver ⊢
      rwa [show c.qc = b.qc from congrArg (·.qc) hdata]
    exact ht.vote_on order hgen htwo hid hsign hbls hne hc hcd hcver fuel
  · exact Outcome.leaves_throw.mpr fun _ => h

theorem Inv.event (hbls : QuorumCert.Combines config) (h : Inv config id s) {e : Event Hash Sig}
    (he : s.Received config e) : (s.event config order e).Leaves (Good config id) := by
  have hcore : ∀ f : HotStuffCore Hash Sig → Outcome (HotStuffCore Hash Sig),
      (f s.hsc).Leaves (CoreOk config id) → (s.core order f).Leaves (Good config id) :=
    fun f hf => (h.core_leaves hf).mono fun _ ht _ => ht
  cases e with
  | add_blk data => exact hcore (·.call config (.add_blk data)) (h.core.add_blk data)
  | on_deliver_blk blk => exact hcore _ (h.core.on_deliver_blk blk)
  | beat cmds => exact h.beat order hgen htwo hid hsign hbls cmds _
  | on_receive_proposal prop =>
    obtain ⟨hne, b, hb, hver⟩ := he
    rw [h.core.id] at hne
    exact h.on_receive_proposal order hgen htwo hid hsign hbls hne hb hver _
  | on_receive_vote vote => exact h.on_receive_vote order hgen htwo hid hsign hbls he _
  | set_vote_disabled f =>
    exact hcore (·.call config (.set_vote_disabled f)) (h.core.set_vote_disabled f)

end Resolving

/-! ## Runs -/

theorem init_inv (config : Config Hash Sig) (id : ReplicaID) : Inv config id (init config id) := by
  have ht := HotStuffCore.on_init_tidy config id
  have hcore : CoreOk config id (HotStuffCore.on_init config id) :=
    ⟨⟨ht.links, ht.certs, ht.tails⟩, HotStuffCore.on_init_collecting config id, rfl⟩
  have hbase : Base config id (init config id) :=
    ⟨hcore, rfl, fun _ => List.not_mem_nil.elim, List.isChain_nil⟩
  exact Inv.of_idle hbase (fun _ => rfl) rfl rfl rfl

/-- A new block is proposed only when the block before it has a certificate, beats are resolved in
the order of their requests and each at most once, and no beat waits while the lock is open. -/
structure OneAtATime (config : Config Hash Sig) (s : PaceMakerDummyFixed Hash Sig) : Prop where
  certified : s.proposals.IsChain fun p q => HasQC config q.hsc p.blk
  in_order : s.resolved <+: List.range s.requested
  held : s.pending_beats ≠ [] → s.locked = true

/-- In every run in which no call of `on_propose` makes a block that the replica has proposed before
or has counted votes for, the replica keeps to one uncertified block at a time. -/
theorem new_blocks_are_proposed_one_at_a_time
    (hgen : ∀ data, config.get_hash data = config.b0 → data.parent_hashes = [])
    (hbls : QuorumCert.Combines config) (htwo : config.rule.NeedsTwo) (order : TailOrder Hash)
    (hid : id < config.nreplicas) (hsign : ∀ h, config.sigVerify id h (config.sign id h) = true)
    (h : Runs (step config order) (Received config) (init config id) s) (hfresh : s.AllFresh) :
    OneAtATime config s := by
  have hgood : Good config id s := by
    refine h.keeps (fun _ => init_inv config id) fun t e u ht he hu => ?_
    by_cases hall : t.AllFresh
    · exact (ht hall).event order hgen htwo hid hsign hbls he u hu
    · exact fun hall' => absurd (fun p hp => hall' p (event_logs config order t e u hu hp)) hall
  have hinv := hgood hfresh
  refine ⟨hinv.certified, ?_, fun hne => ?_⟩
  · rw [← hinv.numbers]
    exact List.prefix_append _ _
  · by_contra hl
    exact hne (hinv.held (by simpa using hl))

instance (p : ProposeCall Hash Sig) : Decidable p.Fresh :=
  inferInstanceAs (Decidable (p.blk ∉ p.earlier ∧ ∀ b ∈ p.hsc.storage p.blk, b.voted = ∅))

instance (config : Config Hash Sig) (s : PaceMakerDummyFixed Hash Sig) :
    ∀ e, Decidable (s.Received config e)
  | .add_blk _ => .isTrue trivial
  | .on_deliver_blk _ => .isTrue trivial
  | .beat _ => .isTrue trivial
  | .on_receive_proposal prop => inferInstanceAs (Decidable (prop.proposer ≠ s.hsc.id ∧
      ∃ b ∈ s.hsc.storage prop.blk, b.verify config = some true))
  | .on_receive_vote vote => inferInstanceAs (Decidable (HotStuffCore.Verified config vote))
  | .set_vote_disabled _ => .isTrue trivial

open HotStuffCore (vote_of hash_of four_replicas)

/-- Four replicas, where a block carries its hash in its first command. -/
def hash_in_command : Config (Fin 8) (ReplicaID × Fin 8) :=
  { four_replicas false with
    get_hash := fun data => data.cmds.head?.elim (hash_of 7) fun h =>
      if h = hash_of 0 then hash_of 7 else h }

theorem hash_in_command_ne_b0 (data : BlockData (Fin 8) (ReplicaID × Fin 8)) :
    hash_in_command.get_hash data ≠ hash_in_command.b0 := by
  simp only [hash_in_command]
  cases data.cmds.head? with
  | none => decide
  | some h =>
    rw [Option.elim_some]
    split
    · decide
    · assumption

theorem hash_in_command_needsTwo : hash_in_command.rule.NeedsTwo := by
  intro A hA
  simp only [hash_in_command, four_replicas, QuorumRule.isQuorum, decide_eq_false_iff_not]
  omega

def by_number : TailOrder (Fin 8) where
  list t := (List.finRange 8).filter (· ∈ t)
  mem t x := by simp

/-- Two beats, and the votes of two other replicas for the first block. -/
def two_beats : List (Event (Fin 8) (ReplicaID × Fin 8)) :=
  [.beat [hash_of 1], .beat [hash_of 2], .on_receive_vote (vote_of 1 (hash_of 1)),
    .on_receive_vote (vote_of 2 (hash_of 1))]

theorem two_beats_are_one_at_a_time :
    ∃ s, transitions.play (step hash_in_command by_number) (Received hash_in_command)
        (init hash_in_command 0) two_beats = some s ∧
      s.proposals.map (·.blk) = [hash_of 1, hash_of 2] ∧ OneAtATime hash_in_command s := by
  obtain ⟨s, hs⟩ := Option.isSome_iff_exists.mp
    (show (transitions.play (step hash_in_command by_number) (Received hash_in_command)
      (init hash_in_command 0) two_beats).isSome by decide +kernel)
  have hstate : (transitions.play (step hash_in_command by_number) (Received hash_in_command)
      (init hash_in_command 0) two_beats).map (fun s => (s.proposals.map (·.blk),
        decide (∀ p ∈ s.proposals, p.Fresh))) = some ([hash_of 1, hash_of 2], true) := by
    decide +kernel
  rw [hs, Option.map_some, Option.some.injEq, Prod.mk.injEq, decide_eq_true_eq] at hstate
  exact ⟨s, hs, hstate.1, new_blocks_are_proposed_one_at_a_time
    (fun data h => absurd h (hash_in_command_ne_b0 data)) (fun h => by cases h)
    hash_in_command_needsTwo by_number (by decide)
    (fun h => by simp [hash_in_command, four_replicas]) (Runs.of_play hs) hstate.2⟩

/-- The first block comes with the vote of replica 1 before the replica proposes it. -/
def voted_before : List (Event (Fin 8) (ReplicaID × Fin 8)) :=
  [.add_blk ⟨[hash_of 0], [hash_of 1], .create_quorum_cert hash_in_command (hash_of 0), []⟩,
    .on_deliver_blk (hash_of 1), .on_receive_vote (vote_of 1 (hash_of 1)), .beat [hash_of 1],
    .beat [hash_of 2], .on_receive_vote (vote_of 2 (hash_of 1))]

/-- What a call of `on_propose` finds of certificates for block 1: those that the replica computed,
with what `verify` says, and what the certificates of the stored blocks are for. -/
def found (q : ProposeCall (Fin 8) (ReplicaID × Fin 8)) :
    Fin 8 × List (Option Bool) × List (Fin 8) :=
  (q.blk, (q.hsc.certificates (hash_of 1)).map (·.verify hash_in_command),
    (List.finRange 8).filterMap fun y => (q.hsc.storage y).map (·.qc.obj_hash))

theorem not_hasQC {q : ProposeCall (Fin 8) (ReplicaID × Fin 8)}
    (hcert : (found q).2.1 = [some false]) (hstored : hash_of 1 ∉ (found q).2.2) :
    ¬ HasQC hash_in_command q.hsc (hash_of 1) := by
  rintro ⟨qc, hobj, hver, hmem | ⟨y, b, hb, rfl⟩⟩
  · have hmem := List.mem_map_of_mem (f := (·.verify hash_in_command)) hmem
    rw [show (q.hsc.certificates (hash_of 1)).map (·.verify hash_in_command) = [some false] from
      hcert, hver] at hmem
    simp at hmem
  · apply hstored
    refine List.mem_filterMap.mpr ⟨y, List.mem_finRange y, ?_⟩
    rw [hb, Option.map_some, hobj]

/-- The second block is proposed on a certificate for the first one that does not verify. -/
theorem a_block_follows_an_uncertified_one :
    ¬ ∀ (config : Config (Fin 8) (ReplicaID × Fin 8)) (order : TailOrder (Fin 8)) (id : ReplicaID)
      (s : PaceMakerDummyFixed (Fin 8) (ReplicaID × Fin 8)),
      (∀ data, config.get_hash data = config.b0 → data.parent_hashes = []) →
      QuorumCert.Combines config → config.rule.NeedsTwo →
      config.rule.isQuorum (Finset.range config.nreplicas) = true → id < config.nreplicas →
      (∀ h, config.sigVerify id h (config.sign id h) = true) →
      Runs (step config order) (Received config) (init config id) s → OneAtATime config s := by
  intro hall
  obtain ⟨s, hs⟩ := Option.isSome_iff_exists.mp
    (show (transitions.play (step hash_in_command by_number) (Received hash_in_command)
      (init hash_in_command 0) voted_before).isSome by decide +kernel)
  have hfound : (transitions.play (step hash_in_command by_number) (Received hash_in_command)
      (init hash_in_command 0) voted_before).map (fun s => s.proposals.map found) =
      some [(hash_of 1, [], [hash_of 0, hash_of 0]),
        (hash_of 2, [some false], [hash_of 0, hash_of 0])] := by
    decide +kernel
  rw [hs, Option.map_some, Option.some.injEq] at hfound
  obtain ⟨p, rest, hl, hp, hrest⟩ := List.map_eq_cons_iff.mp hfound
  obtain ⟨q, rest, rfl, hq, -⟩ := List.map_eq_cons_iff.mp hrest
  have hone := hall hash_in_command by_number 0 s
    (fun data h => absurd h (hash_in_command_ne_b0 data)) (fun h => by cases h)
    hash_in_command_needsTwo (by decide) (by decide)
    (fun h => by simp [hash_in_command, four_replicas]) (Runs.of_play hs)
  have hcert := hone.certified
  rw [hl] at hcert
  have hqc : HasQC hash_in_command q.hsc p.blk := hcert.rel
  rw [show p.blk = hash_of 1 from congrArg Prod.fst hp] at hqc
  exact not_hasQC (by rw [hq]) (by rw [hq]; decide) hqc

end PaceMakerDummyFixed

end general_hotstuff
