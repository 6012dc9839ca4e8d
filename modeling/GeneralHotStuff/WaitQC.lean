-- `PaceMakerDummyFixed` of `liveness.h` at its proposer: `PMWaitQC` beside `PMHighTail` and the
-- core. Promises run their continuations at once, so that votes, proposals and beats call
-- each other from within.
import GeneralHotStuff.HighTail

namespace general_hotstuff

open quorums (ReplicaID)

variable {Hash Sig : Type}

/-! ## The state -/

/-- A beat by its number, with the batch that its continuation proposes. -/
structure Beat (Hash : Type) where
  number : ℕ
  cmds : List Hash

/-- A promise of `qc_waiting`, with the beats that it resolves. -/
inductive QcPromise (Hash : Type) where
  | pending (beats : List (Beat Hash))
  | fulfilled
  | rejected

/-- A call of `on_propose`: the block that it makes, and the replica before it. -/
structure ProposeCall (Hash Sig : Type) where
  blk : Hash
  hsc : HotStuffCore Hash Sig
  earlier : List Hash

/-- `pm_qc_finish` is the block whose promise it holds, unless that was resolved from the start,
and `pm_wait_propose` tells whether the callback for own proposals is registered. Beats are
`requested` and `resolved` by number. -/
structure PaceMakerDummyFixed (Hash Sig : Type) where
  tail : PMHighTail Hash Sig
  qc_waiting : Hash → Option (QcPromise Hash)
  pending_beats : List (Beat Hash)
  last_proposed : Hash
  locked : Bool
  pm_qc_finish : Option Hash
  pm_wait_propose : Bool
  requested : ℕ
  resolved : List ℕ
  proposals : List (ProposeCall Hash Sig)

namespace PaceMakerDummyFixed

variable [DecidableEq Hash]

def init (config : Config Hash Sig) (id : ReplicaID) : PaceMakerDummyFixed Hash Sig :=
  { tail := .init config id
    qc_waiting := fun _ => none
    pending_beats := []
    last_proposed := config.b0
    locked := false
    pm_qc_finish := none
    pm_wait_propose := true
    requested := 0
    resolved := []
    proposals := [] }

def hsc (s : PaceMakerDummyFixed Hash Sig) : HotStuffCore Hash Sig := s.tail.hsc

/-- What the continuation of a beat does. -/
abbrev Resolver (Hash Sig : Type) :=
  Beat Hash → PaceMakerDummyFixed Hash Sig → Outcome (PaceMakerDummyFixed Hash Sig)

def lift (f : PMHighTail Hash Sig → Outcome (PMHighTail Hash Sig))
    (s : PaceMakerDummyFixed Hash Sig) : Outcome (PaceMakerDummyFixed Hash Sig) :=
  match f s.tail with
  | .ok tail => .ok { s with tail := tail }
  | .throw tail what => .throw { s with tail := tail } what
  | .undefined => .undefined

/-- A part of the core, with the callback of `PMHighTail` for the highest certificate. -/
def core (order : TailOrder Hash) (f : HotStuffCore Hash Sig → Outcome (HotStuffCore Hash Sig)) :
    PaceMakerDummyFixed Hash Sig → Outcome (PaceMakerDummyFixed Hash Sig) :=
  lift (PMHighTail.run order f)

/-! ## Promises for certificates -/

/-- The promise that `async_qc_finish` returns. -/
def async_qc_finish (config : Config Hash Sig) (blk : Hash) (s : PaceMakerDummyFixed Hash Sig) :
    QcPromise Hash :=
  if config.rule.isQuorum ((s.hsc.storage blk).elim ∅ (·.voted)) then .fulfilled
  else (s.qc_waiting blk).getD (.pending [])

def set_promise (blk : Hash) (p : Option (QcPromise Hash)) (s : PaceMakerDummyFixed Hash Sig) :
    PaceMakerDummyFixed Hash Sig :=
  { s with qc_waiting := Function.update s.qc_waiting blk p }

/-- The beats of a promise one after the other. -/
def fire (resolve : Resolver Hash Sig) :
    List (Beat Hash) → PaceMakerDummyFixed Hash Sig → Outcome (PaceMakerDummyFixed Hash Sig)
  | [], s => .ok s
  | b :: beats, s => (resolve b s).andThen (fire resolve beats)

/-- An exception leaves the promise in `qc_waiting`. -/
def on_qc_finish (resolve : Resolver Hash Sig) (blk : Hash) (s : PaceMakerDummyFixed Hash Sig) :
    Outcome (PaceMakerDummyFixed Hash Sig) :=
  match s.qc_waiting blk with
  | none => .ok s
  | some (.pending beats) =>
    (fire resolve beats (s.set_promise blk (some .fulfilled))).andThen fun s1 =>
      .ok (s1.set_promise blk none)
  | some _ => .ok (s.set_promise blk none)

/-- `pm_qc_finish.reject()`. -/
def reject (s : PaceMakerDummyFixed Hash Sig) : PaceMakerDummyFixed Hash Sig :=
  match s.pm_qc_finish with
  | none => s
  | some blk =>
    match s.qc_waiting blk with
    | some (.pending _) => s.set_promise blk (some .rejected)
    | _ => s

/-! ## PMWaitQC -/

/-- A promise that is resolved already runs the continuation of the beat before the lock is set. -/
def schedule_next (config : Config Hash Sig) (resolve : Resolver Hash Sig)
    (s : PaceMakerDummyFixed Hash Sig) : Outcome (PaceMakerDummyFixed Hash Sig) :=
  match s.pending_beats with
  | [] => .ok s
  | b :: rest =>
    if s.locked then .ok s
    else
      let s1 := { s with pending_beats := rest }.reject
      match s1.async_qc_finish config s1.last_proposed with
      | .fulfilled =>
        (resolve b { s1 with pm_qc_finish := none }).andThen fun s2 =>
          .ok { s2 with locked := true }
      | .pending beats =>
        .ok
          { s1.set_promise s1.last_proposed (some (.pending (beats ++ [b]))) with
            pm_qc_finish := some s1.last_proposed
            locked := true }
      | .rejected => .ok { s1 with pm_qc_finish := some s1.last_proposed, locked := true }

/-- `on_propose_` with both callbacks. That of `update_last_proposed` is not registered while it
runs. -/
def on_propose_ (config : Config Hash Sig) (resolve : Resolver Hash Sig) (prop : Proposal Hash)
    (s : PaceMakerDummyFixed Hash Sig) : Outcome (PaceMakerDummyFixed Hash Sig) :=
  let s1 := { s with tail := s.tail.reg_proposal prop }
  if s1.pm_wait_propose then
    ({ s1 with pm_wait_propose := false, last_proposed := prop.blk, locked := false }.schedule_next
      config resolve).andThen fun s2 => .ok { s2 with pm_wait_propose := true }
  else .ok s1

/-! ## Votes and proposals -/

/-- Whether the vote makes the voters a quorum, so that `on_receive_vote` calls
`on_qc_finish`. -/
def completes (config : Config Hash Sig) (vote : Vote Hash Sig) (s : HotStuffCore Hash Sig) :
    Bool :=
  (s.storage vote.blk_hash).any fun blk =>
    blk.delivered && !config.rule.isQuorum blk.voted && decide (vote.voter ∉ blk.voted) &&
      config.rule.becomesQuorum blk.voted.card (insert vote.voter blk.voted)

def on_receive_vote (config : Config Hash Sig) (order : TailOrder Hash)
    (resolve : Resolver Hash Sig) (vote : Vote Hash Sig) (s : PaceMakerDummyFixed Hash Sig) :
    Outcome (PaceMakerDummyFixed Hash Sig) :=
  (s.core order (HotStuffCore.on_receive_vote config vote)).andThen fun s1 =>
    if completes config vote s.hsc then s1.on_qc_finish resolve vote.blk_hash else .ok s1

def own_vote (config : Config Hash Sig) (id : ReplicaID) (blk : Hash) : Vote Hash Sig :=
  ⟨id, blk, ⟨blk, config.sign id blk⟩⟩

/-- `do_vote`, where `beat_resp` names the replica itself. -/
def do_vote (config : Config Hash Sig) (order : TailOrder Hash) (resolve : Resolver Hash Sig)
    (blk : Hash) (s : PaceMakerDummyFixed Hash Sig) : Outcome (PaceMakerDummyFixed Hash Sig) :=
  s.on_receive_vote config order resolve (own_vote config s.hsc.id blk)

def raise_vheight (blk : Hash) (s : PaceMakerDummyFixed Hash Sig) : PaceMakerDummyFixed Hash Sig :=
  { s with tail := { s.tail with hsc := { s.hsc with vheight := s.hsc.height blk } } }

/-- The part of `on_receive_proposal` after `update`. -/
def vote_on (config : Config Hash Sig) (order : TailOrder Hash) (resolve : Resolver Hash Sig)
    (prop : Proposal Hash) (s : PaceMakerDummyFixed Hash Sig) :
    Outcome (PaceMakerDummyFixed Hash Sig) :=
  match s.hsc.opinion prop.blk with
  | none => .undefined
  | some opinion =>
    let s1 := if opinion then s.raise_vheight prop.blk else s
    let finish := if prop.proposer = s.hsc.id then none else s1.hsc.qc_ref prop.blk
    (finish.elim (.ok s1) (s1.on_qc_finish resolve)).andThen fun s2 =>
      (s2.lift (PMHighTail.reg_receive_proposal prop)).andThen fun s3 =>
        if opinion && !s3.hsc.vote_disabled then s3.do_vote config order resolve prop.blk
        else .ok s3

def on_receive_proposal (config : Config Hash Sig) (order : TailOrder Hash)
    (resolve : Resolver Hash Sig) (prop : Proposal Hash) (s : PaceMakerDummyFixed Hash Sig) :
    Outcome (PaceMakerDummyFixed Hash Sig) :=
  if prop.proposer = s.hsc.id then s.vote_on config order resolve prop
  else if s.hsc.delivered prop.blk then
    (s.core order (HotStuffCore.update config prop.blk)).andThen
      (vote_on config order resolve prop)
  else .throw s .block_not_delivered

def broadcast (prop : Proposal Hash) (s : PaceMakerDummyFixed Hash Sig) :
    PaceMakerDummyFixed Hash Sig :=
  { s with tail.hsc.out := s.tail.hsc.out ++ [.do_broadcast_proposal prop] }

/-- The call of `on_propose` on `get_parents()`. -/
def propose_call (config : Config Hash Sig) (cmds : List Hash) (s : PaceMakerDummyFixed Hash Sig) :
    ProposeCall Hash Sig :=
  ⟨config.get_hash (s.hsc.proposed cmds s.tail.get_parents []), s.hsc, s.proposals.map (·.blk)⟩

def on_propose (config : Config Hash Sig) (order : TailOrder Hash) (resolve : Resolver Hash Sig)
    (cmds : List Hash) (s : PaceMakerDummyFixed Hash Sig) :
    Outcome (PaceMakerDummyFixed Hash Sig) :=
  let bnew := (s.propose_call config cmds).blk
  let prop : Proposal Hash := ⟨s.hsc.id, bnew⟩
  ({ s with proposals := s.proposals ++ [s.propose_call config cmds] }.core order fun c =>
      (c.store_proposed config cmds s.tail.hqc_tail [] []).on_deliver_blk bnew).andThen fun s1 =>
    (s1.core order (HotStuffCore.update config bnew)).andThen fun s2 =>
      if s2.hsc.height bnew ≤ s2.hsc.vheight then .throw s2 .not_higher_than_vheight
      else
        (s2.on_receive_proposal config order resolve prop).andThen fun s3 =>
          (s3.on_propose_ config resolve prop).andThen fun s4 => .ok (s4.broadcast prop)

/-- A beat is resolved, and its continuation proposes. The fuel bounds how deep continuations are
nested: each level resolves a beat of its own. -/
def resolve (config : Config Hash Sig) (order : TailOrder Hash) : ℕ → Resolver Hash Sig
  | 0, _, _ => .undefined
  | fuel + 1, b, s =>
    { s with resolved := s.resolved ++ [b.number] }.on_propose config order
      (resolve config order fuel) b.cmds

/-- `beat`, and the continuation that its caller adds. A beat that `beat` has resolved when it
returns has its continuation run then, after the lock is set. -/
def beat (config : Config Hash Sig) (resolve : Resolver Hash Sig) (cmds : List Hash)
    (s : PaceMakerDummyFixed Hash Sig) : Outcome (PaceMakerDummyFixed Hash Sig) :=
  let b : Beat Hash := ⟨s.requested, cmds⟩
  let s1 := { s with requested := s.requested + 1 }
  match s.locked, s.pending_beats, s.reject.async_qc_finish config s.last_proposed with
  | false, [], .fulfilled => resolve b { s1.reject with pm_qc_finish := none, locked := true }
  | _, _, _ => { s1 with pending_beats := s1.pending_beats ++ [b] }.schedule_next config resolve

/-! ## Runs -/

inductive Event (Hash Sig : Type) where
  | add_blk (data : BlockData Hash Sig)
  | on_deliver_blk (blk : Hash)
  | beat (cmds : List Hash)
  | on_receive_proposal (prop : Proposal Hash)
  | on_receive_vote (vote : Vote Hash Sig)
  | set_vote_disabled (f : Bool)

def event (config : Config Hash Sig) (order : TailOrder Hash) (s : PaceMakerDummyFixed Hash Sig) :
    Event Hash Sig → Outcome (PaceMakerDummyFixed Hash Sig)
  | .add_blk data => s.core order (·.call config (.add_blk data))
  | .on_deliver_blk blk => s.core order (HotStuffCore.on_deliver_blk blk)
  | .beat cmds => s.beat config (resolve config order (s.requested + 1)) cmds
  | .on_receive_proposal prop =>
    s.on_receive_proposal config order (resolve config order (s.requested + 1)) prop
  | .on_receive_vote vote =>
    s.on_receive_vote config order (resolve config order (s.requested + 1)) vote
  | .set_vote_disabled f => s.core order (·.call config (.set_vote_disabled f))

def step (config : Config Hash Sig) (order : TailOrder Hash) (s : PaceMakerDummyFixed Hash Sig)
    (e : Event Hash Sig) : Option (PaceMakerDummyFixed Hash Sig) := (s.event config order e).state?

/-- What the handlers check: a proposal is of another replica, its block with the certificate is
verified, and so is a vote. -/
def Received (config : Config Hash Sig) (s : PaceMakerDummyFixed Hash Sig) :
    Event Hash Sig → Prop
  | .on_receive_proposal prop => prop.proposer ≠ s.hsc.id ∧
      ∃ b ∈ s.hsc.storage prop.blk, b.verify config = some true
  | .on_receive_vote vote => HotStuffCore.Verified config vote
  | _ => True

/-! ## The log of the proposals -/

section Logs

/-- No call of `on_propose` is forgotten. -/
def Logs (s s' : PaceMakerDummyFixed Hash Sig) : Prop := s.proposals ⊆ s'.proposals

omit [DecidableEq Hash] in
theorem logs_andThen {s : PaceMakerDummyFixed Hash Sig}
    {o : Outcome (PaceMakerDummyFixed Hash Sig)}
    {f : PaceMakerDummyFixed Hash Sig → Outcome (PaceMakerDummyFixed Hash Sig)}
    (ho : o.Leaves (Logs s)) (hf : ∀ t, (f t).Leaves (Logs t)) :
    (o.andThen f).Leaves (Logs s) :=
  ho.andThen fun t _ ht => (hf t).mono fun _ h => List.Subset.trans ht h

omit [DecidableEq Hash] in
theorem lift_logs (f : PMHighTail Hash Sig → Outcome (PMHighTail Hash Sig))
    (s : PaceMakerDummyFixed Hash Sig) : (s.lift f).Leaves (Logs s) := by
  unfold lift
  split
  · exact Outcome.leaves_ok.mpr (List.Subset.refl _)
  · exact Outcome.leaves_throw.mpr (List.Subset.refl _)
  · exact Outcome.leaves_undefined

omit [DecidableEq Hash] in
@[simp] theorem logs_iff {s t : PaceMakerDummyFixed Hash Sig} :
    Logs s t ↔ s.proposals ⊆ t.proposals := Iff.rfl

@[simp] theorem set_promise_proposals (blk : Hash) (p : Option (QcPromise Hash))
    (s : PaceMakerDummyFixed Hash Sig) : (s.set_promise blk p).proposals = s.proposals := rfl

@[simp] theorem set_promise_set_promise (blk : Hash) (p q : Option (QcPromise Hash))
    (s : PaceMakerDummyFixed Hash Sig) :
    (s.set_promise blk p).set_promise blk q = s.set_promise blk q := by
  simp [set_promise]

@[simp] theorem reject_proposals (s : PaceMakerDummyFixed Hash Sig) :
    s.reject.proposals = s.proposals := by
  unfold reject
  split
  · rfl
  · split <;> rfl

variable {resolve : Resolver Hash Sig} (hr : ∀ b s, (resolve b s).Leaves (Logs s))
include hr

omit [DecidableEq Hash] in
theorem fire_logs (beats : List (Beat Hash)) (s : PaceMakerDummyFixed Hash Sig) :
    (fire resolve beats s).Leaves (Logs s) := by
  induction beats generalizing s with
  | nil => simp [fire]
  | cons b beats ih => exact logs_andThen (hr b s) ih

theorem on_qc_finish_logs (blk : Hash) (s : PaceMakerDummyFixed Hash Sig) :
    (s.on_qc_finish resolve blk).Leaves (Logs s) := by
  unfold on_qc_finish
  split
  · simp
  · exact logs_andThen (fire_logs hr _ (s.set_promise blk _)) fun t => by simp
  · simp

theorem schedule_next_logs (config : Config Hash Sig) (s : PaceMakerDummyFixed Hash Sig) :
    (s.schedule_next config resolve).Leaves (Logs s) := by
  unfold schedule_next
  split
  · simp
  · rename_i b rest _
    split
    · simp
    · dsimp only
      have hreject : ({ s with pending_beats := rest }.reject).proposals = s.proposals := by simp
      generalize { s with pending_beats := rest }.reject = s1 at hreject
      split
      · refine logs_andThen ?_ fun t => by simp
        unfold Logs
        rw [← hreject]
        exact hr b { s1 with pm_qc_finish := none }
      · simp [hreject]
      · simp [hreject]

theorem after_proposal_logs (config : Config Hash Sig) (prop : Proposal Hash)
    (s : PaceMakerDummyFixed Hash Sig) :
    (s.on_propose_ config resolve prop).Leaves (Logs s) := by
  unfold on_propose_
  dsimp only
  split
  · exact logs_andThen (schedule_next_logs hr config
      { s with
        tail := s.tail.reg_proposal prop
        pm_wait_propose := false
        last_proposed := prop.blk
        locked := false }) fun t => by simp
  · simp

variable (config : Config Hash Sig) (order : TailOrder Hash)

theorem on_receive_vote_logs (vote : Vote Hash Sig) (s : PaceMakerDummyFixed Hash Sig) :
    (s.on_receive_vote config order resolve vote).Leaves (Logs s) := by
  unfold on_receive_vote
  refine logs_andThen (lift_logs _ s) fun t => ?_
  split
  · exact on_qc_finish_logs hr _ t
  · simp

theorem vote_on_logs (prop : Proposal Hash) (s : PaceMakerDummyFixed Hash Sig) :
    (s.vote_on config order resolve prop).Leaves (Logs s) := by
  unfold vote_on
  split
  · exact Outcome.leaves_undefined
  · rename_i opinion _
    dsimp only
    have hraise : (if opinion then s.raise_vheight prop.blk else s).proposals = s.proposals := by
      split <;> rfl
    generalize (if opinion then s.raise_vheight prop.blk else s) = s1 at hraise
    refine logs_andThen ?_ fun s2 => logs_andThen (lift_logs _ s2) fun s3 => ?_
    · unfold Logs
      rw [← hraise]
      cases (if prop.proposer = s.hsc.id then none else s1.hsc.qc_ref prop.blk) with
      | none => simp
      | some q => exact on_qc_finish_logs hr q s1
    · split
      · exact on_receive_vote_logs hr config order _ s3
      · simp

theorem on_receive_proposal_logs (prop : Proposal Hash) (s : PaceMakerDummyFixed Hash Sig) :
    (s.on_receive_proposal config order resolve prop).Leaves (Logs s) := by
  unfold on_receive_proposal
  split
  · exact vote_on_logs hr config order prop s
  · split
    · exact logs_andThen (lift_logs _ s) (vote_on_logs hr config order prop)
    · exact Outcome.leaves_throw.mpr (List.Subset.refl _)

/-- The call itself is logged first. -/
theorem on_propose_logs (cmds : List Hash) (s : PaceMakerDummyFixed Hash Sig) :
    (s.on_propose config order resolve cmds).Leaves fun s' =>
      s.proposals ++ [s.propose_call config cmds] ⊆ s'.proposals := by
  unfold on_propose
  dsimp only
  refine logs_andThen (s := { s with proposals := s.proposals ++ [s.propose_call config cmds] })
    (lift_logs _ _) fun s1 => logs_andThen (lift_logs _ s1) fun s2 => ?_
  split
  · exact Outcome.leaves_throw.mpr (List.Subset.refl _)
  · refine logs_andThen (on_receive_proposal_logs hr config order _ s2) fun s3 => ?_
    exact logs_andThen (after_proposal_logs hr config _ s3) fun s4 => by simp [broadcast]

end Logs

theorem resolve_logs (config : Config Hash Sig) (order : TailOrder Hash) (fuel : ℕ)
    (b : Beat Hash) (s : PaceMakerDummyFixed Hash Sig) :
    (resolve config order fuel b s).Leaves (Logs s) := by
  induction fuel generalizing b s with
  | zero => exact Outcome.leaves_undefined
  | succ fuel ih =>
    unfold resolve
    exact (on_propose_logs ih config order b.cmds _).mono fun t ht =>
      List.Subset.trans (List.subset_append_left _ _) ht

theorem beat_logs {resolve : Resolver Hash Sig} (hr : ∀ b s, (resolve b s).Leaves (Logs s))
    (config : Config Hash Sig) (cmds : List Hash) (s : PaceMakerDummyFixed Hash Sig) :
    (s.beat config resolve cmds).Leaves (Logs s) := by
  unfold beat
  dsimp only
  split
  · refine (hr _ _).mono fun t ht => ?_
    rw [logs_iff] at ht ⊢
    simpa using ht
  · exact schedule_next_logs hr config { s with
      requested := s.requested + 1
      pending_beats := s.pending_beats ++ [⟨s.requested, cmds⟩] }

theorem event_logs (config : Config Hash Sig) (order : TailOrder Hash)
    (s : PaceMakerDummyFixed Hash Sig) (e : Event Hash Sig) :
    (s.event config order e).Leaves (Logs s) := by
  have hr := resolve_logs config order (s.requested + 1)
  cases e with
  | add_blk data => exact lift_logs _ s
  | on_deliver_blk blk => exact lift_logs _ s
  | beat cmds => exact beat_logs hr config cmds s
  | on_receive_proposal prop => exact on_receive_proposal_logs hr config order prop s
  | on_receive_vote vote => exact on_receive_vote_logs hr config order vote s
  | set_vote_disabled f => exact lift_logs _ s

end PaceMakerDummyFixed

end general_hotstuff
