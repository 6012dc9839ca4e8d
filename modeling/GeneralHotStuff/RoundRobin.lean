-- `PMRoundRobinProposer`: rotation by a timer. A timer event is one shot and fires at most
-- once. When the replica itself proposes is left open, and so is what it keeps for that:
-- the beats, the block that it proposed last, its lock and the QCs that it waits for.
import GeneralHotStuff.Transitions
import GeneralHotStuff.Entity

namespace general_hotstuff

open quorums (ReplicaID)
open transitions

variable {Hash : Type} [DecidableEq Hash]

/-! ## The state -/

/-- What a timer calls when it expires. -/
inductive Timeout where
  | on_exp_timeout
  | rotate
  deriving DecidableEq

/-- `proposal_callbacks` and `receive_callbacks` count the registered callbacks of `reg_proposal`
and `reg_receive_proposal`. A timer has its delay, in a unit of which the pace maker needs only to
double it. -/
structure PMRoundRobinProposer (Hash : Type) where
  base_timeout : ℕ
  exp_timeout : ℕ
  prop_delay : ℕ
  timer : Option (Timeout × ℕ)
  proposer : ReplicaID
  prop_blk : ReplicaID → Option Hash
  rotating : Bool
  proposal_callbacks : ℕ
  receive_callbacks : ℕ

namespace PMRoundRobinProposer

/-! ## The role transitions -/

def rotate (nreplicas : ℕ) (s : PMRoundRobinProposer Hash) : PMRoundRobinProposer Hash :=
  { s with
    proposal_callbacks := s.proposal_callbacks + 1
    receive_callbacks := s.receive_callbacks + 1
    prop_blk := fun _ => none
    rotating := true
    proposer := (s.proposer + 1) % nreplicas
    timer := some (.on_exp_timeout, s.exp_timeout)
    exp_timeout := s.exp_timeout * 2 }

def stop_rotate (s : PMRoundRobinProposer Hash) : PMRoundRobinProposer Hash :=
  { s with timer := none, rotating := false }

def on_consensus (blk : Hash) (s : PMRoundRobinProposer Hash) : PMRoundRobinProposer Hash :=
  let s1 := { s with timer := none, exp_timeout := s.base_timeout }
  if s1.prop_blk s1.proposer = some blk then s1.stop_rotate else s1

def impeach (nreplicas : ℕ) (s : PMRoundRobinProposer Hash) : PMRoundRobinProposer Hash :=
  if s.rotating then s else s.rotate nreplicas

/-! ## Proposals -/

/-- The first proposal of a replica since the rotation began is kept. -/
def keep_first (rid : ReplicaID) (blk : Hash) (s : PMRoundRobinProposer Hash) :
    ReplicaID → Option Hash :=
  Function.update s.prop_blk rid (some ((s.prop_blk rid).getD blk))

/-- The callbacks of `reg_proposal`. A callback registers itself again while the rotation goes
on. -/
def on_proposal (id : ReplicaID) (blk : Hash) (s : PMRoundRobinProposer Hash) :
    PMRoundRobinProposer Hash :=
  { s with
    prop_blk := if 0 < s.proposal_callbacks then s.keep_first id blk else s.prop_blk
    proposal_callbacks := if s.rotating then s.proposal_callbacks else 0 }

/-- The callbacks of `reg_receive_proposal`. -/
def on_receive_proposal (proposer : ReplicaID) (blk : Hash) (s : PMRoundRobinProposer Hash) :
    PMRoundRobinProposer Hash :=
  { s with
    prop_blk := if 0 < s.receive_callbacks then s.keep_first proposer blk else s.prop_blk
    receive_callbacks := if s.rotating then s.receive_callbacks else 0 }

/-- What `on_propose` calls in the pace maker. A `proposal` is a block with the blocks that it
commits, oldest first, and the replica receives it before the callbacks of `reg_proposal` hear of
it. -/
def on_propose (id : ReplicaID) (s : PMRoundRobinProposer Hash) (proposal : List Hash × Hash) :
    PMRoundRobinProposer Hash :=
  let s1 := proposal.1.foldl (fun s blk => s.on_consensus blk) s
  (s1.on_receive_proposal id proposal.2).on_proposal id proposal.2

/-! ## The timer -/

/-- `proposals` are the blocks that `do_new_consensus` proposes until a QC is missing, each with the
blocks that its proposal commits. -/
def on_exp_timeout (id : ReplicaID) (proposals : List (List Hash × Hash))
    (s : PMRoundRobinProposer Hash) : PMRoundRobinProposer Hash :=
  let s1 := if s.proposer = id then proposals.foldl (on_propose id) s else s
  { s1 with timer := some (.rotate, s1.prop_delay) }

/-- A timer is spent when it calls. -/
def expire (id : ReplicaID) (nreplicas : ℕ) (proposals : List (List Hash × Hash))
    (s : PMRoundRobinProposer Hash) : Option (PMRoundRobinProposer Hash) :=
  s.timer.map fun (timeout, _) =>
    match timeout with
    | .on_exp_timeout => { s with timer := none }.on_exp_timeout id proposals
    | .rotate => { s with timer := none }.rotate nreplicas

/-! ## Runs -/

inductive Event (Hash : Type) where
  | impeach
  | expire (proposals : List (List Hash × Hash))
  | on_propose (blk : Hash)
  | on_receive_proposal (proposer : ReplicaID) (blk : Hash)
  | on_consensus (blk : Hash)

/-- The replica, and how many there are. -/
structure Setting where
  id : ReplicaID
  nreplicas : ℕ

/-- The commits of an own proposal outside of a timer are events of their own. -/
def step (setting : Setting) (s : PMRoundRobinProposer Hash) :
    Event Hash → Option (PMRoundRobinProposer Hash)
  | .impeach => some (s.impeach setting.nreplicas)
  | .expire proposals => s.expire setting.id setting.nreplicas proposals
  | .on_propose blk => some (s.on_propose setting.id ([], blk))
  | .on_receive_proposal proposer blk => some (s.on_receive_proposal proposer blk)
  | .on_consensus blk => some (s.on_consensus blk)

/-- The constructor, and `init`. -/
def init (base_timeout prop_delay : ℕ) : PMRoundRobinProposer Hash :=
  { base_timeout := base_timeout
    exp_timeout := base_timeout
    prop_delay := prop_delay
    timer := none
    proposer := 0
    prop_blk := fun _ => none
    rotating := false
    proposal_callbacks := 0
    receive_callbacks := 0 }

/-- A block that commits during a rotation is the first one of the proposer it turned to. -/
def Matching (s : PMRoundRobinProposer Hash) : Event Hash → Prop
  | .on_consensus blk => s.rotating = true → s.prop_blk s.proposer = some blk
  | _ => True

instance (s : PMRoundRobinProposer Hash) : DecidablePred (Matching s)
  | .on_consensus blk =>
    inferInstanceAs (Decidable (s.rotating = true → s.prop_blk s.proposer = some blk))
  | .impeach | .expire _ | .on_propose _ | .on_receive_proposal .. => isTrue trivial

/-! ## A rotation has a timer -/

/-- A rotation that goes on has something scheduled, and `Timeout` has nothing else to call. -/
def Armed (s : PMRoundRobinProposer Hash) : Prop := s.rotating = true → s.timer.isSome = true

instance (s : PMRoundRobinProposer Hash) : Decidable s.Armed :=
  inferInstanceAs (Decidable (_ → _))

theorem on_consensus_armed_iff (blk : Hash) (s : PMRoundRobinProposer Hash) :
    (s.on_consensus blk).Armed ↔ s.Matching (.on_consensus blk) := by
  unfold on_consensus Matching
  dsimp only
  split
  · rename_i hblk
    exact ⟨fun _ _ => hblk, fun _ h => nomatch h⟩
  · rename_i hblk
    refine ⟨fun h hrot => ?_, fun h hrot => absurd (h hrot) hblk⟩
    cases h hrot

omit [DecidableEq Hash] in
theorem rotate_armed (nreplicas : ℕ) (s : PMRoundRobinProposer Hash) :
    (s.rotate nreplicas).Armed := fun _ => rfl

/-- Whatever commits inside of it, the timer is set again. -/
theorem on_exp_timeout_armed (id : ReplicaID) (proposals : List (List Hash × Hash))
    (s : PMRoundRobinProposer Hash) : (s.on_exp_timeout id proposals).Armed := fun _ => rfl

theorem Armed.step {setting : Setting} {s t : PMRoundRobinProposer Hash} {e : Event Hash}
    (h : s.Armed) (hok : s.Matching e) (he : s.step setting e = some t) : t.Armed := by
  cases e with
  | impeach =>
    obtain rfl := Option.some.inj he
    unfold PMRoundRobinProposer.impeach
    split
    · exact h
    · exact rotate_armed setting.nreplicas s
  | expire proposals =>
    obtain ⟨⟨timeout, delay⟩, _, rfl⟩ := Option.map_eq_some_iff.mp he
    cases timeout with
    | on_exp_timeout => exact on_exp_timeout_armed setting.id proposals _
    | rotate => exact rotate_armed setting.nreplicas _
  | on_propose blk => exact Option.some.inj he ▸ h
  | on_receive_proposal proposer blk => exact Option.some.inj he ▸ h
  | on_consensus blk => exact Option.some.inj he ▸ (on_consensus_armed_iff ..).mpr hok

theorem matching_commits_keep_the_rotation_going {setting : Setting}
    {base_timeout prop_delay : ℕ} {s : PMRoundRobinProposer Hash}
    (h : Runs (step setting) Matching (init base_timeout prop_delay) s) : s.Armed :=
  h.keeps (fun hrot => nomatch hrot) fun _ _ _ ht hok he => ht.step hok he

/-- Replica 0 of four. -/
def first_of_four : Setting := { id := 0, nreplicas := 4 }

theorem a_late_commit_stalls_the_rotation :
    ¬ ∀ (setting : Setting) (base_timeout prop_delay : ℕ) (s : PMRoundRobinProposer ℕ),
      Runs (step setting) Anything (init base_timeout prop_delay) s → s.Armed := by
  intro h
  have hplay : ∃ s : PMRoundRobinProposer ℕ, play (step first_of_four) Anything (init 1 1)
      [.on_propose 1, .impeach, .on_consensus 1] = some s ∧ ¬ s.Armed := ⟨_, rfl, by decide⟩
  obtain ⟨s, hs, hstall⟩ := hplay
  exact hstall (h _ _ _ s (.of_play hs))

theorem a_rotation_past_a_silent_proposer_is_armed :
    ∃ s : PMRoundRobinProposer ℕ, Runs (step first_of_four) Matching (init 1 1) s ∧
      s.rotating = true ∧ s.proposer = 2 ∧ s.Armed := by
  have hplay : ∃ s : PMRoundRobinProposer ℕ, play (step first_of_four) Matching (init 1 1)
      [.impeach, .expire [], .expire [], .on_receive_proposal 2 5] = some s ∧
        s.rotating = true ∧ s.proposer = 2 := ⟨_, rfl, by decide⟩
  obtain ⟨s, hs, hrot, hprop⟩ := hplay
  have hrun := Runs.of_play hs
  exact ⟨s, hrun, hrot, hprop, matching_commits_keep_the_rotation_going hrun⟩

end PMRoundRobinProposer

end general_hotstuff
