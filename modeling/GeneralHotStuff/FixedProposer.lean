-- The batches of the fixed proposer: from the handler of `cmd_pending` through the beats
-- of `PaceMakerDummyFixed` into its own blocks. Its blocks are numbered in the order in
-- which it proposes them, and genesis is number 0.
import GeneralHotStuff.CommandQueue

namespace general_hotstuff

open transitions

variable {Hash : Type} [DecidableEq Hash]

/-! ## The state -/

/-- A block that the replica proposed. -/
structure OwnBlock (Hash : Type) where
  cmds : List Hash
  committed : Bool
  deriving DecidableEq

/-- The replica with the fields of `PMWaitQC`. A beat stands for the batch that its promise waits
to propose, and `pm_qc_finish` is the block whose QC is waited for, with the beat that it resolves.
`finished` are the blocks with a QC. -/
structure FixedProposer (Hash : Type) where
  base : CommandState Hash
  pending_beats : List (List Hash)
  last_proposed : ℕ
  locked : Bool
  pm_qc_finish : Option (ℕ × List Hash)
  blocks : List (OwnBlock Hash)
  finished : Finset ℕ

namespace FixedProposer

def start (id : quorums.ReplicaID) (blk_size : ℕ) : FixedProposer Hash :=
  { base := .start id blk_size
    pending_beats := []
    last_proposed := 0
    locked := false
    pm_qc_finish := none
    blocks := [⟨[], true⟩]
    finished := {0} }

/-! ## The functions -/

/-- The batch becomes a block. `alone n` says that the replica's own vote is a quorum for block
number `n`. -/
def add_block (alone : ℕ → Bool) (cmds : List Hash) (s : FixedProposer Hash) :
    FixedProposer Hash :=
  let n := s.blocks.length
  { s with
    blocks := s.blocks ++ [⟨cmds, false⟩]
    finished := if alone n then insert n s.finished else s.finished }

/-- `schedule_next`, as the callback of `update_last_proposed` calls it. When the QC is there
already, the beat proposes at once. The callback is not registered again at that point, so it does
not hear of this block, and the lock is set after it. -/
def schedule_next (alone : ℕ → Bool) (s : FixedProposer Hash) : FixedProposer Hash :=
  match s.pending_beats with
  | [] => s
  | cmds :: rest =>
    if s.locked then s
    else if s.last_proposed ∈ s.finished then
      { { s with pending_beats := rest, pm_qc_finish := none }.add_block alone cmds with
        locked := true }
    else
      { s with
        pending_beats := rest
        pm_qc_finish := some (s.last_proposed, cmds)
        locked := true }

/-- What `on_propose` does to the proposer, with the callback of `update_last_proposed`. -/
def on_propose (alone : ℕ → Bool) (cmds : List Hash) (s : FixedProposer Hash) :
    FixedProposer Hash :=
  { s.add_block alone cmds with last_proposed := s.blocks.length, locked := false }.schedule_next
    alone

/-- `beat`, and the continuation that its caller adds. A promise that `beat` has resolved when it
returns runs the continuation at once, after the lock is set. -/
def beat (alone : ℕ → Bool) (cmds : List Hash) (s : FixedProposer Hash) : FixedProposer Hash :=
  if s.locked = false ∧ s.pending_beats = [] ∧ s.last_proposed ∈ s.finished then
    { s with locked := true, pm_qc_finish := none }.on_propose alone cmds
  else { s with pending_beats := s.pending_beats ++ [cmds] }.schedule_next alone

/-- The votes for a block become a quorum. -/
def on_qc_finish (alone : ℕ → Bool) (blk : ℕ) (s : FixedProposer Hash) : FixedProposer Hash :=
  let s1 := { s with finished := insert blk s.finished }
  match s.pm_qc_finish with
  | none => s1
  | some (b, cmds) =>
    if b = blk then { s1 with pm_qc_finish := none }.on_propose alone cmds else s1

def handle_cmd [Inhabited Hash] (alone : ℕ → Bool) (s : FixedProposer Hash) :
    FixedProposer Hash :=
  match s.base.handle_cmd s.base.id with
  | (base, none) => { s with base := base }
  | (base, some cmds) => { s with base := base }.beat alone cmds

/-! ## Runs -/

inductive Event (Hash : Type) where
  | exec_command (cmd_hash : Hash)
  | handle_cmd
  | on_qc_finish (blk : ℕ)
  | commit (i : ℕ) (blk : Hash) (height : ℕ)

/-- A block is committed at most once. -/
def step [Inhabited Hash] (alone : ℕ → Bool) (s : FixedProposer Hash) :
    Event Hash → Option (FixedProposer Hash)
  | .exec_command cmd_hash =>
    some { s with base := s.base.exec_command cmd_hash s.base.submissions.length }
  | .handle_cmd => some (s.handle_cmd alone)
  | .on_qc_finish blk => some (s.on_qc_finish alone blk)
  | .commit i blk height =>
    match s.blocks[i]? with
    | some ⟨cmds, false⟩ =>
      some
        { s with
          base := s.base.commit blk height cmds
          blocks := s.blocks.set i ⟨cmds, true⟩ }
    | _ => none

/-- A submission that the handler takes is of a command that nobody waits for, or of a decided
one. -/
def Fresh (s : FixedProposer Hash) : Event Hash → Prop
  | .handle_cmd => ∀ e ∈ s.base.cmd_pending.head?,
      s.base.decision_waiting e.1 = none ∨ s.base.Decided e.1
  | _ => True

/-- The handler takes no submission of the command after its decision. -/
def Early (cmd : Hash) (s : FixedProposer Hash) : Event Hash → Prop
  | .handle_cmd => ∀ e ∈ s.base.cmd_pending.head?, e.1 = cmd → ¬ s.base.Decided cmd
  | _ => True

instance [Inhabited Hash] (s : FixedProposer Hash) : DecidablePred (Fresh s)
  | .handle_cmd => inferInstanceAs (Decidable (∀ e ∈ s.base.cmd_pending.head?,
      s.base.decision_waiting e.1 = none ∨ s.base.Decided e.1))
  | .exec_command _ | .on_qc_finish _ | .commit .. => isTrue trivial

instance (cmd : Hash) (s : FixedProposer Hash) : DecidablePred (Early cmd s)
  | .handle_cmd => inferInstanceAs (Decidable (∀ e ∈ s.base.cmd_pending.head?, e.1 = cmd →
      ¬ s.base.Decided cmd))
  | .exec_command _ | .on_qc_finish _ | .commit .. => isTrue trivial

/-! ## How often a command is on its way -/

/-- The commands of the proposed blocks. -/
def proposed_cmds (s : FixedProposer Hash) : List Hash := s.blocks.flatMap (·.cmds)

/-- How often a command stands in the buffer, in a batch that waits, and in a block. -/
def occurrences (s : FixedProposer Hash) (cmd : Hash) : ℕ :=
  s.base.cmd_pending_buffer.count cmd + s.pending_beats.flatten.count cmd +
    s.pm_qc_finish.elim 0 (·.2.count cmd) + s.proposed_cmds.count cmd

/-- How often the replica executed a command. -/
def executions (s : FixedProposer Hash) (cmd : Hash) : ℕ :=
  (s.base.executed.filter (·.cmd_hash = cmd)).length

/-! ## The beats that wait -/

/-- A beat waits only behind the lock, so `beat` never finds an earlier one that could go first. -/
def Held (s : FixedProposer Hash) : Prop := s.pending_beats ≠ [] → s.locked = true

omit [DecidableEq Hash] in
theorem schedule_next_held (alone : ℕ → Bool) (s : FixedProposer Hash) :
    (s.schedule_next alone).Held := by
  unfold schedule_next
  split
  · rename_i hnil
    exact fun h => absurd hnil h
  · split
    · rename_i hlock
      exact fun _ => hlock
    · split <;> exact fun _ => rfl

omit [DecidableEq Hash] in
theorem beat_held (alone : ℕ → Bool) (cmds : List Hash) (s : FixedProposer Hash) :
    (s.beat alone cmds).Held := by
  unfold beat
  split
  · exact schedule_next_held alone _
  · exact schedule_next_held alone _

theorem Held.of_runs [Inhabited Hash] {id : quorums.ReplicaID} {blk_size : ℕ} {alone : ℕ → Bool}
    {s : FixedProposer Hash} (h : Runs (step alone) Anything (start id blk_size) s) : s.Held := by
  refine h.keeps (fun hne => absurd rfl hne) fun t e u ht _ he => ?_
  cases e with
  | exec_command cmd => exact Option.some.inj he ▸ ht
  | handle_cmd =>
    obtain rfl := Option.some.inj he
    unfold handle_cmd
    split
    · exact ht
    · exact beat_held alone _ _
  | on_qc_finish blk =>
    obtain rfl := Option.some.inj he
    unfold on_qc_finish
    dsimp only
    split
    · exact ht
    · split
      · exact schedule_next_held alone _
      · exact ht
  | commit i blk height =>
    simp only [step] at he
    split at he
    · exact Option.some.inj he ▸ ht
    · cases he

/-! ## The pace maker loses and copies nothing -/

section

variable (alone : ℕ → Bool) (cmds : List Hash) (s : FixedProposer Hash) (cmd : Hash)

omit [DecidableEq Hash] in
@[simp] theorem schedule_next_base : (s.schedule_next alone).base = s.base := by
  unfold schedule_next add_block
  split
  · rfl
  · split
    · rfl
    · split <;> rfl

omit [DecidableEq Hash] in
@[simp] theorem on_propose_base : (s.on_propose alone cmds).base = s.base := by
  simp [on_propose, add_block]

omit [DecidableEq Hash] in
@[simp] theorem beat_base : (s.beat alone cmds).base = s.base := by
  unfold beat
  split <;> simp

/-- The beat that waited for a QC is rejected when the next one is scheduled. -/
theorem schedule_next_occurrences :
    (s.schedule_next alone).occurrences cmd ≤ s.occurrences cmd := by
  unfold schedule_next
  split
  · exact Nat.le_refl _
  · rename_i cmds rest hpend
    split
    · exact Nat.le_refl _
    · split
      · simp only [occurrences, proposed_cmds, add_block, hpend, List.flatMap_append,
          List.count_append, List.flatMap_cons, List.flatMap_nil, List.append_nil, Option.elim,
          List.flatten_cons]
        omega
      · simp only [occurrences, proposed_cmds, hpend, Option.elim, List.flatten_cons,
          List.count_append]
        omega

theorem on_propose_occurrences :
    (s.on_propose alone cmds).occurrences cmd ≤ s.occurrences cmd + cmds.count cmd := by
  refine (schedule_next_occurrences ..).trans ?_
  simp only [occurrences, proposed_cmds, add_block, List.flatMap_append, List.count_append,
    List.flatMap_cons, List.flatMap_nil, List.append_nil]
  omega

theorem beat_occurrences :
    (s.beat alone cmds).occurrences cmd ≤ s.occurrences cmd + cmds.count cmd := by
  unfold beat
  split
  · refine (on_propose_occurrences ..).trans ?_
    simp only [occurrences, proposed_cmds, Option.elim]
    omega
  · refine (schedule_next_occurrences ..).trans ?_
    simp only [occurrences, proposed_cmds, List.flatten_append, List.flatten_cons,
      List.flatten_nil, List.append_nil, List.count_append]
    omega

omit [DecidableEq Hash] in
theorem on_qc_finish_base (blk : ℕ) : (s.on_qc_finish alone blk).base = s.base := by
  unfold on_qc_finish
  dsimp only
  split
  · rfl
  · split <;> simp

theorem on_qc_finish_occurrences (blk : ℕ) :
    (s.on_qc_finish alone blk).occurrences cmd ≤ s.occurrences cmd := by
  unfold on_qc_finish
  dsimp only
  split
  · exact Nat.le_refl _
  · rename_i b cmds hfin
    split
    · refine (on_propose_occurrences ..).trans ?_
      simp only [occurrences, proposed_cmds, hfin, Option.elim]
      omega
    · exact Nat.le_refl _

end

/-! ## Commits -/

theorem commit_waiting {s : CommandState Hash} {cmd : Hash} {blk : Hash} {height : ℕ}
    {cmds : List Hash} (h : ¬ (s.commit blk height cmds).Decided cmd) :
    (s.commit blk height cmds).decision_waiting cmd = s.decision_waiting cmd ∧ ¬ s.Decided cmd := by
  let P : CommandState Hash → Prop := fun t =>
    ¬ t.Decided cmd → t.decision_waiting cmd = s.decision_waiting cmd ∧ ¬ s.Decided cmd
  have hall : P (s.commit blk height cmds) := by
    refine CommandState.commit_keeps (fun t fin _ ht hd => ?_) (fun hd => ⟨rfl, hd⟩) ..
    rw [CommandState.do_decide_decided, not_or] at hd
    rw [CommandState.do_decide_waiting, if_neg (Ne.symm hd.2)]
    exact ht hd.1
  exact hall h

omit [DecidableEq Hash] in
theorem set_proposed_cmds {blocks : List (OwnBlock Hash)} {i : ℕ} {cmds : List Hash}
    (h : blocks[i]? = some ⟨cmds, false⟩) :
    (blocks.set i ⟨cmds, true⟩).flatMap (·.cmds) = blocks.flatMap (·.cmds) := by
  induction blocks generalizing i with
  | nil => cases h
  | cons b blocks ih =>
    cases i with
    | zero =>
      obtain rfl : b = ⟨cmds, false⟩ := by simpa using h
      rfl
    | succ i => simp [ih (by simpa using h)]

theorem commit_buffer (s : CommandState Hash) (blk : Hash) (height : ℕ) (cmds : List Hash) :
    (s.commit blk height cmds).cmd_pending_buffer = s.cmd_pending_buffer := by
  let P : CommandState Hash → Prop := fun t => t.cmd_pending_buffer = s.cmd_pending_buffer
  have hstep : ∀ t fin, fin.decision = 1 → P t → P (t.do_decide fin) := by
    intro t fin _ ht
    unfold CommandState.do_decide
    dsimp only
    split <;> exact ht
  exact CommandState.commit_keeps hstep rfl blk height cmds

theorem commit_executed (s : CommandState Hash) (blk : Hash) (height : ℕ) (cmds : List Hash) :
    (s.commit blk height cmds).executed =
      s.executed ++ CommandState.decisions s.id blk height cmds := by
  unfold CommandState.commit
  generalize CommandState.decisions s.id blk height cmds = l
  induction l generalizing s with
  | nil => simp
  | cons fin l ih => simp [ih]

omit [DecidableEq Hash] in
theorem decisions_cmds (id : quorums.ReplicaID) (blk : Hash) (height : ℕ) (cmds : List Hash) :
    (CommandState.decisions id blk height cmds).map (·.cmd_hash) = cmds := by
  simp [CommandState.decisions, Function.comp_def]

variable [Inhabited Hash]

/-- A turn of the handler puts the command that it takes on its way once more. -/
theorem handle_cmd_batch (proposer : quorums.ReplicaID) (s : CommandState Hash) (cmd : Hash) :
    (s.handle_cmd proposer).1.cmd_pending_buffer.count cmd +
        ((s.handle_cmd proposer).2.getD []).count cmd ≤
      s.cmd_pending_buffer.count cmd + (s.cmd_pending.head?.map Prod.fst).toList.count cmd := by
  unfold CommandState.handle_cmd
  split
  · simp
  · rename_i c k rest hq
    have hbuf : ({ s with cmd_pending := rest }.await_decision c k).cmd_pending_buffer =
        s.cmd_pending_buffer := by
      unfold CommandState.await_decision
      split <;> rfl
    split
    · simp [hbuf]
    · unfold CommandState.buffer_cmd
      simp only [hbuf, hq, List.head?_cons, Option.map_some, Option.toList_some]
      split
      · simp only [Option.getD_some]
        rw [Nat.add_comm, ← List.count_append, List.take_append_drop, List.count_append]
      · simp [List.count_append]

theorem handle_cmd_base (alone : ℕ → Bool) (s : FixedProposer Hash) :
    (s.handle_cmd alone).base = (s.base.handle_cmd s.base.id).1 := by
  unfold handle_cmd
  split <;> simp [*]

theorem handle_cmd_occurrences (alone : ℕ → Bool) (s : FixedProposer Hash) (cmd : Hash) :
    (s.handle_cmd alone).occurrences cmd ≤
      s.occurrences cmd + (s.base.cmd_pending.head?.map Prod.fst).toList.count cmd := by
  have hbatch := handle_cmd_batch s.base.id s.base cmd
  unfold handle_cmd
  split
  · rename_i base h
    simp only [h, Option.getD_none, List.count_nil] at hbatch
    simp only [occurrences, proposed_cmds]
    omega
  · rename_i base cmds h
    simp only [h, Option.getD_some] at hbatch
    refine (beat_occurrences ..).trans ?_
    simp only [occurrences, proposed_cmds]
    omega

/-! ## A command that is on its way at most once -/

/-- The command is on its way at most once, and not at all while it neither waits nor is decided. -/
structure Single (cmd : Hash) (s : FixedProposer Hash) : Prop where
  once : s.occurrences cmd ≤ 1
  waits : s.base.decision_waiting cmd = none → ¬ s.base.Decided cmd → s.occurrences cmd = 0

/-- The handler takes the command only when it neither waits nor is decided. -/
def TakenOnce (cmd : Hash) (s : FixedProposer Hash) : Event Hash → Prop
  | .handle_cmd => ∀ e ∈ s.base.cmd_pending.head?, e.1 = cmd →
      s.base.decision_waiting cmd = none ∧ ¬ s.base.Decided cmd
  | _ => True

theorem Single.step {alone : ℕ → Bool} {cmd : Hash} {s t : FixedProposer Hash} {e : Event Hash}
    (h : s.Single cmd) (hok : s.TakenOnce cmd e) (he : s.step alone e = some t) :
    t.Single cmd := by
  cases e with
  | exec_command c => exact Option.some.inj he ▸ ⟨h.once, h.waits⟩
  | handle_cmd =>
    obtain rfl := Option.some.inj he
    have hocc := handle_cmd_occurrences alone s cmd
    obtain ⟨hq, hbase⟩ | ⟨c, k, rest, buffer, beats, hq, hbase⟩ :=
      s.base.handle_cmd_cases s.base.id
    · rw [hq] at hocc
      refine ⟨hocc.trans h.once, fun hw hd => ?_⟩
      rw [handle_cmd_base, hbase] at hw hd
      exact Nat.le_zero.mp (hocc.trans (h.waits hw hd).le)
    · rw [hq] at hocc
      by_cases hc : c = cmd
      · -- nothing of the command was on its way before
        obtain ⟨hnone, hund⟩ := hok (c, k) (by rw [hq]; rfl) hc
        have hzero := h.waits hnone hund
        refine ⟨by simpa [hc, hzero] using hocc, fun hw _ => ?_⟩
        rw [handle_cmd_base, hbase] at hw
        simp [hc, hnone] at hw
      · have hocc : (s.handle_cmd alone).occurrences cmd ≤ s.occurrences cmd := by
          simpa [hc] using hocc
        refine ⟨hocc.trans h.once, fun hw hd => ?_⟩
        rw [handle_cmd_base, hbase] at hw hd
        have hwaits : s.base.decision_waiting cmd = none := by simpa [Ne.symm hc] using hw
        have hund : ¬ s.base.Decided cmd := by simpa [CommandState.Decided] using hd
        exact Nat.le_zero.mp (hocc.trans (h.waits hwaits hund).le)
  | on_qc_finish blk =>
    obtain rfl := Option.some.inj he
    have hocc := on_qc_finish_occurrences alone s cmd blk
    refine ⟨hocc.trans h.once, fun hw hd => ?_⟩
    rw [on_qc_finish_base] at hw hd
    exact Nat.le_zero.mp (hocc.trans (h.waits hw hd).le)
  | commit i blk height =>
    simp only [FixedProposer.step] at he
    split at he
    · rename_i cmds hi
      obtain rfl := Option.some.inj he
      have hocc : ({ s with
          base := s.base.commit blk height cmds
          blocks := s.blocks.set i ⟨cmds, true⟩ } : FixedProposer Hash).occurrences cmd =
            s.occurrences cmd := by
        simp only [occurrences, proposed_cmds, set_proposed_cmds hi, commit_buffer]
      refine ⟨hocc.le.trans h.once, fun hw hd => hocc.trans ?_⟩
      obtain ⟨hwait, hund⟩ := commit_waiting hd
      exact h.waits (hwait.symm.trans hw) hund
    · cases he

/-! ## Executions come from proposed blocks -/

/-- The commands of the proposed blocks that are not committed. -/
def backlog (s : FixedProposer Hash) : List Hash :=
  (s.blocks.filter (!·.committed)).flatMap (·.cmds)

/-- What stands in the proposed blocks is executed or is still to be committed. -/
def Balanced (s : FixedProposer Hash) : Prop :=
  ∀ cmd, s.executions cmd + s.backlog.count cmd = s.proposed_cmds.count cmd

section

omit [Inhabited Hash]

variable {s : FixedProposer Hash}

theorem Balanced.add_block (h : s.Balanced) (alone : ℕ → Bool) (cmds : List Hash) :
    (s.add_block alone cmds).Balanced := by
  intro cmd
  have hcmd := h cmd
  simp only [executions, backlog, proposed_cmds, FixedProposer.add_block, List.filter_append,
    List.flatMap_append, List.count_append] at hcmd ⊢
  simp
  omega

theorem Balanced.schedule_next (h : s.Balanced) (alone : ℕ → Bool) :
    (s.schedule_next alone).Balanced := by
  unfold FixedProposer.schedule_next
  split
  · exact h
  · rename_i cmds rest _
    split
    · exact h
    · split
      · have hs : ({ s with pending_beats := rest, pm_qc_finish := none } :
            FixedProposer Hash).Balanced := h
        exact hs.add_block alone cmds
      · exact h

theorem Balanced.on_propose (h : s.Balanced) (alone : ℕ → Bool) (cmds : List Hash) :
    (s.on_propose alone cmds).Balanced := by
  have hs : ({ s.add_block alone cmds with last_proposed := s.blocks.length, locked := false } :
      FixedProposer Hash).Balanced := h.add_block alone cmds
  exact hs.schedule_next alone

theorem Balanced.beat (h : s.Balanced) (alone : ℕ → Bool) (cmds : List Hash) :
    (s.beat alone cmds).Balanced := by
  unfold FixedProposer.beat
  split
  · have hs : ({ s with locked := true, pm_qc_finish := none } : FixedProposer Hash).Balanced := h
    exact hs.on_propose alone cmds
  · have hs : ({ s with pending_beats := s.pending_beats ++ [cmds] } :
        FixedProposer Hash).Balanced := h
    exact hs.schedule_next alone

theorem Balanced.on_qc_finish (h : s.Balanced) (alone : ℕ → Bool) (blk : ℕ) :
    (s.on_qc_finish alone blk).Balanced := by
  have hs : ({ s with finished := insert blk s.finished } : FixedProposer Hash).Balanced := h
  unfold FixedProposer.on_qc_finish
  dsimp only
  split
  · exact hs
  · rename_i b cmds _
    split
    · have hs1 : ({ s with finished := insert blk s.finished, pm_qc_finish := none } :
          FixedProposer Hash).Balanced := h
      exact hs1.on_propose alone cmds
    · exact hs

theorem set_backlog {blocks : List (OwnBlock Hash)} {i : ℕ} {cmds : List Hash} (cmd : Hash)
    (h : blocks[i]? = some ⟨cmds, false⟩) :
    ((blocks.filter (!·.committed)).flatMap (·.cmds)).count cmd =
      cmds.count cmd +
        (((blocks.set i ⟨cmds, true⟩).filter (!·.committed)).flatMap (·.cmds)).count cmd := by
  induction blocks generalizing i with
  | nil => cases h
  | cons b blocks ih =>
    cases i with
    | zero =>
      obtain rfl : b = ⟨cmds, false⟩ := by simpa using h
      simp
    | succ i =>
      have hih := ih (i := i) (by simpa using h)
      rw [List.set_cons_succ, List.filter_cons, List.filter_cons]
      split
      · simp only [List.flatMap_cons, List.count_append, hih]
        omega
      · exact hih

end

theorem Balanced.step {alone : ℕ → Bool} {s t : FixedProposer Hash} {e : Event Hash}
    (h : s.Balanced) (he : s.step alone e = some t) : t.Balanced := by
  cases e with
  | exec_command c => exact Option.some.inj he ▸ h
  | handle_cmd =>
    obtain rfl := Option.some.inj he
    have hexec : (s.base.handle_cmd s.base.id).1.executed = s.base.executed := by
      obtain ⟨_, hbase⟩ | ⟨c, k, rest, buffer, beats, _, hbase⟩ :=
        s.base.handle_cmd_cases s.base.id
      · rw [hbase]
      · simp [hbase]
    have hs : ({ s with base := (s.base.handle_cmd s.base.id).1 } :
        FixedProposer Hash).Balanced := by
      intro cmd
      simpa only [executions, backlog, proposed_cmds, hexec] using h cmd
    unfold FixedProposer.handle_cmd
    split
    · rename_i base heq
      rwa [heq] at hs
    · rename_i base cmds heq
      rw [heq] at hs
      exact hs.beat alone cmds
  | on_qc_finish blk => exact Option.some.inj he ▸ h.on_qc_finish alone blk
  | commit i blk height =>
    simp only [FixedProposer.step] at he
    split at he
    · rename_i cmds hi
      obtain rfl := Option.some.inj he
      intro cmd
      have hcmd := h cmd
      have hback := set_backlog cmd hi
      have hdec : ((CommandState.decisions s.base.id blk height cmds).filter
          (·.cmd_hash = cmd)).length = cmds.count cmd := by
        have hcount := congrArg (List.count cmd) (decisions_cmds s.base.id blk height cmds)
        rw [← hcount, List.count_eq_length_filter, List.filter_map, List.length_map]
        rfl
      simp only [executions, backlog, proposed_cmds, commit_executed, List.filter_append,
        List.length_append, set_proposed_cmds hi, hdec] at hcmd ⊢
      omega
    · cases he

/-! ## No command is proposed or executed twice -/

omit [Inhabited Hash] in
theorem start_single (id : quorums.ReplicaID) (blk_size : ℕ) (cmd : Hash) :
    (start id blk_size : FixedProposer Hash).Single cmd := by
  have hzero : (start id blk_size : FixedProposer Hash).occurrences cmd = 0 := by
    simp [occurrences, start, CommandState.start, proposed_cmds]
  exact ⟨hzero.le.trans (Nat.zero_le 1), fun _ _ => hzero⟩

theorem decided_grows {alone : ℕ → Bool} {s t : FixedProposer Hash} {e : Event Hash} {cmd : Hash}
    (he : s.step alone e = some t) (h : s.base.Decided cmd) : t.base.Decided cmd := by
  cases e with
  | exec_command c => exact Option.some.inj he ▸ h
  | handle_cmd =>
    obtain rfl := Option.some.inj he
    rw [handle_cmd_base]
    obtain ⟨_, hbase⟩ | ⟨c, k, rest, buffer, beats, _, hbase⟩ :=
      s.base.handle_cmd_cases s.base.id
    · rwa [hbase]
    · simpa [hbase, CommandState.Decided] using h
  | on_qc_finish blk =>
    obtain rfl := Option.some.inj he
    rwa [on_qc_finish_base]
  | commit i blk height =>
    simp only [FixedProposer.step] at he
    split at he
    · obtain rfl := Option.some.inj he
      obtain ⟨fin, hfin, hcmd⟩ := h
      exact ⟨fin, by simp [commit_executed, hfin], hcmd⟩
    · cases he

/-- While no command is taken from the queue that waits for its decision, an undecided command
stands at most once in all the blocks that the replica proposed, and a command that is not submitted
again after its decision is executed at most once. -/
theorem fresh_submissions_are_executed_once {id : quorums.ReplicaID} {blk_size : ℕ}
    {alone : ℕ → Bool} {s : FixedProposer Hash}
    (h : Runs (step alone) Fresh (start id blk_size) s) (cmd : Hash) :
    (¬ s.base.Decided cmd → s.proposed_cmds.count cmd ≤ 1) ∧
      (Runs (step alone) (fun t e => Fresh t e ∧ Early cmd t e) (start id blk_size) s →
        s.executions cmd ≤ 1) := by
  constructor
  · have hsingle : ¬ s.base.Decided cmd → s.Single cmd := by
      refine h.keeps (P := fun s => ¬ s.base.Decided cmd → s.Single cmd)
        (fun _ => start_single id blk_size cmd) fun t e u ht hok he hu => ?_
      have hund : ¬ t.base.Decided cmd := fun hd => hu (decided_grows he hd)
      refine (ht hund).step ?_ he
      cases e with
      | handle_cmd =>
        rintro e he rfl
        exact ⟨(hok e he).resolve_right hund, hund⟩
      | _ => trivial
    intro hund
    have honce := (hsingle hund).once
    unfold occurrences at honce
    omega
  · intro hrun
    have hsingle : s.Single cmd := by
      refine hrun.keeps (start_single id blk_size cmd) fun t e u ht hok he => ht.step ?_ he
      cases e with
      | handle_cmd =>
        rintro e he rfl
        have hund := hok.2 e he rfl
        exact ⟨(hok.1 e he).resolve_right hund, hund⟩
      | _ => trivial
    have hbal : s.Balanced := by
      refine hrun.keeps (fun c => ?_) fun t e u ht _ he => ht.step he
      simp [executions, backlog, proposed_cmds, start, CommandState.start]
    have honce := hsingle.once
    have hcmd := hbal cmd
    unfold occurrences at honce
    omega

/-- Command 7 comes twice before its decision, and a batch is two commands. -/
def repeated : List (Event ℕ) :=
  [.exec_command 7, .exec_command 7, .handle_cmd, .handle_cmd, .commit 1 5 1]

theorem a_repeated_submission_is_executed_twice :
    ¬ ∀ (id : quorums.ReplicaID) (blk_size : ℕ) (alone : ℕ → Bool) (s : FixedProposer ℕ),
      Runs (step alone) Anything (start id blk_size) s → ∀ cmd,
        (¬ s.base.Decided cmd → s.proposed_cmds.count cmd ≤ 1) ∧
          (Runs (step alone) (Early cmd) (start id blk_size) s → s.executions cmd ≤ 1) := by
  intro h
  have hplay : ∃ s, play (step fun _ => false) (Early 7) (start 0 2) repeated = some s ∧
      s.executions 7 = 2 := ⟨_, rfl, by decide⟩
  obtain ⟨s, hs, htwo⟩ := hplay
  have hrun := Runs.of_play hs
  have hone := (h 0 2 _ s (hrun.mono fun _ _ _ => trivial) 7).2 hrun
  omega

/-- The third command goes into the second batch, with a repetition of the first command after its
decision. -/
def in_two_batches : List (Event ℕ) :=
  [.exec_command 7, .exec_command 8, .exec_command 9, .handle_cmd, .handle_cmd, .handle_cmd,
    .on_qc_finish 1, .commit 1 5 1, .exec_command 7, .handle_cmd]

theorem commands_in_two_batches_are_executed_once :
    ∃ s : FixedProposer ℕ, Runs (step fun _ => false) Fresh (start 0 2) s ∧
      s.proposed_cmds = [7, 8, 9, 7] ∧ (s.base.Decided 8 ∧ s.executions 8 ≤ 1) ∧
      ¬ s.base.Decided 9 ∧ s.proposed_cmds.count 9 ≤ 1 := by
  have hplay : ∃ s, play (step fun _ => false) (fun t e => Fresh t e ∧ Early 8 t e) (start 0 2)
      in_two_batches = some s ∧ s.proposed_cmds = [7, 8, 9, 7] ∧ s.base.Decided (8 : ℕ) ∧
        ¬ s.base.Decided (9 : ℕ) :=
    ⟨_, rfl, rfl, by decide, by decide⟩
  obtain ⟨s, hs, hcmds, hdecided, hundecided⟩ := hplay
  have hrun := Runs.of_play hs
  have hfresh := hrun.mono fun _ _ h => h.1
  exact ⟨s, hfresh, hcmds, ⟨hdecided, (fresh_submissions_are_executed_once hfresh 8).2 hrun⟩,
    hundecided, (fresh_submissions_are_executed_once hfresh 9).1 hundecided⟩

end FixedProposer

end general_hotstuff
