-- The way of a command through `HotStuffBase`: `exec_command`, the handler of
-- `cmd_pending` and `do_decide`. Which blocks are committed, and when, is left open,
-- and so is the pace maker.
import GeneralHotStuff.Transitions
import GeneralHotStuff.Consensus

namespace general_hotstuff

open quorums (ReplicaID)
open transitions

variable {Hash Sig : Type} [DecidableEq Hash]

/-! ## The state -/

/-- The fields of `HotStuffBase` for commands. A callback is named by the number of the call of
`exec_command` that brought it, and `submissions` are the commands of these calls. `called` are the
calls of callbacks, `executed` those of `state_machine_execute`, and `beats` the batches that wait
for `pmaker->beat()`. -/
structure CommandState (Hash : Type) where
  id : ReplicaID
  blk_size : ℕ
  cmd_pending : List (Hash × ℕ)
  cmd_pending_buffer : List Hash
  decision_waiting : Hash → Option ℕ
  submissions : List Hash
  called : List (ℕ × Finality Hash)
  executed : List (Finality Hash)
  beats : List (List Hash)

namespace CommandState

def start (id : ReplicaID) (blk_size : ℕ) : CommandState Hash :=
  { id := id
    blk_size := blk_size
    cmd_pending := []
    cmd_pending_buffer := []
    decision_waiting := fun _ => none
    submissions := []
    called := []
    executed := []
    beats := [] }

/-- What the callback of the submission with number `k` was called with. -/
def answers (s : CommandState Hash) (k : ℕ) : List (Finality Hash) :=
  (s.called.filter (·.1 = k)).map (·.2)

/-- The replica has executed the command. -/
def Decided (s : CommandState Hash) (cmd : Hash) : Prop := ∃ fin ∈ s.executed, fin.cmd_hash = cmd

instance (s : CommandState Hash) (cmd : Hash) : Decidable (s.Decided cmd) :=
  inferInstanceAs (Decidable (∃ fin ∈ s.executed, fin.cmd_hash = cmd))

/-! ## The functions -/

def exec_command (cmd_hash : Hash) (callback : ℕ) (s : CommandState Hash) : CommandState Hash :=
  { s with
    cmd_pending := s.cmd_pending ++ [(cmd_hash, callback)]
    submissions := s.submissions ++ [cmd_hash] }

/-- The answer to a command that is already waited for. -/
def refusal [Inhabited Hash] (id : ReplicaID) (cmd_hash : Hash) : Finality Hash :=
  ⟨id, 0, 0, 0, cmd_hash, default⟩

/-- The first half of a turn of the handler: the callback is kept or answered. -/
def await_decision [Inhabited Hash] (cmd_hash : Hash) (callback : ℕ) (s : CommandState Hash) :
    CommandState Hash :=
  match s.decision_waiting cmd_hash with
  | none =>
    { s with decision_waiting := Function.update s.decision_waiting cmd_hash (some callback) }
  | some _ => { s with called := s.called ++ [(callback, refusal s.id cmd_hash)] }

/-- The second half, for a replica that believes it is the proposer: a full buffer gives a batch. -/
def buffer_cmd (cmd_hash : Hash) (s : CommandState Hash) : CommandState Hash × Option (List Hash) :=
  let buffer := s.cmd_pending_buffer ++ [cmd_hash]
  if s.blk_size ≤ buffer.length then
    let cmds := buffer.take s.blk_size
    ({ s with cmd_pending_buffer := buffer.drop s.blk_size, beats := s.beats ++ [cmds] }, some cmds)
  else ({ s with cmd_pending_buffer := buffer }, none)

/-- A turn of the loop of the handler, with the batch after which the handler returns. -/
def handle_cmd [Inhabited Hash] (proposer : ReplicaID) (s : CommandState Hash) :
    CommandState Hash × Option (List Hash) :=
  match s.cmd_pending with
  | [] => (s, none)
  | (cmd_hash, callback) :: rest =>
    let s1 := { s with cmd_pending := rest }.await_decision cmd_hash callback
    if proposer ≠ s.id then (s1, none) else s1.buffer_cmd cmd_hash

/-- The handler takes commands until the queue, of which `n` are left, is empty or a batch is
full. -/
def cmd_handler [Inhabited Hash] (proposer : ReplicaID) : ℕ → CommandState Hash →
    CommandState Hash × Option (List Hash)
  | 0, s => (s, none)
  | n + 1, s =>
    match s.handle_cmd proposer with
    | (s1, some cmds) => (s1, some cmds)
    | (s1, none) => cmd_handler proposer n s1

def do_decide (fin : Finality Hash) (s : CommandState Hash) : CommandState Hash :=
  let s1 := { s with executed := s.executed ++ [fin] }
  match s.decision_waiting fin.cmd_hash with
  | none => s1
  | some callback =>
    { s1 with
      called := s.called ++ [(callback, fin)]
      decision_waiting := Function.update s.decision_waiting fin.cmd_hash none }

/-- What `update` passes to `do_decide` when it commits a block. -/
def decisions (id : ReplicaID) (blk : Hash) (height : ℕ) (cmds : List Hash) :
    List (Finality Hash) :=
  cmds.zipIdx.map fun (cmd, i) => ⟨id, 1, i, height, cmd, blk⟩

def commit (blk : Hash) (height : ℕ) (cmds : List Hash) (s : CommandState Hash) :
    CommandState Hash :=
  (decisions s.id blk height cmds).foldl (fun s fin => s.do_decide fin) s

/-- The commit loop of `update` makes just these calls. -/
theorem commit_one_decides (s : HotStuffCore Hash Sig) (blk : Hash) :
    (s.commit_one blk).out = s.out ++ .do_consensus blk ::
      (decisions s.id blk (s.height blk) ((s.storage blk).elim [] (·.cmds))).map .do_decide := by
  simp [HotStuffCore.commit_one, decisions]

/-! ## Runs -/

inductive Event (Hash : Type) where
  | exec_command (cmd_hash : Hash)
  | handle_cmd (proposer : ReplicaID)
  | commit (blk : Hash) (height : ℕ) (cmds : List Hash)

/-- Every submission has a callback of its own. The turns of the handler are events of their own,
so that a commit may come between them. -/
def step [Inhabited Hash] (s : CommandState Hash) : Event Hash → Option (CommandState Hash)
  | .exec_command cmd_hash => some (s.exec_command cmd_hash s.submissions.length)
  | .handle_cmd proposer => some (s.handle_cmd proposer).1
  | .commit blk height cmds => some (s.commit blk height cmds)

/-- From `s` the events lead to `t`, in any order. -/
abbrev Reaches [Inhabited Hash] (s t : CommandState Hash) : Prop := Runs step Anything s t

/-- A call of the handler is a series of turns. -/
theorem cmd_handler_reaches [Inhabited Hash] (proposer : ReplicaID) (n : ℕ)
    (s : CommandState Hash) : s.Reaches (s.cmd_handler proposer n).1 := by
  induction n generalizing s with
  | zero => exact .refl
  | succ n ih =>
    have hturn : s.Reaches (s.handle_cmd proposer).1 :=
      .tail .refl trivial (e := .handle_cmd proposer) rfl
    unfold cmd_handler
    split
    · rename_i s1 cmds h
      rwa [h] at hturn
    · rename_i s1 h
      rw [h] at hturn
      exact hturn.trans (ih s1)

/-! ## One turn and one decision -/

theorem handle_cmd_cases [Inhabited Hash] (proposer : ReplicaID) (s : CommandState Hash) :
    (s.cmd_pending = [] ∧ (s.handle_cmd proposer).1 = s) ∨
      ∃ cmd k rest buffer beats, s.cmd_pending = (cmd, k) :: rest ∧
        (s.handle_cmd proposer).1 =
          { { s with cmd_pending := rest }.await_decision cmd k with
            cmd_pending_buffer := buffer, beats := beats } := by
  unfold handle_cmd
  split
  · rename_i hq
    exact .inl ⟨hq, rfl⟩
  · rename_i cmd k rest hq
    refine .inr ⟨cmd, k, rest, ?_⟩
    split
    · exact ⟨_, _, hq, rfl⟩
    · unfold buffer_cmd
      dsimp only
      split
      · exact ⟨_, _, hq, rfl⟩
      · exact ⟨_, _, hq, rfl⟩

/-- What every single decision keeps, a commit keeps. -/
theorem commit_keeps {P : CommandState Hash → Prop}
    (hstep : ∀ s fin, fin.decision = 1 → P s → P (s.do_decide fin)) {s : CommandState Hash}
    (hs : P s) (blk : Hash) (height : ℕ) (cmds : List Hash) : P (s.commit blk height cmds) := by
  have hdec : ∀ fin ∈ decisions s.id blk height cmds, fin.decision = 1 := by
    intro fin hfin
    obtain ⟨e, _, rfl⟩ := List.mem_map.mp hfin
    rfl
  unfold commit
  generalize decisions s.id blk height cmds = l at hdec ⊢
  induction l generalizing s with
  | nil => exact hs
  | cons fin l ih =>
    refine ih (hstep s fin (hdec fin (List.mem_cons_self ..)) hs) fun fin' h => ?_
    exact hdec fin' (List.mem_cons_of_mem _ h)

/-! ## What the functions write -/

section

variable (s : CommandState Hash) (fin : Finality Hash)

@[simp] theorem do_decide_pending : (s.do_decide fin).cmd_pending = s.cmd_pending := by
  unfold do_decide; dsimp only; split <;> rfl

@[simp] theorem do_decide_submissions : (s.do_decide fin).submissions = s.submissions := by
  unfold do_decide; dsimp only; split <;> rfl

@[simp] theorem do_decide_executed : (s.do_decide fin).executed = s.executed ++ [fin] := by
  unfold do_decide; dsimp only; split <;> rfl

@[simp] theorem do_decide_called :
    (s.do_decide fin).called =
      s.called ++ (s.decision_waiting fin.cmd_hash).toList.map fun callback => (callback, fin) := by
  unfold do_decide; dsimp only; split <;> simp [*]

@[simp] theorem do_decide_waiting (cmd : Hash) :
    (s.do_decide fin).decision_waiting cmd =
      if cmd = fin.cmd_hash then none else s.decision_waiting cmd := by
  unfold do_decide
  dsimp only
  split
  · rename_i hw
    split
    · rename_i hc
      exact hc ▸ hw
    · rfl
  · simp [Function.update_apply]

theorem do_decide_decided (cmd : Hash) :
    (s.do_decide fin).Decided cmd ↔ s.Decided cmd ∨ fin.cmd_hash = cmd := by
  simp [Decided, or_and_right, exists_or]

variable [Inhabited Hash] (cmd : Hash) (k : ℕ)

@[simp] theorem await_decision_pending : (s.await_decision cmd k).cmd_pending = s.cmd_pending := by
  unfold await_decision; split <;> rfl

@[simp] theorem await_decision_submissions :
    (s.await_decision cmd k).submissions = s.submissions := by
  unfold await_decision; split <;> rfl

@[simp] theorem await_decision_executed : (s.await_decision cmd k).executed = s.executed := by
  unfold await_decision; split <;> rfl

@[simp] theorem await_decision_called :
    (s.await_decision cmd k).called =
      if (s.decision_waiting cmd).isSome then s.called ++ [(k, refusal s.id cmd)]
      else s.called := by
  unfold await_decision; split <;> simp [*]

@[simp] theorem await_decision_waiting (c : Hash) :
    (s.await_decision cmd k).decision_waiting c =
      if c = cmd ∧ s.decision_waiting cmd = none then some k else s.decision_waiting c := by
  unfold await_decision
  split <;> simp [Function.update_apply, *]

end

/-! ## Submissions by their number -/

/-- The first `n` submissions are handled, the others wait in the queue. -/
structure Numbered (n : ℕ) (s : CommandState Hash) : Prop where
  queue : s.cmd_pending = s.submissions.zipIdx.drop n
  handled : n ≤ s.submissions.length
  waiting : ∀ cmd k, s.decision_waiting cmd = some k → k < n
  called : ∀ e ∈ s.called, e.1 < n

namespace Numbered

variable {n : ℕ} {s : CommandState Hash}

omit [DecidableEq Hash] in
theorem exec_command (h : s.Numbered n) (cmd : Hash) :
    (s.exec_command cmd s.submissions.length).Numbered n := by
  refine ⟨?_, ?_, h.waiting, h.called⟩
  · have hlen : n ≤ s.submissions.zipIdx.length := by simpa using h.handled
    simp [CommandState.exec_command, List.zipIdx_append, List.drop_append_of_le_length hlen,
      h.queue]
  · have hn := h.handled
    simp only [CommandState.exec_command, List.length_append, List.length_singleton]
    omega

theorem do_decide (h : s.Numbered n) (fin : Finality Hash) : (s.do_decide fin).Numbered n := by
  refine ⟨by simpa using h.queue, by simpa using h.handled, fun cmd k hk => ?_, fun e he => ?_⟩
  · rw [do_decide_waiting] at hk
    split at hk
    · cases hk
    · exact h.waiting cmd k hk
  · rw [do_decide_called] at he
    rcases List.mem_append.mp he with he | he
    · exact h.called e he
    · obtain ⟨callback, hcb, rfl⟩ := List.mem_map.mp he
      exact h.waiting _ _ (Option.mem_toList.mp hcb)

omit [DecidableEq Hash] in
/-- The submission at the head of the queue is the next one. -/
theorem head (h : s.Numbered n) {cmd : Hash} {k : ℕ} {rest : List (Hash × ℕ)}
    (hq : s.cmd_pending = (cmd, k) :: rest) :
    k = n ∧ n < s.submissions.length ∧ rest = s.submissions.zipIdx.drop (n + 1) := by
  have hdrop := h.queue.symm.trans hq
  have hlt : n < s.submissions.zipIdx.length := by
    by_contra hge
    rw [List.drop_eq_nil_of_le (by omega)] at hdrop
    cases hdrop
  rw [List.drop_eq_getElem_cons hlt] at hdrop
  obtain ⟨hhead, htail⟩ := List.cons.inj hdrop
  refine ⟨?_, by simpa using hlt, htail.symm⟩
  simpa using (congrArg Prod.snd hhead).symm

variable [Inhabited Hash]

theorem handle_cmd (h : s.Numbered n) (proposer : ReplicaID) :
    ∃ m, (s.handle_cmd proposer).1.Numbered m := by
  obtain ⟨_, heq⟩ | ⟨cmd, k, rest, buffer, beats, hq, heq⟩ := s.handle_cmd_cases proposer
  · exact ⟨n, heq.symm ▸ h⟩
  · obtain ⟨rfl, hlt, hrest⟩ := h.head hq
    refine ⟨k + 1, heq.symm ▸ ⟨by simpa using hrest, by simpa using hlt, fun c j hj => ?_,
      fun e he => ?_⟩⟩
    · simp only [await_decision_waiting] at hj
      split at hj
      · exact Option.some.inj hj ▸ Nat.lt_succ_self _
      · exact (h.waiting c j hj).trans (Nat.lt_succ_self _)
    · simp only [await_decision_called] at he
      split at he
      · rcases List.mem_append.mp he with he | he
        · exact (h.called e he).trans (Nat.lt_succ_self _)
        · rw [List.mem_singleton.mp he]
          exact Nat.lt_succ_self _
      · exact (h.called e he).trans (Nat.lt_succ_self _)

theorem of_reaches {id : ReplicaID} {blk_size : ℕ} (h : (start id blk_size).Reaches s) :
    ∃ n, s.Numbered n := by
  have h0 : (start id blk_size : CommandState Hash).Numbered 0 :=
    ⟨rfl, Nat.le_refl 0, by simp [start], by simp [start]⟩
  refine h.keeps (P := fun s => ∃ n, s.Numbered n) ⟨0, h0⟩ ?_
  rintro t e u ⟨n, ht⟩ - he
  cases e with
  | exec_command cmd => exact ⟨n, Option.some.inj he ▸ ht.exec_command cmd⟩
  | handle_cmd proposer => exact Option.some.inj he ▸ ht.handle_cmd proposer
  | commit blk height cmds =>
    exact ⟨n, Option.some.inj he ▸ commit_keeps (fun s fin _ hs => hs.do_decide fin) ht ..⟩

end Numbered

/-! ## One submission after it is handled -/

/-- Nothing will call the callback of submission `k` again. -/
structure Answered (k : ℕ) (l : List (Finality Hash)) (s : CommandState Hash) : Prop where
  queue : ∀ e ∈ s.cmd_pending, e.2 ≠ k
  known : k < s.submissions.length
  waiting : ∀ cmd, s.decision_waiting cmd ≠ some k
  answers : s.answers k = l

/-- The callback of submission `k` waits for the first decision of the command. -/
structure Registered (cmd : Hash) (k : ℕ) (s : CommandState Hash) : Prop where
  queue : ∀ e ∈ s.cmd_pending, e.2 ≠ k
  known : k < s.submissions.length
  waiting : ∀ c, s.decision_waiting c = some k ↔ c = cmd
  answers : s.answers k = []
  undecided : ¬ s.Decided cmd

theorem answers_do_decide (s : CommandState Hash) (fin : Finality Hash) (k : ℕ) :
    (s.do_decide fin).answers k =
      s.answers k ++ if s.decision_waiting fin.cmd_hash = some k then [fin] else [] := by
  simp only [answers, do_decide_called, List.filter_append, List.map_append]
  congr 1
  cases s.decision_waiting fin.cmd_hash with
  | none => rfl
  | some callback => by_cases h : callback = k <;> simp [h]

theorem answers_await_decision [Inhabited Hash] (s : CommandState Hash) (cmd : Hash) (j k : ℕ) :
    (s.await_decision cmd j).answers k =
      s.answers k ++
        if (s.decision_waiting cmd).isSome ∧ j = k then [refusal s.id cmd] else [] := by
  simp only [answers, await_decision_called]
  by_cases hw : (s.decision_waiting cmd).isSome
  · by_cases h : j = k <;> simp [hw, h, List.filter_append]
  · simp [hw]

namespace Answered

variable {k : ℕ} {l : List (Finality Hash)} {s : CommandState Hash}

theorem do_decide (h : s.Answered k l) (fin : Finality Hash) : (s.do_decide fin).Answered k l := by
  refine ⟨by simpa using h.queue, by simpa using h.known, fun cmd => ?_, ?_⟩
  · rw [do_decide_waiting]
    split
    · exact fun hk => nomatch hk
    · exact h.waiting cmd
  · rw [answers_do_decide, if_neg (h.waiting _), List.append_nil, h.answers]

theorem step [Inhabited Hash] (h : s.Answered k l) {e : Event Hash} {t : CommandState Hash}
    (he : s.step e = some t) : t.Answered k l := by
  cases e with
  | exec_command cmd =>
    obtain rfl := Option.some.inj he
    refine ⟨fun e hmem => ?_, ?_, h.waiting, h.answers⟩
    · rcases List.mem_append.mp hmem with hmem | hmem
      · exact h.queue e hmem
      · rw [List.mem_singleton.mp hmem]
        exact h.known.ne'
    · simpa [CommandState.exec_command] using h.known.trans (Nat.lt_succ_self _)
  | handle_cmd proposer =>
    obtain rfl := Option.some.inj he
    obtain ⟨_, heq⟩ | ⟨cmd, j, rest, buffer, beats, hq, heq⟩ := s.handle_cmd_cases proposer
    · exact heq.symm ▸ h
    · have hj : j ≠ k := h.queue (cmd, j) (hq ▸ List.mem_cons_self ..)
      refine heq.symm ▸ ⟨fun e hmem => ?_, by simpa using h.known, fun c => ?_, ?_⟩
      · exact h.queue e (hq ▸ List.mem_cons_of_mem _ (by simpa using hmem))
      · simp only [await_decision_waiting]
        split
        · exact fun hk => hj (Option.some.inj hk)
        · exact h.waiting c
      · have hans := answers_await_decision { s with cmd_pending := rest } cmd j k
        rw [if_neg (by simp [hj]), List.append_nil] at hans
        exact hans.trans h.answers
  | commit blk height cmds =>
    exact Option.some.inj he ▸ commit_keeps (fun s fin _ hs => hs.do_decide fin) h ..

end Answered

namespace Registered

variable {cmd : Hash} {k : ℕ} {s : CommandState Hash}

/-- The decision of the command calls the callback, every other one leaves it. -/
theorem do_decide (h : s.Registered cmd k) (fin : Finality Hash) :
    (fin.cmd_hash = cmd ∧ (s.do_decide fin).Answered k [fin]) ∨
      (s.do_decide fin).Registered cmd k := by
  by_cases hc : fin.cmd_hash = cmd
  · refine .inl ⟨hc, by simpa using h.queue, by simpa using h.known, fun c => ?_, ?_⟩
    · rw [do_decide_waiting]
      split
      · exact fun hk => nomatch hk
      · rename_i hne
        exact fun hk => hne (((h.waiting c).mp hk).trans hc.symm)
    · rw [answers_do_decide, if_pos ((h.waiting _).mpr hc), h.answers, List.nil_append]
  · refine .inr ⟨by simpa using h.queue, by simpa using h.known, fun c => ?_, ?_, ?_⟩
    · rw [do_decide_waiting]
      split
      · rename_i heq
        exact ⟨fun hk => (nomatch hk), fun hk => absurd (heq.symm.trans hk) hc⟩
      · exact h.waiting c
    · rw [answers_do_decide, if_neg (fun hk => hc ((h.waiting _).mp hk)), List.append_nil,
        h.answers]
    · rw [do_decide_decided]
      rintro (hd | hd)
      · exact h.undecided hd
      · exact hc hd

end Registered

/-- The submission waits for its decision, or it has had it. -/
def Tracked (cmd : Hash) (k : ℕ) (s : CommandState Hash) : Prop :=
  s.Registered cmd k ∨
    ∃ fin, fin.decision = 1 ∧ fin.cmd_hash = cmd ∧ s.Decided cmd ∧ s.Answered k [fin]

namespace Tracked

variable {cmd : Hash} {k : ℕ} {s : CommandState Hash}

theorem do_decide (h : s.Tracked cmd k) {fin : Finality Hash} (hfin : fin.decision = 1) :
    (s.do_decide fin).Tracked cmd k := by
  rcases h with h | ⟨fin', hdec, hcmd, hd, h⟩
  · rcases h.do_decide fin with ⟨hc, hans⟩ | hreg
    · exact .inr ⟨fin, hfin, hc, (do_decide_decided ..).mpr (.inr hc), hans⟩
    · exact .inl hreg
  · exact .inr ⟨fin', hdec, hcmd, (do_decide_decided ..).mpr (.inl hd), h.do_decide fin⟩

theorem step [Inhabited Hash] (h : s.Tracked cmd k) {e : Event Hash} {t : CommandState Hash}
    (he : s.step e = some t) : t.Tracked cmd k := by
  cases e with
  | exec_command c =>
    obtain rfl := Option.some.inj he
    rcases h with h | ⟨fin, hdec, hcmd, hd, h⟩
    · refine .inl ⟨fun e hmem => ?_, ?_, h.waiting, h.answers, h.undecided⟩
      · rcases List.mem_append.mp hmem with hmem | hmem
        · exact h.queue e hmem
        · rw [List.mem_singleton.mp hmem]
          exact h.known.ne'
      · simpa [CommandState.exec_command] using h.known.trans (Nat.lt_succ_self _)
    · exact .inr ⟨fin, hdec, hcmd, hd, h.step he⟩
  | handle_cmd proposer =>
    obtain rfl := Option.some.inj he
    obtain ⟨_, heq⟩ | ⟨c, j, rest, buffer, beats, hq, heq⟩ := s.handle_cmd_cases proposer
    · exact heq.symm ▸ h
    · rcases h with h | ⟨fin, hdec, hcmd, hd, h⟩
      · have hj : j ≠ k := h.queue (c, j) (hq ▸ List.mem_cons_self ..)
        refine .inl (heq.symm ▸ ⟨fun e hmem => ?_, by simpa using h.known, fun c' => ?_, ?_, ?_⟩)
        · exact h.queue e (hq ▸ List.mem_cons_of_mem _ (by simpa using hmem))
        · simp only [await_decision_waiting]
          split
          · rename_i hc
            -- the new entry is for a command that was not waited for
            have hne : c' ≠ cmd := fun hcc => by
              have := (h.waiting c').mpr hcc
              rw [hc.1, hc.2] at this
              cases this
            exact ⟨fun hk => absurd (Option.some.inj hk) hj, fun hcc => absurd hcc hne⟩
          · exact h.waiting c'
        · have hans := answers_await_decision { s with cmd_pending := rest } c j k
          rw [if_neg (by simp [hj]), List.append_nil] at hans
          exact hans.trans h.answers
        · simpa [Decided] using h.undecided
      · refine .inr ⟨fin, hdec, hcmd, ?_, h.step he⟩
        simpa [heq, Decided] using hd
  | commit blk height cmds =>
    exact Option.some.inj he ▸ commit_keeps (fun s fin hfin hs => hs.do_decide hfin) h ..

end Tracked

/-- What the handler makes of the next submission while its command is undecided. -/
theorem handled_submission [Inhabited Hash] {n : ℕ} {s : CommandState Hash} (h : s.Numbered n)
    {cmd : Hash} {k : ℕ} {rest : List (Hash × ℕ)} (hq : s.cmd_pending = (cmd, k) :: rest)
    (hc : ¬ s.Decided cmd) (proposer : ReplicaID) :
    if (s.decision_waiting cmd).isSome then
      (s.handle_cmd proposer).1.Answered k [refusal s.id cmd]
    else (s.handle_cmd proposer).1.Registered cmd k := by
  obtain ⟨hnil, _⟩ | ⟨cmd', k', rest', buffer, beats, hq', heq⟩ := s.handle_cmd_cases proposer
  · rw [hq] at hnil
    cases hnil
  · rw [hq] at hq'
    cases hq'
    obtain ⟨rfl, hlt, hrest⟩ := h.head hq
    have hqueue : ∀ e ∈ rest, e.2 ≠ k := by
      intro e he
      rw [hrest] at he
      obtain ⟨i, hi, rfl⟩ := List.getElem_of_mem he
      simp
      omega
    have hnone : s.answers k = [] := by
      simp only [answers, List.map_eq_nil_iff, List.filter_eq_nil_iff, decide_eq_true_eq]
      exact fun e he => (h.called e he).ne
    have hfree : ∀ c, s.decision_waiting c ≠ some k := fun c hk => (h.waiting c k hk).false
    have hans := answers_await_decision { s with cmd_pending := rest } cmd k k
    rw [show ({ s with cmd_pending := rest } : CommandState Hash).answers k = [] from hnone,
      List.nil_append] at hans
    rw [heq]
    split
    · rename_i hw
      rw [if_pos ⟨hw, rfl⟩] at hans
      refine ⟨by simpa using hqueue, by simpa using hlt, fun c => ?_, hans⟩
      simp only [await_decision_waiting]
      rw [if_neg (by rintro ⟨_, hn⟩; rw [hn] at hw; cases hw)]
      exact hfree c
    · rename_i hw
      rw [if_neg (fun hn => hw hn.1)] at hans
      refine ⟨by simpa using hqueue, by simpa using hlt, fun c => ?_, hans,
        by simpa [Decided] using hc⟩
      simp only [await_decision_waiting]
      by_cases hcc : c = cmd
      · rw [if_pos ⟨hcc, by simpa using hw⟩]
        exact ⟨fun _ => hcc, fun _ => rfl⟩
      · rw [if_neg (fun hn => hcc hn.1)]
        exact ⟨fun hk => absurd hk (hfree c), fun hk => absurd hk hcc⟩

/-- A submission that is handled while its command is undecided and waited for is refused once.
Otherwise its callback waits until the command is decided: from then on it has been called exactly
once, with decision 1, and nothing waits under its name. -/
theorem an_early_submission_is_answered_once [Inhabited Hash] {id : ReplicaID} {blk_size : ℕ}
    {s t : CommandState Hash} (hs : (start id blk_size).Reaches s) {cmd : Hash} {k : ℕ}
    {rest : List (Hash × ℕ)} (hq : s.cmd_pending = (cmd, k) :: rest) (hc : ¬ s.Decided cmd)
    (proposer : ReplicaID) (ht : (s.handle_cmd proposer).1.Reaches t) :
    ((s.decision_waiting cmd).isSome →
      t.answers k = [refusal s.id cmd] ∧ ∀ c, t.decision_waiting c ≠ some k) ∧
    (s.decision_waiting cmd = none → t.Decided cmd →
      (∃ fin, fin.decision = 1 ∧ fin.cmd_hash = cmd ∧ t.answers k = [fin]) ∧
        ∀ c, t.decision_waiting c ≠ some k) ∧
    (s.decision_waiting cmd = none → ¬ t.Decided cmd →
      t.answers k = [] ∧ t.decision_waiting cmd = some k) := by
  obtain ⟨n, hn⟩ := Numbered.of_reaches hs
  have hnow := handled_submission hn hq hc proposer
  by_cases hw : (s.decision_waiting cmd).isSome
  · rw [if_pos hw] at hnow
    have hlater : t.Answered k [refusal s.id cmd] :=
      ht.keeps hnow fun _ _ _ h _ he => h.step he
    have hsome : s.decision_waiting cmd ≠ none := by
      intro h
      rw [h] at hw
      cases hw
    exact ⟨fun _ => ⟨hlater.answers, hlater.waiting⟩, fun h => absurd h hsome,
      fun h => absurd h hsome⟩
  · rw [if_neg hw] at hnow
    have hlater : t.Tracked cmd k :=
      ht.keeps (.inl hnow) fun _ _ _ h _ he => h.step he
    refine ⟨fun h => absurd h hw, fun _ hd => ?_, fun _ hd => ?_⟩
    · rcases hlater with h | ⟨fin, hdec, hcmd, _, h⟩
      · exact absurd hd h.undecided
      · exact ⟨⟨fin, hdec, hcmd, h.answers⟩, h.waiting⟩
    · rcases hlater with h | ⟨_, _, _, h, _⟩
      · exact ⟨h.answers, (h.waiting cmd).mpr rfl⟩
      · exact absurd h hd

/-- Command 7 is submitted twice, and the replica decides it after it has handled both. -/
def submitted_twice : List (Event ℕ) :=
  [.exec_command 7, .exec_command 7, .handle_cmd 0, .handle_cmd 0, .commit 1 1 [7]]

/-- No command waits that is decided, and every handled submission of a decided command was
answered exactly once with decision 1. -/
def NoneLeftWaiting (s : CommandState Hash) : Prop :=
  (∀ cmd, (s.decision_waiting cmd).isSome → ¬ s.Decided cmd) ∧
    ∀ k cmd, s.submissions[k]? = some cmd → (∀ e ∈ s.cmd_pending, e.2 ≠ k) → s.Decided cmd →
      ((s.answers k).filter (·.decision = 1)).length = 1

theorem the_second_submission_is_never_answered_with_one :
    ¬ ∀ (id : ReplicaID) (blk_size : ℕ) (s : CommandState ℕ),
      (start id blk_size).Reaches s → s.NoneLeftWaiting := by
  intro h
  have hplay : (play step Anything (start 0 2) submitted_twice).isSome := by decide +kernel
  obtain ⟨s, hs⟩ := Option.isSome_iff_exists.mp hplay
  have hall := (h 0 2 s (.of_play hs)).2 1 7
  obtain rfl := Option.some.inj ((show play step Anything (start 0 2) submitted_twice = _ from
    rfl).symm.trans hs)
  revert hall
  decide +kernel

theorem an_early_submission_of_seven_is_answered_once :
    ∃ s t : CommandState ℕ, (start 0 2).Reaches s ∧ s.cmd_pending = [(7, 0)] ∧ ¬ s.Decided 7 ∧
      (s.handle_cmd 0).1.Reaches t ∧ t.Decided 7 ∧
      ∃ fin, fin.decision = 1 ∧ fin.cmd_hash = 7 ∧ t.answers 0 = [fin] := by
  let s : CommandState ℕ := (start 0 2).exec_command 7 0
  let t : CommandState ℕ := (s.handle_cmd 0).1.commit 1 1 [7]
  have hs : (start 0 2).Reaches s := .tail .refl trivial (e := .exec_command 7) rfl
  have ht : (s.handle_cmd 0).1.Reaches t := .tail .refl trivial (e := .commit 1 1 [7]) rfl
  have hq : s.cmd_pending = [(7, 0)] := by decide
  have hc : ¬ s.Decided 7 := by decide
  have hd : t.Decided 7 := by decide
  have hanswered := (an_early_submission_is_answered_once hs hq hc 0 ht).2.1 rfl hd
  exact ⟨s, t, hs, hq, hc, ht, hd, hanswered.1⟩

end CommandState

end general_hotstuff
