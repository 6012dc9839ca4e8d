-- `hotstuff_client.cpp`: which responses make the client drop a command from `waiting`.
-- Connection number `i` leads to replica `i`, and what comes in on it is up to that replica.
import Mathlib.Data.List.AList
import GeneralHotStuff.Transitions
import GeneralHotStuff.Consensus

namespace general_hotstuff

open quorums (ReplicaID)
open transitions

variable {Hash : Type} [DecidableEq Hash]

/-! ## The state -/

/-- The two builds of the client: it waits for more than `nfaulty` responses, or for responses that
name an authorized group. -/
inductive AckRule where
  | threshold (nfaulty : ℕ)
  | generalized (isAuthorizedGroup : Finset ReplicaID → Bool)

/-- `B` is too small to confirm a command on its own. -/
def AckRule.Tolerates (B : Finset ReplicaID) : AckRule → Prop
  | .threshold nfaulty => B.card ≤ nfaulty
  | .generalized isAuthorizedGroup => ∀ A ⊆ B, isAuthorizedGroup A = false

/-- A response and the connection that it came in on. -/
structure Response (Hash : Type) where
  conn : ReplicaID
  fin : Finality Hash

/-- `acks` are the responses that the entry has counted. -/
structure Request (Hash : Type) where
  confirmed : ℕ
  confirmedReplicas : Finset ReplicaID
  acks : List (Response Hash)

/-- What the client is started with, and the hash of its command number `cnt`. -/
structure ClientConfig (Hash : Type) where
  rule : AckRule
  max_async_num : Option ℕ
  get_hash : ℕ → ℕ → Hash

/-- `removed` are the commands that were taken out of `waiting`. A negative `max_iter_num` is no
limit. -/
structure Client (Hash : Type) where
  cid : ℕ
  cnt : ℕ
  max_iter_num : ℤ
  waiting : AList fun _ : Hash => Request Hash
  removed : List Hash
  received : List (Response Hash)

namespace Client

def start (cid : ℕ) (max_iter_num : ℤ) : Client Hash :=
  { cid := cid
    cnt := 0
    max_iter_num := max_iter_num
    waiting := ∅
    removed := []
    received := [] }

/-! ## The functions -/

/-- A turn of `while (try_send())`. A command that waits already keeps its entry. -/
def try_send (config : ClientConfig Hash) (check : Bool) (s : Client Hash) : Client Hash :=
  if (!check || config.max_async_num.all fun n => s.waiting.entries.length < n) &&
      s.max_iter_num != 0 then
    let cmd_hash := config.get_hash s.cid s.cnt
    { s with
      cnt := (s.cnt + 1) % 2 ^ 32
      waiting :=
        if cmd_hash ∈ s.waiting then s.waiting else s.waiting.insert cmd_hash ⟨0, ∅, []⟩
      max_iter_num := if 0 < s.max_iter_num then s.max_iter_num - 1 else s.max_iter_num }
  else s

/-- The response is counted. -/
def count_ack (rule : AckRule) (msg : Response Hash) (req : Request Hash) : Request Hash :=
  match rule with
  | .threshold _ => { req with confirmed := req.confirmed + 1, acks := req.acks ++ [msg] }
  | .generalized _ =>
    { req with
      confirmedReplicas := insert msg.fin.rid req.confirmedReplicas
      acks := req.acks ++ [msg] }

/-- The test after that. -/
def confirmed (rule : AckRule) (req : Request Hash) : Bool :=
  match rule with
  | .threshold nfaulty => decide (nfaulty < req.confirmed)
  | .generalized isAuthorizedGroup => isAuthorizedGroup req.confirmedReplicas

/-- The handler up to its loop of `try_send`. -/
def client_resp_cmd_handler (config : ClientConfig Hash) (msg : Response Hash) (s : Client Hash) :
    Client Hash :=
  let s1 := { s with received := s.received ++ [msg] }
  match s.waiting.lookup msg.fin.cmd_hash with
  | none => s1
  | some req =>
    let req := count_ack config.rule msg req
    if confirmed config.rule req then
      { s1 with
        waiting := s.waiting.erase msg.fin.cmd_hash
        removed := s.removed ++ [msg.fin.cmd_hash] }
    else { s1 with waiting := s.waiting.insert msg.fin.cmd_hash req }

/-! ## Runs -/

inductive Event (Hash : Type) where
  | try_send (check : Bool)
  | response (msg : Response Hash)

def step (config : ClientConfig Hash) (s : Client Hash) : Event Hash → Option (Client Hash)
  | .try_send check => some (s.try_send config check)
  | .response msg => some (s.client_resp_cmd_handler config msg)

/-- A response with decision 1 from a replica outside of `B`. -/
def Vouches (B : Finset ReplicaID) (msg : Response Hash) : Prop :=
  msg.conn ∉ B ∧ msg.fin.decision = 1

instance (B : Finset ReplicaID) (msg : Response Hash) : Decidable (Vouches B msg) :=
  inferInstanceAs (Decidable (_ ∧ _))

/-- One more response of a replica in `B` gives it no second voice: it is its first one for the
command, or it names a replica in `B`. -/
def OneVoice (rule : AckRule) (B : Finset ReplicaID) (req : Request Hash) (msg : Response Hash) :
    Prop :=
  match rule with
  | .threshold _ => msg.conn ∉ req.acks.map (·.conn)
  | .generalized _ => msg.fin.rid ∈ B

instance (rule : AckRule) (B : Finset ReplicaID) (req : Request Hash) (msg : Response Hash) :
    Decidable (OneVoice rule B req msg) :=
  match rule with
  | .threshold _ => inferInstanceAs (Decidable (msg.conn ∉ req.acks.map (·.conn)))
  | .generalized _ => inferInstanceAs (Decidable (msg.fin.rid ∈ B))

/-- A response for a command that waits vouches for it, or comes after one that does, or is of a
replica in `B` and gives it no second voice. -/
def Sincere (config : ClientConfig Hash) (B : Finset ReplicaID) (s : Client Hash) :
    Event Hash → Prop
  | .try_send _ => True
  | .response msg => ∀ req ∈ s.waiting.lookup msg.fin.cmd_hash,
      (∃ ack ∈ req.acks ++ [msg], Vouches B ack) ∨
        msg.conn ∈ B ∧ OneVoice config.rule B req msg

instance (config : ClientConfig Hash) (B : Finset ReplicaID) (s : Client Hash) :
    DecidablePred (Sincere config B s)
  | .try_send _ => isTrue trivial
  | .response msg => inferInstanceAs (Decidable (∀ req ∈ s.waiting.lookup msg.fin.cmd_hash,
      (∃ ack ∈ req.acks ++ [msg], Vouches B ack) ∨
        msg.conn ∈ B ∧ OneVoice config.rule B req msg))

/-! ## What an entry has counted -/

/-- Only replicas in `B` were counted, each with one voice. -/
def OnlyFaulty (rule : AckRule) (B : Finset ReplicaID) (req : Request Hash) : Prop :=
  match rule with
  | .threshold _ => (req.acks.map (·.conn)).Nodup ∧ (∀ ack ∈ req.acks, ack.conn ∈ B) ∧
      req.confirmed = req.acks.length
  | .generalized _ => req.confirmedReplicas ⊆ B

/-- The acks of an entry were received for its command, and one vouches for it or only `B` has
spoken. -/
structure Accounted (config : ClientConfig Hash) (B : Finset ReplicaID)
    (received : List (Response Hash)) (cmd : Hash) (req : Request Hash) : Prop where
  heard : req.acks ⊆ received
  about : ∀ ack ∈ req.acks, ack.fin.cmd_hash = cmd
  voices : (∃ ack ∈ req.acks, Vouches B ack) ∨ OnlyFaulty config.rule B req

omit [DecidableEq Hash] in
@[simp] theorem count_ack_acks (rule : AckRule) (msg : Response Hash) (req : Request Hash) :
    (count_ack rule msg req).acks = req.acks ++ [msg] := by
  cases rule <;> rfl

omit [DecidableEq Hash] in
theorem accounted_new (config : ClientConfig Hash) (B : Finset ReplicaID)
    (received : List (Response Hash)) (cmd : Hash) :
    Accounted config B received cmd ⟨0, ∅, []⟩ := by
  refine ⟨List.nil_subset _, fun ack h => absurd h List.not_mem_nil, .inr ?_⟩
  unfold OnlyFaulty
  cases config.rule with
  | threshold nfaulty => simp
  | generalized isAuthorizedGroup => exact Finset.empty_subset B

omit [DecidableEq Hash] in
theorem OnlyFaulty.count_ack {rule : AckRule} {B : Finset ReplicaID} {req : Request Hash}
    {msg : Response Hash} (h : OnlyFaulty rule B req) (hB : msg.conn ∈ B)
    (hone : OneVoice rule B req msg) : OnlyFaulty rule B (count_ack rule msg req) := by
  cases rule with
  | threshold nfaulty =>
    obtain ⟨hnodup, hfrom, hlen⟩ := h
    refine ⟨?_, fun ack hack => ?_, ?_⟩
    · simp only [count_ack_acks, List.map_append, List.map_cons, List.map_nil]
      refine hnodup.append (List.nodup_singleton _) fun rid hmem heq => hone ?_
      exact List.mem_singleton.mp heq ▸ hmem
    · rcases List.mem_append.mp hack with hack | hack
      · exact hfrom ack hack
      · exact List.mem_singleton.mp hack ▸ hB
    · simp [Client.count_ack, hlen]
  | generalized isAuthorizedGroup => exact Finset.insert_subset hone h

omit [DecidableEq Hash] in
/-- Replicas in `B` alone do not confirm a command. -/
theorem OnlyFaulty.unconfirmed {rule : AckRule} {B : Finset ReplicaID} {req : Request Hash}
    (h : OnlyFaulty rule B req) (hB : rule.Tolerates B) : confirmed rule req = false := by
  cases rule with
  | threshold nfaulty =>
    obtain ⟨hnodup, hfrom, hlen⟩ := h
    have hsub : (req.acks.map (·.conn)).toFinset ⊆ B := by
      intro rid hrid
      obtain ⟨ack, hack, rfl⟩ := List.mem_map.mp (List.mem_toFinset.mp hrid)
      exact hfrom ack hack
    have hcard := Finset.card_le_card hsub
    rw [List.toFinset_card_of_nodup hnodup, List.length_map] at hcard
    have hle : B.card ≤ nfaulty := hB
    simp only [confirmed, decide_eq_false_iff_not]
    omega
  | generalized isAuthorizedGroup => exact hB _ h

omit [DecidableEq Hash] in
theorem Accounted.count_ack {config : ClientConfig Hash} {B : Finset ReplicaID}
    {received : List (Response Hash)} {req : Request Hash} {msg : Response Hash}
    (h : Accounted config B received msg.fin.cmd_hash req)
    (hok : (∃ ack ∈ req.acks ++ [msg], Vouches B ack) ∨
      msg.conn ∈ B ∧ OneVoice config.rule B req msg) :
    Accounted config B (received ++ [msg]) msg.fin.cmd_hash (count_ack config.rule msg req) := by
  refine ⟨?_, fun ack hack => ?_, ?_⟩
  · rw [count_ack_acks]
    have hold : req.acks ⊆ received ++ [msg] :=
      List.Subset.trans h.heard (List.subset_append_left ..)
    exact List.append_subset.mpr ⟨hold, List.subset_append_right ..⟩
  · rw [count_ack_acks] at hack
    rcases List.mem_append.mp hack with hack | hack
    · exact h.about ack hack
    · exact List.mem_singleton.mp hack ▸ rfl
  · rw [count_ack_acks]
    rcases hok with hv | ⟨hB, hone⟩
    · exact .inl hv
    · rcases h.voices with ⟨ack, hack, hv⟩ | hfaulty
      · exact .inl ⟨ack, List.mem_append_left _ hack, hv⟩
      · exact .inr (hfaulty.count_ack hB hone)

/-! ## The client -/

theorem forall_lookup_insert {P : Hash → Request Hash → Prop}
    {waiting : AList fun _ : Hash => Request Hash} {c : Hash} {r : Request Hash}
    (h : ∀ cmd req, waiting.lookup cmd = some req → P cmd req) (hr : P c r) :
    ∀ cmd req, (waiting.insert c r).lookup cmd = some req → P cmd req := by
  intro cmd req hreq
  by_cases hc : cmd = c
  · subst hc
    rw [AList.lookup_insert] at hreq
    exact Option.some.inj hreq ▸ hr
  · rw [AList.lookup_insert_ne hc] at hreq
    exact h cmd req hreq

theorem forall_lookup_erase {P : Hash → Request Hash → Prop}
    {waiting : AList fun _ : Hash => Request Hash} {c : Hash}
    (h : ∀ cmd req, waiting.lookup cmd = some req → P cmd req) :
    ∀ cmd req, (waiting.erase c).lookup cmd = some req → P cmd req := by
  intro cmd req hreq
  by_cases hc : cmd = c
  · subst hc
    rw [AList.lookup_erase] at hreq
    cases hreq
  · rw [AList.lookup_erase_ne hc] at hreq
    exact h cmd req hreq

/-- Every entry is accounted for by what was received, and every removed command was vouched for. -/
structure Good (config : ClientConfig Hash) (B : Finset ReplicaID) (s : Client Hash) : Prop where
  entries : ∀ cmd req, s.waiting.lookup cmd = some req → Accounted config B s.received cmd req
  removed : ∀ cmd ∈ s.removed, ∃ msg ∈ s.received, msg.fin.cmd_hash = cmd ∧ Vouches B msg

namespace Good

variable {config : ClientConfig Hash} {B : Finset ReplicaID} {s : Client Hash}

theorem try_send (h : s.Good config B) (check : Bool) :
    (s.try_send config check).Good config B := by
  unfold Client.try_send
  by_cases hc : config.get_hash s.cid s.cnt ∈ s.waiting
  · simp only [if_pos hc]
    split
    · exact ⟨h.entries, h.removed⟩
    · exact h
  · simp only [if_neg hc]
    split
    · exact ⟨forall_lookup_insert h.entries (accounted_new ..), h.removed⟩
    · exact h

theorem response (h : s.Good config B) (hB : config.rule.Tolerates B) {msg : Response Hash}
    (hok : s.Sincere config B (.response msg)) :
    (s.client_resp_cmd_handler config msg).Good config B := by
  have hentries : ∀ cmd req, s.waiting.lookup cmd = some req →
      Accounted config B (s.received ++ [msg]) cmd req := by
    intro cmd req hreq
    have hold := h.entries cmd req hreq
    exact ⟨List.Subset.trans hold.heard (List.subset_append_left ..), hold.about, hold.voices⟩
  have hremoved : ∀ cmd ∈ s.removed,
      ∃ m ∈ s.received ++ [msg], m.fin.cmd_hash = cmd ∧ Vouches B m := by
    intro cmd hcmd
    obtain ⟨m, hm, hv⟩ := h.removed cmd hcmd
    exact ⟨m, List.mem_append_left _ hm, hv⟩
  unfold client_resp_cmd_handler
  dsimp only
  split
  · exact ⟨hentries, hremoved⟩
  · rename_i req hreq
    have hacc := (h.entries _ req hreq).count_ack (hok req hreq)
    split
    · rename_i hconf
      refine ⟨forall_lookup_erase hentries, fun cmd hcmd => ?_⟩
      rcases List.mem_append.mp hcmd with hcmd | hcmd
      · exact hremoved cmd hcmd
      · obtain rfl := List.mem_singleton.mp hcmd
        rcases hacc.voices with ⟨ack, hack, hv⟩ | hfaulty
        · exact ⟨ack, hacc.heard hack, hacc.about ack hack, hv⟩
        · rw [hfaulty.unconfirmed hB] at hconf
          cases hconf
    · exact ⟨forall_lookup_insert hentries hacc, hremoved⟩

end Good

/-- When every counted response vouches for the command, or comes after one that does, or is the one
voice of a replica in `B`, a command is taken out only after a replica outside of `B` has vouched
for it. -/
theorem a_command_leaves_only_when_it_is_vouched_for {config : ClientConfig Hash}
    {B : Finset ReplicaID} (hB : config.rule.Tolerates B) {cid : ℕ} {max_iter_num : ℤ}
    {s : Client Hash} (h : Runs (step config) (Sincere config B) (start cid max_iter_num) s) :
    ∀ cmd ∈ s.removed, ∃ msg ∈ s.received, msg.fin.cmd_hash = cmd ∧ Vouches B msg := by
  have hstart : (start cid max_iter_num : Client Hash).Good config B :=
    ⟨fun _ _ hreq => (nomatch hreq), fun _ hcmd => absurd hcmd List.not_mem_nil⟩
  have hgood : s.Good config B := by
    refine h.keeps hstart fun t e u ht hok he => ?_
    cases e with
    | try_send check => exact Option.some.inj he ▸ ht.try_send check
    | response msg => exact Option.some.inj he ▸ ht.response hB hok
  exact hgood.removed

/-- A client of four replicas, of which one may be faulty. -/
def client_of_four : ClientConfig ℕ :=
  { rule := .threshold 1, max_async_num := some 1, get_hash := fun _ cnt => cnt }

/-- A response from replica 3 for command 0. -/
def from_3 (decision : ℕ) : Response ℕ := ⟨3, ⟨3, decision, 0, 1, 0, 1⟩⟩

theorem two_responses_of_one_replica_confirm_a_command :
    ¬ ∀ (config : ClientConfig ℕ) (B : Finset ReplicaID), config.rule.Tolerates B →
      ∀ (cid : ℕ) (max_iter_num : ℤ) (s : Client ℕ),
        Runs (step config) Anything (start cid max_iter_num) s →
          ∀ cmd ∈ s.removed, ∃ msg ∈ s.received, msg.fin.cmd_hash = cmd ∧ Vouches B msg := by
  intro h
  have hplay : ∃ s, play (step client_of_four) Anything (start 0 1)
      [.try_send true, .response (from_3 0), .response (from_3 0)] = some s ∧ 0 ∈ s.removed ∧
        ∀ msg ∈ s.received, ¬ Vouches {3} msg := ⟨_, rfl, by decide, by decide⟩
  obtain ⟨s, hs, hrem, hnone⟩ := hplay
  obtain ⟨msg, hmsg, -, hv⟩ := h client_of_four {3} (Nat.le_refl 1) 0 1 s (.of_play hs) 0 hrem
  exact hnone msg hmsg hv

/-- A response from replica 1 for command 0. -/
def from_1 : Response ℕ := ⟨1, ⟨1, 1, 0, 1, 0, 1⟩⟩

theorem a_vouched_command_is_confirmed :
    ∃ s : Client ℕ, Runs (step client_of_four) (Sincere client_of_four {3}) (start 0 1) s ∧
      0 ∈ s.removed ∧ ∃ msg ∈ s.received, msg.fin.cmd_hash = 0 ∧ Vouches {3} msg := by
  have hplay : ∃ s, play (step client_of_four) (Sincere client_of_four {3}) (start 0 1)
      [.try_send true, .response (from_3 0), .response from_1] = some s ∧ 0 ∈ s.removed :=
    ⟨_, rfl, by decide⟩
  obtain ⟨s, hs, hrem⟩ := hplay
  have hrun := Runs.of_play hs
  have htol : client_of_four.rule.Tolerates {3} := Nat.le_refl 1
  exact ⟨s, hrun, hrem, a_command_leaves_only_when_it_is_vouched_for htol hrun 0 hrem⟩

end Client

end general_hotstuff
