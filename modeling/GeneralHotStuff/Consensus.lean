-- `HotStuffCore` of `consensus.cpp`: the state machine of one replica. A call that throws keeps the
-- state it has reached, and a read of `parents[0]` or `parent_hashes[0]` of an empty list has no
-- outcome. Callbacks of resolved promises are calls of their own.
import GeneralHotStuff.Entity

namespace general_hotstuff

open quorums (ReplicaID)

/-! ## Messages, outputs and outcomes -/

structure Proposal (Hash : Type) where
  proposer : ReplicaID
  blk : Hash

structure Vote (Hash Sig : Type) where
  voter : ReplicaID
  blk_hash : Hash
  cert : PartCert Hash Sig

structure Finality (Hash : Type) where
  rid : ReplicaID
  decision : ℕ
  cmd_idx : ℕ
  cmd_height : ℕ
  cmd_hash : Hash
  blk_hash : Hash

/-- What a replica passes to the functions around it. `certificate` records what
`on_receive_vote` computes and hands to `update_hqc`. -/
inductive Output (Hash Sig : Type) where
  | do_consensus (blk : Hash)
  | do_decide (fin : Finality Hash)
  | do_vote (last_proposer : ReplicaID) (vote : Vote Hash Sig)
  | do_broadcast_proposal (prop : Proposal Hash)
  | certificate (blk : Hash) (qc : QuorumCert Hash Sig)

/-- The exceptions: `block not delivered`, `block referred by qc not fetched`,
`safety breached`, `empty parents`, `new block should be higher than vheight` and
`PartCert does match the block hash`. -/
inductive Fault where
  | block_not_delivered
  | qc_not_fetched
  | safety_breached
  | empty_parents
  | not_higher_than_vheight
  | cert_mismatch
  deriving DecidableEq

inductive Outcome (σ : Type) where
  | ok (s : σ)
  | throw (s : σ) (what : Fault)
  | undefined

namespace Outcome

variable {σ : Type}

/-- What comes next runs only when nothing was thrown. -/
def andThen : Outcome σ → (σ → Outcome σ) → Outcome σ
  | ok s, f => f s
  | throw s what, _ => throw s what
  | undefined, _ => undefined

/-- The state in which the call leaves the replica. -/
def state? : Outcome σ → Option σ
  | ok s => some s
  | throw s _ => some s
  | undefined => none

end Outcome

/-! ## The state -/

structure HotStuffCore (Hash Sig : Type) where
  id : ReplicaID
  hqc : Hash × QuorumCert Hash Sig
  b_lock : Hash
  b_exec : Hash
  vheight : ℕ
  tails : Finset Hash
  vote_disabled : Bool
  storage : EntityStorage Hash Sig
  out : List (Output Hash Sig)

namespace HotStuffCore

variable {Hash Sig : Type} [DecidableEq Hash]

def height (s : HotStuffCore Hash Sig) (h : Hash) : ℕ := (s.storage h).elim 0 (·.height)

def delivered (s : HotStuffCore Hash Sig) (h : Hash) : Bool :=
  (s.storage h).elim false (·.delivered)

def decision (s : HotStuffCore Hash Sig) (h : Hash) : Bool :=
  (s.storage h).elim false (·.decision)

def qc_ref (s : HotStuffCore Hash Sig) (h : Hash) : Option Hash := (s.storage h).bind (·.qc_ref)

def parents (s : HotStuffCore Hash Sig) (h : Hash) : List Hash := (s.storage h).elim [] (·.parents)

def parent_hashes (s : HotStuffCore Hash Sig) (h : Hash) : List Hash :=
  (s.storage h).elim [] (·.parent_hashes)

def modify (s : HotStuffCore Hash Sig) (h : Hash) (f : Block Hash Sig → Block Hash Sig) :
    HotStuffCore Hash Sig := { s with storage := s.storage.modify h f }

/-- `b = b->parents[0]` while `b` is higher than `bound`: the blocks passed, and where it ends.
There is no result where a block passed has no parent, or where the fuel does not last. -/
def walk (s : HotStuffCore Hash Sig) (bound : ℕ) : ℕ → Hash → Option (List Hash × Hash)
  | 0, _ => none
  | fuel + 1, b =>
    if bound < s.height b then
      (s.parents b).head?.bind fun p => (s.walk bound fuel p).map fun (passed, last) =>
        (b :: passed, last)
    else some ([], b)

/-! ## on_deliver_blk -/

/-- Parents are taken over up to the first one that is not delivered, and an exception leaves
what was written before it. -/
def on_deliver_blk (blk : Hash) (s : HotStuffCore Hash Sig) : Outcome (HotStuffCore Hash Sig) :=
  match s.storage blk with
  | none => .undefined
  | some b =>
    if b.delivered then .ok s
    else
      let parents := b.parent_hashes.takeWhile s.delivered
      let s1 := s.modify blk ({ · with parents := parents })
      if parents.length < b.parent_hashes.length then .throw s1 .block_not_delivered
      else
        match parents with
        | [] => .undefined
        | p :: _ =>
          let s2 := s1.modify blk ({ · with height := (s.height p + 1) % 2 ^ 32 })
          if (s.storage b.qc.obj_hash).isSome then
            .ok
              { s2.modify blk ({ · with qc_ref := some b.qc.obj_hash, delivered := true }) with
                tails := insert blk (s.tails \ parents.toFinset) }
          else .throw s2 .qc_not_fetched

/-! ## update -/

def update_hqc (_hqc : Hash) (qc : QuorumCert Hash Sig) (s : HotStuffCore Hash Sig) :
    HotStuffCore Hash Sig :=
  if s.height s.hqc.1 < s.height _hqc then { s with hqc := (_hqc, qc) } else s

def raise_lock (blk1 : Hash) (s : HotStuffCore Hash Sig) : HotStuffCore Hash Sig :=
  if s.height s.b_lock < s.height blk1 then { s with b_lock := blk1 } else s

/-- The block that the QC of `blk` refers to, unless it is missing or decided: then `update`
returns early. -/
def undecided_ref (s : HotStuffCore Hash Sig) (blk : Hash) : Option Hash :=
  (s.qc_ref blk).filter fun b => !s.decision b

/-- The turn of the commit loop for one block. -/
def commit_one (s : HotStuffCore Hash Sig) (blk : Hash) : HotStuffCore Hash Sig :=
  let cmds := (s.storage blk).elim [] (·.cmds)
  { s.modify blk ({ · with decision := true }) with
    out := s.out ++ .do_consensus blk :: cmds.zipIdx.map fun (cmd, i) =>
      .do_decide ⟨s.id, 1, i, s.height blk, cmd, blk⟩ }

/-- The end of `update`: everything from `b_exec` up to `blk` is committed. The message of the
exception has both blocks as strings, and these read `parent_hashes[0]`. -/
def commit (blk : Hash) (s : HotStuffCore Hash Sig) : Outcome (HotStuffCore Hash Sig) :=
  match s.walk (s.height s.b_exec) (s.height blk + 1) blk with
  | none => .undefined
  | some (commit_queue, b) =>
    if b ≠ s.b_exec then
      if s.parent_hashes blk = [] ∨ s.parent_hashes s.b_exec = [] then .undefined
      else .throw s .safety_breached
    else .ok { commit_queue.reverse.foldl commit_one s with b_exec := blk }

/-- Goes on only when `p` is `parents[0]` of `blk`. -/
def if_direct_parent (blk p : Hash) (next : HotStuffCore Hash Sig → Outcome (HotStuffCore Hash Sig))
    (s : HotStuffCore Hash Sig) : Outcome (HotStuffCore Hash Sig) :=
  match s.parents blk with
  | [] => .undefined
  | q :: _ => if q ≠ p then .ok s else next s

def update_three_step (nblk : Hash) (b : Block Hash Sig) (s : HotStuffCore Hash Sig) :
    Outcome (HotStuffCore Hash Sig) :=
  match s.undecided_ref nblk with
  | none => .ok s
  | some blk2 =>
    let s1 := s.update_hqc blk2 b.qc
    match s1.undecided_ref blk2 with
    | none => .ok s1
    | some blk1 =>
      let s2 := s1.raise_lock blk1
      match s2.undecided_ref blk1 with
      | none => .ok s2
      | some blk => s2.if_direct_parent blk2 blk1 (if_direct_parent blk1 blk (commit blk))

def update_two_step (nblk : Hash) (b : Block Hash Sig) (s : HotStuffCore Hash Sig) :
    Outcome (HotStuffCore Hash Sig) :=
  match s.undecided_ref nblk with
  | none => .ok s
  | some blk1 =>
    let s1 := (s.update_hqc blk1 b.qc).raise_lock blk1
    match s1.undecided_ref blk1 with
    | none => .ok s1
    | some blk => s1.if_direct_parent blk1 blk (commit blk)

def update (config : Config Hash Sig) (nblk : Hash) (s : HotStuffCore Hash Sig) :
    Outcome (HotStuffCore Hash Sig) :=
  match s.storage nblk with
  | none => .undefined
  | some b => if config.two_step then s.update_two_step nblk b else s.update_three_step nblk b

/-! ## Proposals -/

/-- Whether the replica votes for `bnew`: by the liveness condition, or when the walk down from
`bnew` ends at the lock. -/
def opinion (s : HotStuffCore Hash Sig) (bnew : Hash) : Option Bool :=
  if s.height bnew ≤ s.vheight then some false
  else if (s.qc_ref bnew).any fun q => s.height s.b_lock < s.height q then some true
  else (s.walk (s.height s.b_lock) (s.height bnew + 1) bnew).map fun (_, b) => b = s.b_lock

/-- The part of `on_receive_proposal` after `update`. -/
def vote_on (config : Config Hash Sig) (prop : Proposal Hash) (s : HotStuffCore Hash Sig) :
    Outcome (HotStuffCore Hash Sig) :=
  match s.opinion prop.blk with
  | none => .undefined
  | some false => .ok s
  | some true =>
    let s1 := { s with vheight := s.height prop.blk }
    if s.vote_disabled then .ok s1
    else
      .ok
        { s1 with
          out := s.out ++
            [.do_vote prop.proposer ⟨s.id, prop.blk, ⟨prop.blk, config.sign s.id prop.blk⟩⟩] }

def on_receive_proposal (config : Config Hash Sig) (prop : Proposal Hash)
    (s : HotStuffCore Hash Sig) : Outcome (HotStuffCore Hash Sig) :=
  if prop.proposer = s.id then s.vote_on config prop
  else if s.delivered prop.blk then
    (s.update config prop.blk).andThen fun s1 => s1.vote_on config prop
  else .throw s .block_not_delivered

/-- The wire fields of the block that `on_propose` makes. -/
def proposed (cmds parents : List Hash) (extra : List UInt8) (s : HotStuffCore Hash Sig) :
    BlockData Hash Sig :=
  { parent_hashes := parents, cmds := cmds, qc := s.hqc.2, extra := extra }

/-- The block that `on_propose` makes, as long as it is not delivered. -/
def new_block (cmds : List Hash) (p : Hash) (ps : List Hash) (extra : List UInt8)
    (s : HotStuffCore Hash Sig) : Block Hash Sig :=
  { s.proposed cmds (p :: ps) extra with
    parents := p :: ps
    qc_ref := some s.hqc.1
    self_qc := none
    height := (s.height p + 1) % 2 ^ 32
    delivered := false
    decision := false
    voted := ∅ }

/-- The new block enters the storage with an empty certificate. A block that is there already
under the same hash stays, and only its certificate is replaced. -/
def store_proposed (config : Config Hash Sig) (cmds : List Hash) (p : Hash) (ps : List Hash)
    (extra : List UInt8) (s : HotStuffCore Hash Sig) : HotStuffCore Hash Sig :=
  let bnew_hash := config.get_hash (s.proposed cmds (p :: ps) extra)
  let storage := s.storage.add_blk bnew_hash (s.new_block cmds p ps extra)
  { s with
    tails := s.tails \ (p :: ps).toFinset
    storage := storage.modify bnew_hash
      ({ · with self_qc := some (.create_quorum_cert config bnew_hash) }) }

def on_propose (config : Config Hash Sig) (cmds parents : List Hash) (extra : List UInt8)
    (s : HotStuffCore Hash Sig) : Outcome (HotStuffCore Hash Sig) :=
  match parents with
  | [] => .throw s .empty_parents
  | p :: ps =>
    let bnew := config.get_hash (s.proposed cmds (p :: ps) extra)
    let prop : Proposal Hash := ⟨s.id, bnew⟩
    ((s.store_proposed config cmds p ps extra).on_deliver_blk bnew).andThen fun s1 =>
      (s1.update config bnew).andThen fun s2 =>
        if s2.height bnew ≤ s2.vheight then .throw s2 .not_higher_than_vheight
        else
          (s2.on_receive_proposal config prop).andThen fun s3 =>
            .ok { s3 with out := s3.out ++ [.do_broadcast_proposal prop] }

/-! ## Votes -/

/-- The voter is counted before its part is added, so a part that throws leaves it counted. -/
def on_receive_vote (config : Config Hash Sig) (vote : Vote Hash Sig) (s : HotStuffCore Hash Sig) :
    Outcome (HotStuffCore Hash Sig) :=
  match s.storage vote.blk_hash with
  | none => .throw s .block_not_delivered
  | some blk =>
    if !blk.delivered then .throw s .block_not_delivered
    else if config.rule.isQuorum blk.voted then .ok s
    else if vote.voter ∈ blk.voted then .ok s
    else
      let voted := insert vote.voter blk.voted
      let qc := blk.self_qc.getD (.create_quorum_cert config vote.blk_hash)
      match qc.add_part vote.voter vote.cert with
      | none =>
        .throw (s.modify vote.blk_hash ({ · with voted := voted, self_qc := some qc }))
          .cert_mismatch
      | some qc =>
        if config.rule.becomesQuorum blk.voted.card voted then
          let qc := qc.compute config
          let s1 := s.modify vote.blk_hash ({ · with voted := voted, self_qc := some qc })
          .ok { s1.update_hqc vote.blk_hash qc with
            out := s.out ++ [.certificate vote.blk_hash qc] }
        else .ok (s.modify vote.blk_hash ({ · with voted := voted, self_qc := some qc }))

/-! ## Runs of one replica -/

/-- Genesis after `add_replica` for every replica and `on_init`. -/
def genesis (config : Config Hash Sig) : Block Hash Sig :=
  { parent_hashes := []
    cmds := []
    qc := .create_quorum_cert config config.b0
    extra := []
    parents := []
    qc_ref := some config.b0
    self_qc := some (.create_quorum_cert config config.b0)
    height := 0
    delivered := true
    decision := true
    voted := Finset.range config.nreplicas }

def on_init (config : Config Hash Sig) (id : ReplicaID) : HotStuffCore Hash Sig :=
  { id := id
    hqc := (config.b0, .create_quorum_cert config config.b0)
    b_lock := config.b0
    b_exec := config.b0
    vheight := 0
    tails := {config.b0}
    vote_disabled := false
    storage := Function.update (fun _ => none) config.b0 (some (genesis config))
    out := [] }

/-- What the code around `HotStuffCore` calls. `add_blk` is a block that arrives from a peer. -/
inductive Call (Hash Sig : Type) where
  | add_blk (data : BlockData Hash Sig)
  | on_deliver_blk (blk : Hash)
  | on_propose (cmds parents : List Hash) (extra : List UInt8)
  | on_receive_proposal (prop : Proposal Hash)
  | on_receive_vote (vote : Vote Hash Sig)
  | set_vote_disabled (f : Bool)

def call (config : Config Hash Sig) (s : HotStuffCore Hash Sig) :
    Call Hash Sig → Outcome (HotStuffCore Hash Sig)
  | .add_blk data =>
    .ok { s with storage := s.storage.add_blk (config.get_hash data) (.unserialize data) }
  | .on_deliver_blk blk => s.on_deliver_blk blk
  | .on_propose cmds parents extra => s.on_propose config cmds parents extra
  | .on_receive_proposal prop => s.on_receive_proposal config prop
  | .on_receive_vote vote => s.on_receive_vote config vote
  | .set_vote_disabled f => .ok { s with vote_disabled := f }

end HotStuffCore

end general_hotstuff
