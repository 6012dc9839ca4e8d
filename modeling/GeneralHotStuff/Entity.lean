-- The entities of `crypto.h` and `entity.h` that the protocol works on: quorum
-- certificates, blocks and their storage. Hashes and signatures are parameters, a
-- pointer to a block is the hash under which the storage holds it.
import GeneralHotStuff.Quorums

namespace general_hotstuff

open quorums (ReplicaID)

/-! ## The build and its configuration -/

/-- `QuorumCert` is one of the two. -/
inductive Scheme where
  | secp256k1
  | bls

/-- When the voters on a block are a quorum: by number, or by the access structure. -/
inductive QuorumRule where
  | threshold (nmajority : ℕ)
  | generalized (isAuthorizedGroup : Finset ReplicaID → Bool)

/-- A quorum certificate. `sigs` keeps the first signature of each replica, and `threshSig` is
there once a BLS certificate is computed. -/
structure QuorumCert (Hash Sig : Type) where
  obj_hash : Hash
  rids : List Bool
  sigs : List (ReplicaID × Sig)
  threshSig : Option Sig

structure PartCert (Hash Sig : Type) where
  obj_hash : Hash
  sig : Sig

/-- The fields of a block that go over the wire. -/
structure BlockData (Hash Sig : Type) where
  parent_hashes : List Hash
  cmds : List Hash
  qc : QuorumCert Hash Sig
  extra : List UInt8

/-- What `HOTSTUFF_TWO_STEP`, the choice of the certificates and the replica configuration fix,
with the functions of the hash and signature libraries. The replicas are `0, …, nreplicas - 1`,
and a `ReplicaID` has 16 bits. -/
structure Config (Hash Sig : Type) where
  two_step : Bool
  scheme : Scheme
  rule : QuorumRule
  nreplicas : ℕ
  nreplicas_le : nreplicas ≤ 2 ^ 16 := by decide
  b0 : Hash
  get_hash : BlockData Hash Sig → Hash
  sign : ReplicaID → Hash → Sig
  sigVerify : ReplicaID → Hash → Sig → Bool
  recover : List (ReplicaID × Sig) → Sig
  threshVerify : Hash → Option Sig → Bool

theorem Config.four_le : 4 ≤ 2 ^ 16 := by decide

variable {Hash Sig : Type}

/-! ## Quorums -/

namespace QuorumRule

/-- Whether the voters are a quorum. -/
def isQuorum : QuorumRule → Finset ReplicaID → Bool
  | threshold nmajority, voted => decide (nmajority ≤ voted.card)
  | generalized isAuthorizedGroup, voted => isAuthorizedGroup voted

/-- The test after a vote is counted, where `qsize` voters were there before it. -/
def becomesQuorum : QuorumRule → ℕ → Finset ReplicaID → Bool
  | threshold nmajority, qsize, _ => decide (qsize + 1 = nmajority)
  | generalized isAuthorizedGroup, _, voted => isAuthorizedGroup voted

end QuorumRule

/-! ## Quorum certificates -/

namespace QuorumCert

def create_quorum_cert (config : Config Hash Sig) (blk_hash : Hash) : QuorumCert Hash Sig :=
  { obj_hash := blk_hash
    rids := List.replicate config.nreplicas false
    sigs := []
    threshSig := none }

/-- The replicas with a signature in `sigs`. -/
def signers (qc : QuorumCert Hash Sig) : Finset ReplicaID := (qc.sigs.map Prod.fst).toFinset

/-- It throws when the part is for another block. -/
def add_part [DecidableEq Hash] (qc : QuorumCert Hash Sig) (rid : ReplicaID)
    (pc : PartCert Hash Sig) : Option (QuorumCert Hash Sig) :=
  if pc.obj_hash ≠ qc.obj_hash then none
  else
    some
      { qc with
        sigs := if rid ∈ qc.signers then qc.sigs else qc.sigs ++ [(rid, pc.sig)]
        rids := qc.rids.set rid true }

/-- Only a BLS certificate is combined. Its parts are then dropped. -/
def compute (config : Config Hash Sig) (qc : QuorumCert Hash Sig) : QuorumCert Hash Sig :=
  match config.scheme with
  | .secp256k1 => qc
  | .bls =>
    { qc with
      threshSig := some (config.recover qc.sigs)
      sigs := []
      rids := qc.rids.map fun _ => false }

/-- The number of a bit, cut to the 16 bits of a `ReplicaID`. -/
def rid_of_bit (i : ℕ) : ReplicaID := i % 2 ^ 16

/-- The number of a configured replica is not cut. -/
theorem rid_of_bit_of_lt {config : Config Hash Sig} {i : ℕ} (h : i < config.nreplicas) :
    rid_of_bit i = i := Nat.mod_eq_of_lt (h.trans_le config.nreplicas_le)

/-- The loop of `verify` over the bits from number `i` on. `get_pubkey` throws for a replica that
is not configured, and a bit without a signature does not verify. -/
def verifyBits (config : Config Hash Sig) (qc : QuorumCert Hash Sig) : ℕ → List Bool → Option Bool
  | _, [] => some true
  | i, false :: bits => verifyBits config qc (i + 1) bits
  | i, true :: bits =>
    let rid := rid_of_bit i
    if rid < config.nreplicas then
      if (qc.sigs.lookup rid).any (config.sigVerify rid qc.obj_hash) then
        verifyBits config qc (i + 1) bits
      else some false
    else none

def verify (config : Config Hash Sig) (qc : QuorumCert Hash Sig) : Option Bool :=
  match config.scheme with
  | .secp256k1 =>
    if config.rule.isQuorum qc.signers then qc.verifyBits config 0 qc.rids else some false
  | .bls => some (config.threshVerify qc.obj_hash qc.threshSig)

end QuorumCert

/-! ## Blocks -/

/-- A block with what is derived from its wire fields. -/
structure Block (Hash Sig : Type) extends BlockData Hash Sig where
  parents : List Hash
  qc_ref : Option Hash
  self_qc : Option (QuorumCert Hash Sig)
  height : ℕ
  delivered : Bool
  decision : Bool
  voted : Finset ReplicaID

namespace Block

/-- A block that was parsed from the wire. -/
def unserialize (data : BlockData Hash Sig) : Block Hash Sig :=
  { data with
    parents := []
    qc_ref := none
    self_qc := none
    height := 0
    delivered := false
    decision := false
    voted := ∅ }

/-- The certificate of genesis itself is not checked. -/
def verify [DecidableEq Hash] (config : Config Hash Sig) (blk : Block Hash Sig) : Option Bool :=
  if blk.qc.obj_hash = config.b0 then some true else blk.qc.verify config

end Block

/-! ## The storage -/

/-- `EntityStorage`: the blocks by their hash. -/
abbrev EntityStorage (Hash Sig : Type) := Hash → Option (Block Hash Sig)

namespace EntityStorage

variable [DecidableEq Hash]

/-- A block whose hash is already there is dropped. -/
def add_blk (storage : EntityStorage Hash Sig) (h : Hash) (blk : Block Hash Sig) :
    EntityStorage Hash Sig :=
  if (storage h).isSome then storage else Function.update storage h (some blk)

def is_blk_delivered (storage : EntityStorage Hash Sig) (h : Hash) : Bool :=
  (storage h).any (·.delivered)

/-- Writes fields of the block that `h` points to. -/
def modify (storage : EntityStorage Hash Sig) (h : Hash) (f : Block Hash Sig → Block Hash Sig) :
    EntityStorage Hash Sig := Function.update storage h ((storage h).map f)

end EntityStorage

end general_hotstuff
