-- What goes over the wire: the encoders of `entity.cpp`, `crypto.h`, `consensus.h` and
-- `hotstuff.cpp` and the decoders beside them. A certificate sends only some of its
-- fields, and what was sent of it is read back.
import GeneralHotStuff.Consensus
import GeneralHotStuff.DataStream

namespace general_hotstuff

open data_stream
open quorums (ReplicaID)

variable {Hash Sig : Type}

/-! ## Signatures -/

/-- One signature for each key of the signer. -/
structure SigBls (S : Type) where
  sigs : List S

namespace SigBls

variable {S : Type}

/-- The count is a `size_t`. -/
def serialize (enc : FixedCodec 48 S) (sig : SigBls S) : List UInt8 :=
  le_bytes 8 sig.sigs.length ++ sig.sigs.flatMap enc.put

def unserialize (enc : FixedCodec 48 S) : Reader (SigBls S) := do
  let size ← read_uint 8
  let sigs ← read_many enc.read size
  pure ⟨sigs⟩

end SigBls

/-- The signatures of a build, with the encoding of a single one. -/
inductive SigFormat : Type → Type 1 where
  | secp256k1 {Sig : Type} (enc : FixedCodec 64 Sig) : SigFormat Sig
  | bls {S : Type} (enc : FixedCodec 48 S) : SigFormat (SigBls S)

namespace SigFormat

def scheme : SigFormat Sig → Scheme
  | secp256k1 _ => .secp256k1
  | bls _ => .bls

def serialize : SigFormat Sig → Sig → List UInt8
  | secp256k1 enc, sig => enc.put sig
  | bls enc, sig => sig.serialize enc

def unserialize : SigFormat Sig → Reader Sig
  | secp256k1 enc => enc.read
  | bls enc => SigBls.unserialize enc

/-- There are fewer than 2^32 signatures in it. -/
def Fits : SigFormat Sig → Sig → Prop
  | secp256k1 _, _ => True
  | bls _, sig => sig.sigs.length < 2 ^ 32

end SigFormat

/-- How hashes, bits and signatures are written. -/
structure Format (Hash Sig : Type) where
  hash : FixedCodec 32 Hash
  bits : StreamCodec (List Bool)
  sig : SigFormat Sig

/-! ## Certificates -/

namespace PartCert

def serialize (fmt : Format Hash Sig) (pc : PartCert Hash Sig) : List UInt8 :=
  fmt.hash.put pc.obj_hash ++ fmt.sig.serialize pc.sig

def unserialize (fmt : Format Hash Sig) : Reader (PartCert Hash Sig) := do
  let obj_hash ← fmt.hash.read
  let sig ← fmt.sig.unserialize
  pure { obj_hash := obj_hash, sig := sig }

end PartCert

namespace QuorumCert

/-- The numbers of the bits that are set. -/
def set_bits (rids : List Bool) : List ℕ := (List.range rids.length).filter (rids.getD · false)

/-- `sigs[rid] = sig`. -/
def assign (sigs : List (ReplicaID × Sig)) (rid : ReplicaID) (sig : Sig) :
    List (ReplicaID × Sig) :=
  if rid ∈ sigs.map Prod.fst then sigs.map fun e => if e.1 = rid then (rid, sig) else e
  else sigs ++ [(rid, sig)]

/-- The signatures that were read for the bits, each under the replica that its bit is cut to. -/
def assign_all (listed : List (ℕ × Sig)) : List (ReplicaID × Sig) :=
  listed.foldl (fun sigs e => assign sigs (rid_of_bit e.1) e.2) []

/-- `sigs.at` throws where a bit has no signature. Of a BLS certificate only the threshold
signature is written, after the byte that says whether there is one. -/
def serialize (fmt : Format Hash Sig) (qc : QuorumCert Hash Sig) : Option (List UInt8) :=
  match fmt.sig.scheme with
  | .secp256k1 =>
    ((set_bits qc.rids).mapM fun i => qc.sigs.lookup (rid_of_bit i)).map fun sigs =>
      fmt.hash.put qc.obj_hash ++ (fmt.bits.put qc.rids ++ sigs.flatMap fmt.sig.serialize)
  | .bls =>
    some (fmt.hash.put qc.obj_hash ++
      match qc.threshSig with
      | none => le_bytes 1 0
      | some threshSig => le_bytes 1 1 ++ fmt.sig.serialize threshSig)

/-- The threshold signature, if there is one. -/
def read_threshSig (fmt : Format Hash Sig) (threshSigExists : ℕ) : Reader (Option Sig) :=
  if threshSigExists = 0 then pure none
  else do
    let threshSig ← fmt.sig.unserialize
    pure (some threshSig)

def unserialize (fmt : Format Hash Sig) : Reader (QuorumCert Hash Sig) :=
  match fmt.sig.scheme with
  | .secp256k1 => do
    let obj_hash ← fmt.hash.read
    let rids ← fmt.bits.read
    let sigs ← read_many fmt.sig.unserialize (set_bits rids).length
    pure { obj_hash := obj_hash, rids := rids, sigs := assign_all ((set_bits rids).zip sigs),
           threshSig := none }
  | .bls => do
    let obj_hash ← fmt.hash.read
    let threshSigExists ← read_uint 1
    let threshSig ← read_threshSig fmt threshSigExists
    pure { obj_hash := obj_hash, rids := [], sigs := [], threshSig := threshSig }

end QuorumCert

/-! ## Messages that carry blocks -/

/-- How hashes and quorum certificates are read. -/
structure Wire (Hash Sig : Type) where
  hash : Reader Hash
  parse_quorum_cert : Reader (QuorumCert Hash Sig)

def Format.wire (fmt : Format Hash Sig) : Wire Hash Sig :=
  { hash := fmt.hash.read, parse_quorum_cert := QuorumCert.unserialize fmt }

namespace BlockData

/-- The extra bytes of a block, `n` of them. -/
def read_extra (n : ℕ) : Reader (List UInt8) := if n = 0 then pure [] else get_data n

/-- `Block::unserialize`, up to the hash that it computes at its end. -/
def unserialize (w : Wire Hash Sig) : Reader (BlockData Hash Sig) := do
  let n ← read_uint 4
  let parent_hashes ← read_many w.hash n
  let n ← read_uint 4
  let cmds ← read_many w.hash n
  let qc ← w.parse_quorum_cert
  let n ← read_uint 4
  let extra ← read_extra n
  pure { parent_hashes := parent_hashes, cmds := cmds, qc := qc, extra := extra }

/-- `Block::serialize`. -/
def serialize (fmt : Format Hash Sig) (data : BlockData Hash Sig) : Option (List UInt8) :=
  (data.qc.serialize fmt).map fun qc =>
    le_bytes 4 data.parent_hashes.length ++ (data.parent_hashes.flatMap fmt.hash.put ++
      (le_bytes 4 data.cmds.length ++ (data.cmds.flatMap fmt.hash.put ++
        (qc ++ (le_bytes 4 data.extra.length ++ data.extra)))))

/-- The first four bytes are the number of parents. -/
theorem unserialize_parents {w : Wire Hash Sig} {bytes rest : List UInt8}
    {data : BlockData Hash Sig} (h : unserialize w bytes = some (data, rest)) :
    4 ≤ bytes.length ∧ data.parent_hashes.length = of_le (bytes.take 4) := by
  obtain ⟨n, s1, hn, h⟩ := bind_eq_some.mp h
  obtain ⟨hlen, hle, -⟩ := read_uint_eq_some.mp hn
  obtain ⟨parents, s2, hparents, h⟩ := bind_eq_some.mp h
  obtain ⟨_, _, -, h⟩ := bind_eq_some.mp h
  obtain ⟨_, _, -, h⟩ := bind_eq_some.mp h
  obtain ⟨_, _, -, h⟩ := bind_eq_some.mp h
  obtain ⟨_, _, -, h⟩ := bind_eq_some.mp h
  obtain ⟨_, _, -, h⟩ := bind_eq_some.mp h
  rw [← (pure_eq_some.mp h).1, read_many_length hparents]
  exact ⟨hlen, hle.symm⟩

/-- A block without parents begins with four zero bytes, and nothing but its length is checked of
the rest. -/
theorem unserialize_no_parents {w : Wire Hash Sig} {bytes rest : List UInt8}
    {data : BlockData Hash Sig} (h : unserialize w bytes = some (data, rest)) :
    data.parent_hashes = [] ↔ ∀ b ∈ bytes.take 4, b = 0 := by
  rw [← of_le_eq_zero, ← (unserialize_parents h).2, List.length_eq_zero_iff]

end BlockData

/-- The messages of peers that carry blocks, with their bytes. -/
inductive BlockMsg where
  | propose (serialized : List UInt8)
  | resp_block (serialized : List UInt8)

namespace BlockMsg

/-- `Proposal::unserialize`, without `add_blk`. -/
def parse_proposal (w : Wire Hash Sig) : Reader (ReplicaID × BlockData Hash Sig) := do
  let proposer ← read_uint 2
  let blk ← BlockData.unserialize w
  pure (proposer, blk)

/-- `MsgRespBlock::postponed_parse`, without `add_blk`. -/
def parse_resp_block (w : Wire Hash Sig) : Reader (List (BlockData Hash Sig)) := do
  let size ← read_uint 4
  read_many (BlockData.unserialize w) size

/-- The blocks that the message adds to the storage. -/
def blocks (w : Wire Hash Sig) : BlockMsg → Option (List (BlockData Hash Sig))
  | propose serialized => (parse_proposal w serialized).map fun (prop, _) => [prop.2]
  | resp_block serialized => (parse_resp_block w serialized).map Prod.fst

/-- Every block of a message went through `Block::unserialize`. -/
theorem mem_blocks {w : Wire Hash Sig} {msg : BlockMsg} {datas : List (BlockData Hash Sig)}
    {data : BlockData Hash Sig} (h : msg.blocks w = some datas) (hdata : data ∈ datas) :
    ∃ bytes rest, BlockData.unserialize w bytes = some (data, rest) := by
  cases msg with
  | propose serialized =>
    obtain ⟨⟨prop, rest⟩, hprop, rfl⟩ := Option.map_eq_some_iff.mp h
    obtain ⟨proposer, s1, -, hprop⟩ := bind_eq_some.mp hprop
    obtain ⟨blk, s2, hblk, hprop⟩ := bind_eq_some.mp hprop
    rw [List.mem_singleton.mp hdata, ← (pure_eq_some.mp hprop).1]
    exact ⟨s1, s2, hblk⟩
  | resp_block serialized =>
    obtain ⟨⟨blks, rest⟩, hblks, rfl⟩ := Option.map_eq_some_iff.mp h
    obtain ⟨size, s1, -, hblks⟩ := bind_eq_some.mp hblks
    exact mem_read_many hblks hdata

end BlockMsg

/-! ## Messages -/

namespace Vote

def serialize (fmt : Format Hash Sig) (vote : Vote Hash Sig) : List UInt8 :=
  le_bytes 2 vote.voter ++ (fmt.hash.put vote.blk_hash ++ vote.cert.serialize fmt)

def unserialize (fmt : Format Hash Sig) : Reader (Vote Hash Sig) := do
  let voter ← read_uint 2
  let blk_hash ← fmt.hash.read
  let cert ← PartCert.unserialize fmt
  pure { voter := voter, blk_hash := blk_hash, cert := cert }

end Vote

/-- The messages between replicas, a block by its wire fields. -/
inductive Msg (Hash Sig : Type) where
  | propose (proposer : ReplicaID) (blk : BlockData Hash Sig)
  | vote (vote : Vote Hash Sig)
  | req_block (blk_hashes : List Hash)
  | resp_block (blks : List (BlockData Hash Sig))

namespace Msg

def opcode : Msg Hash Sig → ℕ
  | propose _ _ => 0
  | vote _ => 1
  | req_block _ => 2
  | resp_block _ => 3

/-- The blocks in the message. -/
def blocks : Msg Hash Sig → List (BlockData Hash Sig)
  | propose _ blk => [blk]
  | resp_block blks => blks
  | _ => []

/-- The constructors of `MsgPropose`, `MsgVote`, `MsgReqBlock` and `MsgRespBlock`. -/
def serialize (fmt : Format Hash Sig) : Msg Hash Sig → Option (List UInt8)
  | propose proposer blk => (blk.serialize fmt).map fun blk => le_bytes 2 proposer ++ blk
  | vote v => some (v.serialize fmt)
  | req_block blk_hashes =>
    some (le_bytes 4 blk_hashes.length ++ blk_hashes.flatMap fmt.hash.put)
  | resp_block blks =>
    (blks.mapM (BlockData.serialize fmt)).map fun pieces =>
      le_bytes 4 blks.length ++ pieces.flatten

def parse_req_block (fmt : Format Hash Sig) : Reader (List Hash) := do
  let size ← read_uint 4
  read_many fmt.hash.read size

/-- The parser that the opcode selects. -/
def parse (fmt : Format Hash Sig) : ℕ → Reader (Msg Hash Sig)
  | 0 => do
    let prop ← BlockMsg.parse_proposal fmt.wire
    pure (propose prop.1 prop.2)
  | 1 => do
    let v ← Vote.unserialize fmt
    pure (vote v)
  | 2 => do
    let blk_hashes ← parse_req_block fmt
    pure (req_block blk_hashes)
  | 3 => do
    let blks ← BlockMsg.parse_resp_block fmt.wire
    pure (resp_block blks)
  | _ => StateT.lift none

end Msg

/-! ## Fields that are sent -/

/-- The fields that the certificates of a build send agree. -/
def QuorumCert.SameWire (scheme : Scheme) (qc qc' : QuorumCert Hash Sig) : Prop :=
  qc.obj_hash = qc'.obj_hash ∧
    match scheme with
    | .secp256k1 => qc.rids = qc'.rids ∧ ∀ i ∈ set_bits qc.rids,
      qc.sigs.lookup (rid_of_bit i) = qc'.sigs.lookup (rid_of_bit i)
    | .bls => qc.threshSig = qc'.threshSig

structure BlockData.SameWire (scheme : Scheme) (data data' : BlockData Hash Sig) : Prop where
  parent_hashes : data.parent_hashes = data'.parent_hashes
  cmds : data.cmds = data'.cmds
  qc : data.qc.SameWire scheme data'.qc
  extra : data.extra = data'.extra

def Msg.SameWire (scheme : Scheme) : Msg Hash Sig → Msg Hash Sig → Prop
  | propose proposer blk, propose proposer' blk' =>
    proposer = proposer' ∧ blk.SameWire scheme blk'
  | vote v, vote v' => v = v'
  | req_block blk_hashes, req_block blk_hashes' => blk_hashes = blk_hashes'
  | resp_block blks, resp_block blks' => List.Forall₂ (BlockData.SameWire scheme) blks blks'
  | _, _ => False

/-- There are fewer than 2^32 signatures in the threshold signature. -/
def QuorumCert.Fits (fmt : Format Hash Sig) (qc : QuorumCert Hash Sig) : Prop :=
  ∀ threshSig, qc.threshSig = some threshSig → fmt.sig.Fits threshSig

/-- Every list in the block is shorter than 2^32. -/
structure BlockData.Fits (fmt : Format Hash Sig) (data : BlockData Hash Sig) : Prop where
  parent_hashes : data.parent_hashes.length < 2 ^ 32
  cmds : data.cmds.length < 2 ^ 32
  qc : data.qc.Fits fmt
  extra : data.extra.length < 2 ^ 32

/-- Every list in the message is shorter than 2^32. -/
def Msg.Fits (fmt : Format Hash Sig) : Msg Hash Sig → Prop
  | propose _ blk => blk.Fits fmt
  | vote v => fmt.sig.Fits v.cert.sig
  | req_block blk_hashes => blk_hashes.length < 2 ^ 32
  | resp_block blks => blks.length < 2 ^ 32 ∧ ∀ blk ∈ blks, blk.Fits fmt

end general_hotstuff
