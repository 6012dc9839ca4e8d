-- What a replica sends is read back: the fields that went over the wire agree, every byte
-- of the message is consumed and none behind it, and a block has the hash that it had.
import GeneralHotStuff.BlockLinks
import GeneralHotStuff.WireFormat

namespace general_hotstuff

open data_stream
open quorums (ReplicaID)

variable {Hash Sig : Type}

/-! ## Signatures -/

theorem SigBls.reads {S : Type} (enc : FixedCodec 48 S) {sig : SigBls S}
    (h : sig.sigs.length < 2 ^ 64) : Reads (SigBls.unserialize enc) (sig.serialize enc) sig := by
  unfold SigBls.unserialize SigBls.serialize
  apply Reads.bind (x := sig.sigs.length)
  · exact reads_uint (by omega)
  · exact (enc.reads_many sig.sigs).map

theorem SigFormat.reads {f : SigFormat Sig} {sig : Sig} (h : f.Fits sig) :
    Reads f.unserialize (f.serialize sig) sig := by
  cases f with
  | secp256k1 enc => exact enc.reads sig
  | bls enc =>
    unfold SigFormat.Fits at h
    exact SigBls.reads enc (by omega)

/-- A single signature always fits. -/
theorem SigFormat.fits_of_single {f : SigFormat Sig} (h : f.scheme = .secp256k1) (sig : Sig) :
    f.Fits sig := by
  cases f with
  | secp256k1 enc => trivial
  | bls enc => cases h

theorem PartCert.reads {fmt : Format Hash Sig} {pc : PartCert Hash Sig}
    (h : fmt.sig.Fits pc.sig) : Reads (PartCert.unserialize fmt) (pc.serialize fmt) pc := by
  unfold PartCert.unserialize PartCert.serialize
  apply Reads.bind (fmt.hash.reads pc.obj_hash)
  exact (SigFormat.reads h).map

/-! ## The signatures of a certificate -/

namespace QuorumCert

theorem mem_set_bits {rids : List Bool} {i : ℕ} : i ∈ set_bits rids ↔ rids[i]? = some true := by
  unfold set_bits
  rw [List.mem_filter, List.mem_range, List.getD_eq_getElem?_getD]
  constructor
  · rintro ⟨hi, hbit⟩
    rw [List.getElem?_eq_getElem hi] at hbit ⊢
    rw [← hbit]
    rfl
  · intro hbit
    refine ⟨(List.getElem?_eq_some_iff.mp hbit).1, ?_⟩
    rw [hbit, Option.getD_some]

theorem keys_assign (sigs : List (ReplicaID × Sig)) (rid : ReplicaID) (sig : Sig) :
    (assign sigs rid sig).map Prod.fst =
      if rid ∈ sigs.map Prod.fst then sigs.map Prod.fst else sigs.map Prod.fst ++ [rid] := by
  unfold assign
  split
  · rw [List.map_map]
    apply List.map_congr_left
    intro e _
    by_cases he : e.1 = rid
    · simp [he]
    · simp [he]
  · simp

theorem mem_assign {sigs : List (ReplicaID × Sig)} {rid : ReplicaID} {sig : Sig}
    {e : ReplicaID × Sig} (he : e ∈ assign sigs rid sig) : e ∈ sigs ∨ e = (rid, sig) := by
  unfold assign at he
  split at he
  · obtain ⟨e', he', heq⟩ := List.mem_map.mp he
    by_cases hrid : e'.1 = rid
    · rw [if_pos hrid] at heq
      exact .inr heq.symm
    · rw [if_neg hrid] at heq
      exact .inl (heq ▸ he')
  · simpa using he

/-- Each replica has one signature, and it is one of those that were read for it. -/
structure Assigned (listed : List (ℕ × Sig)) (sigs : List (ReplicaID × Sig)) : Prop where
  nodup : (sigs.map Prod.fst).Nodup
  keys : ∀ rid, rid ∈ sigs.map Prod.fst ↔ ∃ e ∈ listed, rid_of_bit e.1 = rid
  listed : ∀ p ∈ sigs, ∃ e ∈ listed, rid_of_bit e.1 = p.1 ∧ e.2 = p.2

theorem Assigned.assign {listed : List (ℕ × Sig)} {sigs : List (ReplicaID × Sig)}
    (h : Assigned listed sigs) (e : ℕ × Sig) :
    Assigned (listed ++ [e]) (QuorumCert.assign sigs (rid_of_bit e.1) e.2) where
  nodup := by
    rw [keys_assign]
    split
    · exact h.nodup
    · rename_i hnew
      exact h.nodup.append (List.nodup_singleton _) (by simpa using hnew)
  keys rid := by
    have hkey : rid ∈ (QuorumCert.assign sigs (rid_of_bit e.1) e.2).map Prod.fst ↔
        rid ∈ sigs.map Prod.fst ∨ rid_of_bit e.1 = rid := by
      rw [keys_assign]
      split
      · rename_i hold
        refine ⟨.inl, ?_⟩
        rintro (hrid | rfl)
        · exact hrid
        · exact hold
      · simp [eq_comm]
    rw [hkey, h.keys]
    simp only [List.mem_append, List.mem_singleton, or_and_right, exists_or, exists_eq_left]
  listed p hp := by
    rcases mem_assign hp with hp | rfl
    · obtain ⟨e', he', heq⟩ := h.listed p hp
      exact ⟨e', List.mem_append_left _ he', heq⟩
    · exact ⟨e, by simp, rfl, rfl⟩

theorem assigned_all (listed : List (ℕ × Sig)) : Assigned listed (assign_all listed) := by
  induction listed using List.reverseRecOn with
  | nil => exact ⟨by simp [assign_all], by simp [assign_all], by simp [assign_all]⟩
  | append_singleton listed e ih =>
    have hstep : assign_all (listed ++ [e]) =
        QuorumCert.assign (assign_all listed) (rid_of_bit e.1) e.2 := by
      simp [assign_all]
    rw [hstep]
    exact ih.assign e

theorem lookup_eq_some_of_nodup {sigs : List (ReplicaID × Sig)}
    (hnd : (sigs.map Prod.fst).Nodup) {rid : ReplicaID} {sig : Sig} :
    sigs.lookup rid = some sig ↔ (rid, sig) ∈ sigs := by
  induction sigs with
  | nil => simp
  | cons e sigs ih =>
    obtain ⟨hnew, hnd⟩ := List.nodup_cons.mp (by simpa using hnd : (e.1 :: sigs.map Prod.fst).Nodup)
    by_cases hrid : rid = e.1
    · subst hrid
      rw [List.lookup_cons_self, List.mem_cons, Option.some.injEq]
      constructor
      · rintro rfl
        exact .inl rfl
      · rintro (heq | hmem)
        · rw [← heq]
        · exact absurd (List.mem_map_of_mem hmem) hnew
    · have hne : (rid, sig) ≠ e := by
        rintro rfl
        exact hrid rfl
      rw [List.lookup_cons, beq_eq_false_iff_ne.mpr hrid, List.mem_cons]
      simpa [hne] using ih hnd

/-- When the signatures that were read are those under `g`, so are the ones that are kept. -/
theorem lookup_assign_all {listed : List (ℕ × Sig)} {g : ReplicaID → Option Sig}
    (hg : ∀ e ∈ listed, g (rid_of_bit e.1) = some e.2) {e : ℕ × Sig} (he : e ∈ listed) :
    (assign_all listed).lookup (rid_of_bit e.1) = g (rid_of_bit e.1) := by
  have h := assigned_all listed
  obtain ⟨p, hp, hrid⟩ := List.mem_map.mp ((h.keys (rid_of_bit e.1)).mpr ⟨e, he, rfl⟩)
  obtain ⟨e', he', hrid', hsig⟩ := h.listed p hp
  rw [← hrid, ← hrid', hg e' he', lookup_eq_some_of_nodup h.nodup, hrid', hsig]
  exact hp

/-! ## Certificates -/

theorem SameWire.symm {scheme : Scheme} {qc qc' : QuorumCert Hash Sig}
    (h : qc.SameWire scheme qc') : qc'.SameWire scheme qc := by
  unfold SameWire at h ⊢
  cases scheme with
  | secp256k1 =>
    obtain ⟨hobj, hrids, hsigs⟩ := h
    exact ⟨hobj.symm, hrids.symm, fun i hi => (hsigs i (hrids ▸ hi)).symm⟩
  | bls => exact ⟨h.1.symm, h.2.symm⟩

theorem SameWire.trans {scheme : Scheme} {qc qc' qc'' : QuorumCert Hash Sig}
    (h : qc.SameWire scheme qc') (h' : qc'.SameWire scheme qc'') : qc.SameWire scheme qc'' := by
  unfold SameWire at h h' ⊢
  cases scheme with
  | secp256k1 =>
    obtain ⟨hobj, hrids, hsigs⟩ := h
    obtain ⟨hobj', hrids', hsigs'⟩ := h'
    exact ⟨hobj.trans hobj', hrids.trans hrids',
      fun i hi => (hsigs i hi).trans (hsigs' i (hrids ▸ hi))⟩
  | bls => exact ⟨h.1.trans h'.1, h.2.trans h'.2⟩

theorem mapM_congr {α β : Type} {f g : α → Option β} {xs : List α}
    (h : ∀ x ∈ xs, f x = g x) : xs.mapM f = xs.mapM g := by
  induction xs with
  | nil => rfl
  | cons x xs ih =>
    rw [List.mapM_cons, List.mapM_cons, h x List.mem_cons_self,
      ih fun y hy => h y (List.mem_cons_of_mem x hy)]

/-- Only the fields that are sent are written. -/
theorem SameWire.serialize_eq {fmt : Format Hash Sig} {qc qc' : QuorumCert Hash Sig}
    (h : qc.SameWire fmt.sig.scheme qc') : qc.serialize fmt = qc'.serialize fmt := by
  unfold SameWire at h
  unfold QuorumCert.serialize
  cases hs : fmt.sig.scheme with
  | secp256k1 =>
    simp only [hs] at h
    obtain ⟨hobj, hrids, hsigs⟩ := h
    simp only [← hobj, ← hrids, mapM_congr hsigs]
  | bls =>
    simp only [hs] at h
    simp only [h.1, h.2]

theorem read_back_listed {fmt : Format Hash Sig} (hs : fmt.sig.scheme = .secp256k1)
    {qc : QuorumCert Hash Sig} {sigs : List Sig}
    (hsigs : (set_bits qc.rids).mapM (fun i => qc.sigs.lookup (rid_of_bit i)) = some sigs) :
    Reads (read_many fmt.sig.unserialize (set_bits qc.rids).length)
        (sigs.flatMap fmt.sig.serialize) sigs ∧
      ∀ i ∈ set_bits qc.rids, qc.sigs.lookup (rid_of_bit i) =
        (assign_all ((set_bits qc.rids).zip sigs)).lookup (rid_of_bit i) := by
  have hall := forall₂_of_mapM hsigs
  have hlen := hall.length_eq
  constructor
  · rw [hlen, List.flatMap_def]
    apply Reads.many
    rw [List.forall₂_map_left_iff, List.forall₂_same]
    intro sig _
    exact SigFormat.reads (SigFormat.fits_of_single hs sig)
  · intro i hi
    obtain ⟨sig, hlisted⟩ := exists_mem_zip hlen hi
    have hg : ∀ e ∈ (set_bits qc.rids).zip sigs, qc.sigs.lookup (rid_of_bit e.1) = some e.2 := by
      intro e he
      exact (List.forall₂_iff_zip.mp hall).2 he
    exact (lookup_assign_all (g := fun rid => qc.sigs.lookup rid) hg hlisted).symm

/-- What was sent of a certificate is read back. -/
theorem read_back {fmt : Format Hash Sig} {qc : QuorumCert Hash Sig} {bytes : List UInt8}
    (h : qc.serialize fmt = some bytes) (hfits : qc.Fits fmt) :
    ∃ qc', Reads (unserialize fmt) bytes qc' ∧ qc.SameWire fmt.sig.scheme qc' := by
  unfold QuorumCert.serialize at h
  unfold unserialize SameWire
  cases hs : fmt.sig.scheme with
  | secp256k1 =>
    simp only [hs] at h ⊢
    obtain ⟨sigs, hsigs, rfl⟩ := Option.map_eq_some_iff.mp h
    obtain ⟨hread, hlookup⟩ := read_back_listed hs hsigs
    refine ⟨{ obj_hash := qc.obj_hash, rids := qc.rids,
              sigs := assign_all ((set_bits qc.rids).zip sigs), threshSig := none }, ?_,
      rfl, rfl, hlookup⟩
    apply Reads.bind (fmt.hash.reads qc.obj_hash)
    apply Reads.bind (fmt.bits.reads qc.rids)
    exact hread.map
  | bls =>
    simp only [hs, Option.some.injEq] at h ⊢
    subst h
    refine ⟨{ obj_hash := qc.obj_hash, rids := [], sigs := [], threshSig := qc.threshSig }, ?_,
      rfl, rfl⟩
    apply Reads.bind (fmt.hash.reads qc.obj_hash)
    cases hsig : qc.threshSig with
    | none =>
      have hnone : Reads (read_threshSig fmt 0) [] none := reads_pure none
      rw [← List.append_nil (le_bytes 1 0)]
      apply Reads.bind (reads_uint (by decide))
      exact hnone.map
    | some sig =>
      have hsome : Reads (read_threshSig fmt 1) (fmt.sig.serialize sig) (some sig) :=
        (SigFormat.reads (hfits sig hsig)).map
      apply Reads.bind (reads_uint (by decide))
      exact hsome.map

end QuorumCert

/-! ## Blocks -/

namespace BlockData

theorem SameWire.symm {scheme : Scheme} {data data' : BlockData Hash Sig}
    (h : data.SameWire scheme data') : data'.SameWire scheme data :=
  ⟨h.parent_hashes.symm, h.cmds.symm, h.qc.symm, h.extra.symm⟩

theorem SameWire.trans {scheme : Scheme} {data data' data'' : BlockData Hash Sig}
    (h : data.SameWire scheme data') (h' : data'.SameWire scheme data'') :
    data.SameWire scheme data'' :=
  ⟨h.parent_hashes.trans h'.parent_hashes, h.cmds.trans h'.cmds, h.qc.trans h'.qc,
    h.extra.trans h'.extra⟩

theorem SameWire.serialize_eq {fmt : Format Hash Sig} {data data' : BlockData Hash Sig}
    (h : data.SameWire fmt.sig.scheme data') : data.serialize fmt = data'.serialize fmt := by
  unfold BlockData.serialize
  rw [h.qc.serialize_eq, h.parent_hashes, h.cmds, h.extra]

theorem reads_extra (extra : List UInt8) : Reads (read_extra extra.length) extra extra := by
  unfold read_extra
  split
  · rename_i h
    rw [List.length_eq_zero_iff.mp h]
    exact reads_pure []
  · exact reads_data rfl

/-- What was sent of a block is read back. -/
theorem read_back {fmt : Format Hash Sig} {data : BlockData Hash Sig} {bytes : List UInt8}
    (h : data.serialize fmt = some bytes) (hfits : data.Fits fmt) :
    ∃ data', Reads (unserialize fmt.wire) bytes data' ∧
      data.SameWire fmt.sig.scheme data' := by
  unfold BlockData.serialize at h
  obtain ⟨qc_bytes, hqc, rfl⟩ := Option.map_eq_some_iff.mp h
  obtain ⟨qc, hread, hsame⟩ := QuorumCert.read_back hqc hfits.qc
  refine ⟨{ data with qc := qc }, ?_, rfl, rfl, hsame, rfl⟩
  unfold unserialize
  apply Reads.bind (reads_uint hfits.parent_hashes)
  apply Reads.bind (fmt.hash.reads_many data.parent_hashes)
  apply Reads.bind (reads_uint hfits.cmds)
  apply Reads.bind (fmt.hash.reads_many data.cmds)
  apply Reads.bind hread
  apply Reads.bind (reads_uint hfits.extra)
  exact (reads_extra data.extra).map

/-- Two blocks with one serialization have sent the same fields. -/
theorem sameWire_of_serialize {fmt : Format Hash Sig} {data data' : BlockData Hash Sig}
    {bytes : List UInt8} (h : data.serialize fmt = some bytes)
    (h' : data'.serialize fmt = some bytes) (hfits : data.Fits fmt) (hfits' : data'.Fits fmt) :
    data.SameWire fmt.sig.scheme data' := by
  obtain ⟨parsed, hread, hsame⟩ := read_back h hfits
  obtain ⟨parsed', hread', hsame'⟩ := read_back h' hfits'
  rw [hread'.unique hread] at hsame'
  exact hsame.trans hsame'.symm

end BlockData

/-! ## Messages -/

theorem Vote.reads {fmt : Format Hash Sig} {vote : Vote Hash Sig} (hvoter : vote.voter < 2 ^ 16)
    (h : fmt.sig.Fits vote.cert.sig) :
    Reads (Vote.unserialize fmt) (vote.serialize fmt) vote := by
  unfold Vote.unserialize Vote.serialize
  apply Reads.bind (reads_uint hvoter)
  apply Reads.bind (fmt.hash.reads vote.blk_hash)
  exact (PartCert.reads h).map

namespace Msg

theorem reads_proposal {fmt : Format Hash Sig} {proposer : ReplicaID} (hid : proposer < 2 ^ 16)
    {data : BlockData Hash Sig} {bytes : List UInt8}
    (h : Reads (BlockData.unserialize fmt.wire) bytes data) :
    Reads (BlockMsg.parse_proposal fmt.wire) (le_bytes 2 proposer ++ bytes) (proposer, data) := by
  unfold BlockMsg.parse_proposal
  apply Reads.bind (reads_uint hid)
  exact h.map

/-- The blocks of a response are read back one after the other. -/
theorem read_back_blocks {fmt : Format Hash Sig} {blks : List (BlockData Hash Sig)}
    {pieces : List (List UInt8)}
    (h : List.Forall₂ (fun blk bytes => blk.serialize fmt = some bytes) blks pieces)
    (hfits : ∀ blk ∈ blks, blk.Fits fmt) :
    ∃ blks', Reads (read_many (BlockData.unserialize fmt.wire) blks.length) pieces.flatten blks' ∧
      List.Forall₂ (BlockData.SameWire fmt.sig.scheme) blks blks' := by
  induction h with
  | nil => exact ⟨[], reads_pure [], .nil⟩
  | cons hblk _ ih =>
    obtain ⟨blk', hread, hsame⟩ := BlockData.read_back hblk (hfits _ List.mem_cons_self)
    obtain ⟨blks', hreads, hsames⟩ := ih fun blk hmem => hfits blk (List.mem_cons_of_mem _ hmem)
    exact ⟨blk' :: blks', hread.bind hreads.map, .cons hsame hsames⟩

/-- The replica numbers in the message have 16 bits. -/
def Numbered : Msg Hash Sig → Prop
  | propose proposer _ => proposer < 2 ^ 16
  | vote v => v.voter < 2 ^ 16
  | _ => True

/-- What was sent in a message is read back, and every byte of it is consumed. -/
theorem read_back {fmt : Format Hash Sig} {msg : Msg Hash Sig} {bytes : List UInt8}
    (h : msg.serialize fmt = some bytes) (hfits : msg.Fits fmt) (hnum : msg.Numbered) :
    ∃ msg', Reads (parse fmt msg.opcode) bytes msg' ∧ msg.SameWire fmt.sig.scheme msg' ∧
      List.Forall₂ (BlockData.SameWire fmt.sig.scheme) msg.blocks msg'.blocks := by
  cases msg with
  | propose proposer blk =>
    obtain ⟨blk_bytes, hblk, rfl⟩ := Option.map_eq_some_iff.mp h
    obtain ⟨blk', hread, hsame⟩ := BlockData.read_back hblk hfits
    exact ⟨propose proposer blk', (reads_proposal hnum hread).map, ⟨rfl, hsame⟩,
      .cons hsame .nil⟩
  | vote v =>
    cases h
    exact ⟨vote v, (Vote.reads hnum hfits).map, rfl, .nil⟩
  | req_block blk_hashes =>
    cases h
    have hread : Reads (parse_req_block fmt)
        (le_bytes 4 blk_hashes.length ++ blk_hashes.flatMap fmt.hash.put) blk_hashes :=
      (reads_uint hfits).bind (fmt.hash.reads_many blk_hashes)
    exact ⟨req_block blk_hashes, hread.map, rfl, .nil⟩
  | resp_block blks =>
    obtain ⟨pieces, hpieces, rfl⟩ := Option.map_eq_some_iff.mp h
    obtain ⟨blks', hreads, hsames⟩ := read_back_blocks (forall₂_of_mapM hpieces) hfits.2
    have hread : Reads (BlockMsg.parse_resp_block fmt.wire)
        (le_bytes 4 blks.length ++ pieces.flatten) blks' := (reads_uint hfits.1).bind hreads
    exact ⟨resp_block blks', hread.map, hsames, hsames⟩

end Msg

/-! ## A format of single bytes -/

/-- One byte, and zeros behind it. -/
def padded (size : ℕ) (h : 0 < size) : FixedCodec size UInt8 where
  put x := x :: List.replicate (size - 1) 0
  parse bytes := bytes.head?
  put_length x := by
    rw [List.length_cons, List.length_replicate]
    omega
  parse_put x := rfl

/-- A byte for each bit, and a byte that ends them. -/
def put_bits : List Bool → List UInt8
  | [] => [2]
  | bit :: bits => (if bit then 1 else 0) :: put_bits bits

def read_bits : List UInt8 → Option (List Bool × List UInt8)
  | [] => none
  | byte :: bytes =>
    if byte = 2 then some ([], bytes)
    else (read_bits bytes).map fun r => ((byte = 1) :: r.1, r.2)

theorem read_put_bits (bits : List Bool) (rest : List UInt8) :
    read_bits (put_bits bits ++ rest) = some (bits, rest) := by
  induction bits with
  | nil => rfl
  | cons bit bits ih =>
    unfold put_bits
    rw [List.cons_append]
    unfold read_bits
    rw [ih]
    cases bit with
    | true => rfl
    | false => rfl

/-- Hashes and signatures of one byte. -/
def one_byte_format : Format UInt8 UInt8 :=
  { hash := padded 32 (by decide)
    bits := ⟨put_bits, read_bits, read_put_bits⟩
    sig := .secp256k1 (padded 64 (by decide)) }

end general_hotstuff
