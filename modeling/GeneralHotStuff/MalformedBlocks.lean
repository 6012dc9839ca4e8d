-- Blocks as they come over the wire, up to their delivery. Neither the parser nor `verify` asks
-- for a parent, and `on_deliver_blk` reads the first one: the blocks that go through are
-- those that name a parent.
import GeneralHotStuff.BlockLinks
import GeneralHotStuff.Replay
import GeneralHotStuff.WireFormat

namespace general_hotstuff

open data_stream
open quorums (ReplicaID)

variable {Hash Sig : Type}

namespace HotStuffCore

variable [DecidableEq Hash]

/-! ## Delivery -/

/-- The block is stored and passes `verify`, the block of its certificate was fetched and its
parents are delivered. Then `on_deliver_blk` is called. -/
structure Deliverable (config : Config Hash Sig) (s : HotStuffCore Hash Sig) (blk : Hash)
    (b : Block Hash Sig) : Prop where
  stored : s.storage blk = some b
  verified : b.verify config = some true
  qc_fetched : (s.storage b.qc.obj_hash).isSome
  parents : ∀ p ∈ b.parent_hashes, s.delivered p = true

/-- Delivery, and an `update` or a proposal of the block right after it, read no first element of an
empty list. -/
def NoEmptyRead (config : Config Hash Sig) (s : HotStuffCore Hash Sig) (blk : Hash) : Prop :=
  (s.on_deliver_blk blk).Defined ∧
    ((s.on_deliver_blk blk).andThen (update config blk)).Defined ∧
    ∀ proposer, ((s.on_deliver_blk blk).andThen
      (on_receive_proposal config ⟨proposer, blk⟩)).Defined

theorem on_deliver_blk_undefined {s : HotStuffCore Hash Sig} {blk : Hash} {b : Block Hash Sig}
    (hb : s.storage blk = some b) (hd : b.delivered = false) (hp : b.parent_hashes = []) :
    s.on_deliver_blk blk = .undefined := by
  simp [on_deliver_blk, hb, hd, hp]

theorem Deliverable.no_empty_read {config : Config Hash Sig} {s : HotStuffCore Hash Sig}
    {blk : Hash} {b : Block Hash Sig} (h : Deliverable config s blk b) (ht : Tidy config s)
    (hok : BlocksOk config s) (hshort : s.Short)
    (hp : b.delivered = false → b.parent_hashes ≠ []) : NoEmptyRead config s blk := by
  have hdef := on_deliver_blk_defined h.stored hp
  have hafter : ∀ s1, s.on_deliver_blk blk = .ok s1 →
      Tidy config s1 ∧ BlocksOk config s1 ∧ s1.delivered blk = true := by
    intro s1 hs1
    have hleft := congrArg Outcome.state? hs1
    exact ⟨ht.on_deliver_blk ⟨b, h.stored, .inr ⟨h.parents, h.qc_fetched⟩⟩ s1 hleft,
      call_blocksOk config hok hshort (.on_deliver_blk blk) s1 hleft,
      delivered_of_on_deliver_blk hs1⟩
  refine ⟨hdef, hdef.andThen fun s1 hs1 => ?_, fun proposer => hdef.andThen fun s1 hs1 => ?_⟩
  · obtain ⟨ht1, hok1, hd1⟩ := hafter s1 hs1
    exact ht1.update_defined hok1 hd1
  · obtain ⟨ht1, hok1, -⟩ := hafter s1 hs1
    exact ht1.on_receive_proposal_defined hok1 _

/-- Deliveries are in order, and the chains are shorter than 2^32. -/
def ShortOrderly (s : HotStuffCore Hash Sig) (c : Call Hash Sig) : Prop := s.Short ∧ s.Orderly c

/-- Of the blocks that peers send, those that are delivered without a read of an empty list are
the ones with a parent count other than zero, and the ones that are delivered already. -/
theorem a_received_block_is_delivered_iff_it_names_a_parent {config : Config Hash Sig}
    (hc : config.CollisionFree) (w : Wire Hash Sig) {id : ReplicaID} {s : HotStuffCore Hash Sig}
    (hs : Run config id ShortOrderly s) (hshort : s.Short) {msg : BlockMsg}
    {datas : List (BlockData Hash Sig)} (hmsg : msg.blocks w = some datas) :
    ∀ data ∈ datas, ∃ bytes rest, BlockData.unserialize w bytes = some (data, rest) ∧
      ∀ b, Deliverable config s (config.get_hash data) b →
        (NoEmptyRead config s (config.get_hash data) ↔
          (∃ x ∈ bytes.take 4, x ≠ 0) ∨ s.delivered (config.get_hash data) = true) := by
  intro data hdata
  obtain ⟨bytes, rest, hbytes⟩ := BlockMsg.mem_blocks hmsg hdata
  refine ⟨bytes, rest, hbytes, fun b hb => ?_⟩
  have ht : Tidy config s := (hs.mono fun _ _ h => h.2).tidy hc
  have hok : BlocksOk config s := (Run.blocksOk (fun _ _ h => h.1) hs).1
  have hcount : (∃ x ∈ bytes.take 4, x ≠ 0) ↔ data.parent_hashes ≠ [] := by
    rw [Ne, BlockData.unserialize_no_parents hbytes]
    simp
  -- what is stored under the hash names the same parents
  have hph : b.delivered = false → b.parent_hashes = data.parent_hashes := fun hd =>
    (hc.content _ _ (ht.links.law _ b (ht.links.ne_b0 hb.stored hd) hb.stored).hash).1
  rw [delivered_eq hb.stored, hcount]
  constructor
  · intro hdef
    cases hd : b.delivered with
    | true => exact .inr rfl
    | false =>
      refine .inl fun hnil => ?_
      have hdef := hdef.1
      rw [on_deliver_blk_undefined hb.stored hd ((hph hd).trans hnil)] at hdef
      exact hdef
  · intro hor
    refine hb.no_empty_read ht hok hshort fun hd => ?_
    rw [hph hd]
    exact hor.resolve_right (by simp [hd])

/-! ## Blocks on genesis -/

/-- Hashes of 32 bytes, and certificates without signatures. -/
def coded_wire : Wire ℕ (ReplicaID × ℕ) where
  hash := read_uint 32
  parse_quorum_cert := do
    let obj_hash ← read_uint 32
    pure (.create_quorum_cert (coded_replicas false) obj_hash)

/-- A proposal of replica 1: a block with one command and a certificate on genesis, and genesis
as its parent `n` times. -/
def genesis_child_msg (n : UInt8) : BlockMsg :=
  .propose ([1, 0] ++ [n, 0, 0, 0] ++ List.replicate (32 * n.toNat) 0 ++
    [1, 0, 0, 0] ++ (5 :: List.replicate 31 0) ++ List.replicate 32 0 ++ [0, 0, 0, 0])

def genesis_child (n : ℕ) : BlockData ℕ (ReplicaID × ℕ) :=
  { parent_hashes := List.replicate n 0
    cmds := [5]
    qc := .create_quorum_cert (coded_replicas false) 0
    extra := [] }

/-- A replica that got the block right after its start. -/
def with_genesis_child (n : ℕ) : HotStuffCore ℕ (ReplicaID × ℕ) :=
  (on_init (coded_replicas false) 0).put (block_code (genesis_child n))
    (.unserialize (genesis_child n))

theorem genesis_child_code_ne (n : ℕ) : block_code (genesis_child n) ≠ 0 := by
  intro heq
  have hzero : Encodable.encode (([] : List ℕ), 0, ([] : List ℕ)) = 0 := by
    rw [Encodable.encode_prod_val, Encodable.encode_prod_val, Encodable.encode_list_nil]
    rfl
  have heq := Encodable.encode_injective (α := List ℕ × ℕ × List ℕ) (heq.trans hzero.symm)
  simp [genesis_child] at heq

theorem call_add_genesis_child (n : ℕ) :
    (on_init (coded_replicas false) 0).call (coded_replicas false) (.add_blk (genesis_child n)) =
      .ok (with_genesis_child n) := by
  have hne : block_code (genesis_child n) ≠ (coded_replicas false).b0 := genesis_child_code_ne n
  have hb : (on_init (coded_replicas false) 0).storage (block_code (genesis_child n)) = none := by
    simp [on_init, hne]
  exact call_add_blk_of_none hb

theorem with_genesis_child_run (n : ℕ) :
    Run (coded_replicas false) 0 ShortOrderly (with_genesis_child n) :=
  Run.init.step (c := .add_blk (genesis_child n)) ⟨on_init_short (coded_replicas false) 0, trivial⟩
    (congrArg Outcome.state? (call_add_genesis_child n))

theorem with_genesis_child_short (n : ℕ) : (with_genesis_child n).Short :=
  ((low_init (coded_replicas false) 0).call (by decide) (.add_blk (genesis_child n))
    (congrArg Outcome.state? (call_add_genesis_child n))).short (by decide)

theorem with_genesis_child_deliverable (n : ℕ) :
    Deliverable (coded_replicas false) (with_genesis_child n) (block_code (genesis_child n))
      (.unserialize (genesis_child n)) := by
  have hgen : (with_genesis_child n).storage 0 = some (genesis (coded_replicas false)) := by
    rw [with_genesis_child, storage_put_of_ne _ _ (genesis_child_code_ne n).symm]
    rfl
  refine ⟨storage_put_self _ _ _, rfl, ?_, fun p hp => ?_⟩
  · have hobj : (Block.unserialize (genesis_child n)).qc.obj_hash = 0 := rfl
    rw [hobj, hgen]
    rfl
  · rw [List.eq_of_mem_replicate hp, delivered_eq hgen]
    rfl

/-- A block without parents, with a certificate on genesis, is parsed, passes `verify`, and its
delivery reads `parents[0]`. -/
theorem a_block_without_parents_is_not_handled :
    ∃ s datas, Run (coded_replicas false) 0 ShortOrderly s ∧
      (genesis_child_msg 0).blocks coded_wire = some datas ∧ ∃ data ∈ datas, ∃ b,
        Deliverable (coded_replicas false) s ((coded_replicas false).get_hash data) b ∧
        s.on_deliver_blk ((coded_replicas false).get_hash data) = .undefined := by
  have hb := with_genesis_child_deliverable 0
  exact ⟨with_genesis_child 0, [genesis_child 0], with_genesis_child_run 0, rfl, genesis_child 0,
    List.mem_singleton.mpr rfl, _, hb, on_deliver_blk_undefined hb.stored rfl rfl⟩

theorem a_child_of_genesis_is_handled :
    NoEmptyRead (coded_replicas false) (with_genesis_child 1) (block_code (genesis_child 1)) := by
  have hmsg : (genesis_child_msg 1).blocks coded_wire = some [genesis_child 1] := rfl
  obtain ⟨bytes, rest, hbytes, h⟩ := a_received_block_is_delivered_iff_it_names_a_parent
    (coded_collisionFree false) coded_wire (with_genesis_child_run 1) (with_genesis_child_short 1)
    hmsg (genesis_child 1) (List.mem_singleton.mpr rfl)
  refine (h _ (with_genesis_child_deliverable 1)).mpr (.inl ?_)
  have hcount : ¬ ∀ x ∈ bytes.take 4, x = 0 :=
    fun hall => by cases (BlockData.unserialize_no_parents hbytes).mpr hall
  simpa using hcount

end HotStuffCore

end general_hotstuff
