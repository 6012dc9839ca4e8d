-- The messages of a replica that parses what it is sent: the certificates that it keeps
-- have a signature for each of their bits, so everything that it sends can be written, and
-- the other side reads it back.
import GeneralHotStuff.RoundTrips

namespace general_hotstuff

open data_stream
open quorums (ReplicaID)

variable {Hash Sig : Type}

/-! ## Certificates that can be written -/

namespace QuorumCert

/-- Each bit has a signature. -/
def Writable (qc : QuorumCert Hash Sig) : Prop :=
  ∀ i ∈ set_bits qc.rids, (qc.sigs.lookup (rid_of_bit i)).isSome

theorem Writable.serialize {qc : QuorumCert Hash Sig} (h : qc.Writable)
    (fmt : Format Hash Sig) : ∃ bytes, qc.serialize fmt = some bytes := by
  unfold QuorumCert.serialize
  split
  · obtain ⟨sigs, hsigs⟩ := mapM_isSome h
    exact ⟨_, congrArg (Option.map _) hsigs⟩
  · exact ⟨_, rfl⟩

theorem writable_of_no_bit {qc : QuorumCert Hash Sig} (h : ∀ bit ∈ qc.rids, bit = false) :
    qc.Writable := by
  intro i hi
  have hmem := List.mem_of_getElem? (mem_set_bits.mp hi)
  cases h true hmem

theorem create_writable (config : Config Hash Sig) (blk_hash : Hash) :
    (create_quorum_cert config blk_hash).Writable := by
  apply writable_of_no_bit
  intro bit hbit
  exact List.eq_of_mem_replicate hbit

theorem isSome_lookup {sigs : List (ReplicaID × Sig)} {rid : ReplicaID} :
    (sigs.lookup rid).isSome ↔ rid ∈ sigs.map Prod.fst := by
  rw [List.lookup_isSome_iff]
  simp

theorem Writable.add_part [DecidableEq Hash] {qc qc' : QuorumCert Hash Sig} (h : qc.Writable)
    {rid : ReplicaID} (hrid : rid < 2 ^ 16) {pc : PartCert Hash Sig}
    (ha : qc.add_part rid pc = some qc') : qc'.Writable := by
  unfold QuorumCert.add_part at ha
  split at ha
  · cases ha
  · rw [Option.some.injEq] at ha
    subst ha
    intro i hi
    have hkey : ∀ r, r ∈ qc.sigs.map Prod.fst ∨ r = rid →
        r ∈ (if rid ∈ qc.signers then qc.sigs else qc.sigs ++ [(rid, pc.sig)]).map Prod.fst := by
      intro r hr
      split
      · rename_i hold
        rcases hr with hr | rfl
        · exact hr
        · exact List.mem_toFinset.mp hold
      · simpa using hr
    rw [isSome_lookup]
    apply hkey
    by_cases heq : rid = i
    · subst heq
      exact .inr (Nat.mod_eq_of_lt hrid)
    · rw [mem_set_bits, List.getElem?_set_ne heq] at hi
      exact .inl (isSome_lookup.mp (h i (mem_set_bits.mpr hi)))

theorem Writable.compute {qc : QuorumCert Hash Sig} (h : qc.Writable)
    (config : Config Hash Sig) : (qc.compute config).Writable := by
  unfold QuorumCert.compute
  split
  · exact h
  · apply writable_of_no_bit
    intro bit hbit
    obtain ⟨-, -, rfl⟩ := List.mem_map.mp hbit
    rfl

/-- A certificate that was read has a signature for each of its bits. -/
theorem writable_of_read {fmt : Format Hash Sig} {qc : QuorumCert Hash Sig}
    {bytes rest : List UInt8} (h : unserialize fmt bytes = some (qc, rest)) : qc.Writable := by
  unfold unserialize at h
  cases hs : fmt.sig.scheme with
  | secp256k1 =>
    simp only [hs] at h
    obtain ⟨obj_hash, s1, -, h⟩ := bind_eq_some.mp h
    obtain ⟨rids, s2, -, h⟩ := bind_eq_some.mp h
    obtain ⟨sigs, s3, hsigs, h⟩ := bind_eq_some.mp h
    obtain ⟨rfl, -⟩ := pure_eq_some.mp h
    intro i hi
    rw [isSome_lookup, (assigned_all _).keys]
    obtain ⟨sig, hlisted⟩ := exists_mem_zip (read_many_length hsigs).symm hi
    exact ⟨(i, sig), hlisted, rfl⟩
  | bls =>
    simp only [hs] at h
    obtain ⟨obj_hash, s1, -, h⟩ := bind_eq_some.mp h
    obtain ⟨threshSigExists, s2, -, h⟩ := bind_eq_some.mp h
    obtain ⟨threshSig, s3, -, h⟩ := bind_eq_some.mp h
    obtain ⟨rfl, -⟩ := pure_eq_some.mp h
    apply writable_of_no_bit
    intro bit hbit
    cases hbit

end QuorumCert

theorem BlockData.writable_of_read {fmt : Format Hash Sig} {data : BlockData Hash Sig}
    {bytes rest : List UInt8} (h : unserialize fmt.wire bytes = some (data, rest)) :
    data.qc.Writable := by
  unfold unserialize at h
  obtain ⟨_, _, -, h⟩ := bind_eq_some.mp h
  obtain ⟨_, _, -, h⟩ := bind_eq_some.mp h
  obtain ⟨_, _, -, h⟩ := bind_eq_some.mp h
  obtain ⟨_, _, -, h⟩ := bind_eq_some.mp h
  obtain ⟨qc, _, hqc, h⟩ := bind_eq_some.mp h
  obtain ⟨_, _, -, h⟩ := bind_eq_some.mp h
  obtain ⟨_, _, -, h⟩ := bind_eq_some.mp h
  rw [← (pure_eq_some.mp h).1]
  exact QuorumCert.writable_of_read hqc

theorem BlockData.serialize_of_writable {data : BlockData Hash Sig} (h : data.qc.Writable)
    (fmt : Format Hash Sig) : ∃ bytes, data.serialize fmt = some bytes := by
  obtain ⟨qc, hqc⟩ := h.serialize fmt
  exact ⟨_, congrArg (Option.map _) hqc⟩

namespace HotStuffCore

/-! ## The certificates of a replica -/

/-- All certificates that the replica keeps can be written. -/
structure Writable (s : HotStuffCore Hash Sig) : Prop where
  hqc : s.hqc.2.Writable
  qc : ∀ h b, s.storage h = some b → b.qc.Writable
  self_qc : ∀ h b qc, s.storage h = some b → b.self_qc = some qc → qc.Writable

/-- Blocks are parsed, and a voter's number has 16 bits. -/
def Typed (fmt : Format Hash Sig) (_ : HotStuffCore Hash Sig) : Call Hash Sig → Prop
  | .add_blk data => ∃ bytes rest, BlockData.unserialize fmt.wire bytes = some (data, rest)
  | .on_receive_vote vote => vote.voter < 2 ^ 16
  | _ => True

variable [DecidableEq Hash] {config : Config Hash Sig} {s s' : HotStuffCore Hash Sig}

omit [DecidableEq Hash] in
theorem Writable.frame (h : s.Writable) (hg : Grows s s') (hhqc : s'.hqc.2.Writable)
    (hv : SameVotes s s') : s'.Writable where
  hqc := hhqc
  qc x b' hb' := by
    obtain ⟨b, hb, -⟩ := hv.block hb'
    obtain ⟨b'', hb'', hdata, -⟩ := hg x b hb
    rw [hb', Option.some.injEq] at hb''
    subst hb''
    have hqc : b'.qc = b.qc := congrArg (·.qc) hdata
    rw [hqc]
    exact h.qc x b hb
  self_qc x b' qc hb' hqc := by
    obtain ⟨b, hb, heq, -⟩ := hv.block hb'
    exact h.self_qc x b qc hb (heq ▸ hqc)

theorem Writable.put (h : s.Writable) {x : Hash} {b : Block Hash Sig} (hb : b.qc.Writable)
    (hself : ∀ qc, b.self_qc = some qc → qc.Writable) : (s.put x b).Writable where
  hqc := h.hqc
  qc y c hc := by
    by_cases hy : y = x
    · rw [hy, storage_put_self, Option.some.injEq] at hc
      exact hc ▸ hb
    · rw [storage_put_of_ne s b hy] at hc
      exact h.qc y c hc
  self_qc y c qc hc hqc := by
    by_cases hy : y = x
    · rw [hy, storage_put_self, Option.some.injEq] at hc
      subst hc
      exact hself qc hqc
    · rw [storage_put_of_ne s b hy] at hc
      exact h.self_qc y c qc hc hqc

theorem Writable.update (h : s.Writable) (config : Config Hash Sig) (nblk : Hash) :
    (s.update config nblk).Leaves Writable := by
  intro s' hs'
  cases hb : s.storage nblk with
  | none => simp [HotStuffCore.update, hb, Outcome.state?] at hs'
  | some b =>
    have hup := update_leaves config hb s' hs'
    refine h.frame hup.shape.grows ?_ (update_sameVotes config s nblk s' hs')
    obtain ⟨exec, storage, out, hframe⟩ := hup.frame
    have hhqc : s'.hqc = (s.touched config nblk b).hqc := congrArg (·.hqc) hframe
    rw [hhqc]
    rcases s.touched_hqc config nblk b with heq | ⟨q, -, heq, -⟩
    · rw [heq]
      exact h.hqc
    · rw [heq]
      exact h.qc nblk b hb

theorem kept_writable (config : Config Hash Sig) :
    Kept config fun s : HotStuffCore Hash Sig => s.Writable where
  update s nblk h _ := h.update config nblk
  vote_on s prop h := by
    rcases vote_on_cases config prop s with ⟨-, hv⟩ | hv | ⟨-, hv⟩
    · exact hv ▸ Outcome.leaves_undefined
    · exact hv ▸ Outcome.leaves_ok.mpr h
    · exact hv ▸ Outcome.leaves_ok.mpr ⟨h.hqc, h.qc, h.self_qc⟩
  broadcast s prop h := ⟨h.hqc, h.qc, h.self_qc⟩

theorem Writable.on_deliver_blk (h : s.Writable) (blk : Hash) :
    (s.on_deliver_blk blk).Leaves Writable := by
  intro s' hs'
  obtain ⟨hhqc, hv⟩ := on_deliver_blk_sameVotes s blk s' hs'
  exact h.frame (on_deliver_blk_grows s blk s' hs') (hhqc ▸ h.hqc) hv

theorem Writable.store_proposed (h : s.Writable) (config : Config Hash Sig) (cmds : List Hash)
    (p : Hash) (ps : List Hash) (extra : List UInt8) :
    (s.store_proposed config cmds p ps extra).Writable := by
  have hself : ∀ (x : Hash) (b : Block Hash Sig) qc,
      (with_empty_qc config x b).self_qc = some qc → qc.Writable := by
    intro x b qc hqc
    rw [← Option.some.inj hqc]
    exact QuorumCert.create_writable config x
  cases hb : s.storage (config.get_hash (s.proposed cmds (p :: ps) extra)) with
  | none =>
    have hput := h.put (x := config.get_hash (s.proposed cmds (p :: ps) extra))
      (b := with_empty_qc config (config.get_hash (s.proposed cmds (p :: ps) extra))
        (s.new_block cmds p ps extra)) h.hqc (hself _ _)
    rw [store_proposed_of_none hb]
    exact ⟨hput.hqc, hput.qc, hput.self_qc⟩
  | some b =>
    have hput := h.put (x := config.get_hash (s.proposed cmds (p :: ps) extra))
      (b := with_empty_qc config (config.get_hash (s.proposed cmds (p :: ps) extra)) b)
      (h.qc _ b hb) (hself _ _)
    rw [store_proposed_of_some hb]
    exact ⟨hput.hqc, hput.qc, hput.self_qc⟩

theorem Writable.on_receive_vote (h : s.Writable) (config : Config Hash Sig)
    {vote : Vote Hash Sig} (hvoter : vote.voter < 2 ^ 16) :
    (s.on_receive_vote config vote).Leaves Writable := by
  rcases on_receive_vote_cases config vote s with ho | ho | ⟨b, hb, -, -, -, ho⟩
  · exact ho ▸ Outcome.leaves_throw.mpr h
  · exact ho ▸ Outcome.leaves_ok.mpr h
  have hstart : (b.self_qc.getD (.create_quorum_cert config vote.blk_hash)).Writable := by
    cases hqc : b.self_qc with
    | none => exact QuorumCert.create_writable config vote.blk_hash
    | some qc => exact h.self_qc _ b qc hb hqc
  have hput : ∀ voted qc, qc.Writable →
      (s.put vote.blk_hash { b with voted := voted, self_qc := some qc }).Writable := by
    intro voted qc hqc
    apply h.put
    · exact h.qc _ b hb
    · intro qc' hqc'
      rw [← Option.some.inj hqc']
      exact hqc
  generalize s.on_receive_vote config vote = o at ho ⊢
  cases ho with
  | mismatch => exact Outcome.leaves_throw.mpr (hput _ _ hstart)
  | collected qc ha => exact Outcome.leaves_ok.mpr (hput _ _ (hstart.add_part hvoter ha))
  | computed qc ha =>
    have hqc := (hstart.add_part hvoter ha).compute config
    rw [Outcome.leaves_ok]
    refine ⟨?_, (hput _ _ hqc).qc, (hput _ _ hqc).self_qc⟩
    dsimp only [update_hqc]
    split
    · exact hqc
    · exact h.hqc

theorem Writable.call (h : s.Writable) {fmt : Format Hash Sig} {c : Call Hash Sig}
    (hc : Typed fmt s c) : (s.call config c).Leaves Writable := by
  have hk := kept_writable config
  cases c with
  | add_blk data =>
    obtain ⟨bytes, rest, hdata⟩ := hc
    cases hb : s.storage (config.get_hash data) with
    | none =>
      rw [call_add_blk_of_none hb, Outcome.leaves_ok]
      apply h.put (BlockData.writable_of_read hdata)
      intro qc hqc
      cases hqc
    | some b =>
      rw [call_add_blk_of_isSome (by simp [hb]), Outcome.leaves_ok]
      exact h
  | on_deliver_blk blk => exact h.on_deliver_blk blk
  | on_propose cmds parents extra =>
    apply hk.on_propose h
    intro p ps _
    exact (h.store_proposed config cmds p ps extra).on_deliver_blk _
  | on_receive_proposal prop => exact hk.on_receive_proposal h prop
  | on_receive_vote vote => exact h.on_receive_vote config hc
  | set_vote_disabled f => exact Outcome.leaves_ok.mpr ⟨h.hqc, h.qc, h.self_qc⟩

theorem on_init_writable (config : Config Hash Sig) (id : ReplicaID) :
    (on_init config id).Writable := by
  have hblock : ∀ h b, (on_init config id).storage h = some b → b = genesis config := by
    intro h b hb
    by_cases hh : h = config.b0
    · simpa [on_init, hh, eq_comm] using hb
    · simp [on_init, hh] at hb
  have hcreate := QuorumCert.create_writable config config.b0
  refine ⟨hcreate, ?_, ?_⟩
  · intro h b hb
    rw [hblock h b hb]
    exact hcreate
  · intro h b qc hb hqc
    rw [hblock h b hb] at hqc
    exact Option.some.inj hqc ▸ hcreate

theorem Run.writable {fmt : Format Hash Sig} {id : ReplicaID} (h : Run config id (Typed fmt) s) :
    s.Writable := by
  induction h with
  | init => exact on_init_writable config id
  | step _ hc hs ih => exact ih.call hc _ hs

/-! ## What a replica sends -/

/-- A proposal is of a stored block, and it and votes carry the replica's own number. -/
def Backed (s : HotStuffCore Hash Sig) : Output Hash Sig → Prop
  | .do_broadcast_proposal prop => prop.proposer = s.id ∧ (s.storage prop.blk).isSome
  | .do_vote _ vote => vote.voter = s.id
  | _ => True

/-- All that the replica has passed on. -/
def Outbox (s : HotStuffCore Hash Sig) : Prop := ∀ o ∈ s.out, s.Backed o

omit [DecidableEq Hash] in
theorem Backed.mono {o : Output Hash Sig} (h : s.Backed o) (hg : Grows s s')
    (hid : s'.id = s.id) : s'.Backed o := by
  cases o with
  | do_broadcast_proposal prop => exact ⟨h.1.trans hid.symm, hg.isSome h.2⟩
  | do_vote p vote => exact Eq.trans h hid.symm
  | do_consensus => trivial
  | do_decide => trivial
  | certificate => trivial

omit [DecidableEq Hash] in
theorem Outbox.grow (h : s.Outbox) (hg : Grows s s') (hid : s'.id = s.id)
    {more : List (Output Hash Sig)} (hout : s'.out = s.out ++ more)
    (hmore : ∀ o ∈ more, s'.Backed o) : s'.Outbox := by
  unfold Outbox at h ⊢
  intro o ho
  rw [hout, List.mem_append] at ho
  rcases ho with ho | ho
  · exact (h o ho).mono hg hid
  · exact hmore o ho

omit [DecidableEq Hash] in
theorem Outbox.of_out_eq (h : s.Outbox) (hg : Grows s s') (hid : s'.id = s.id)
    (hout : s'.out = s.out) : s'.Outbox := by
  apply h.grow hg hid (hout.trans (List.append_nil _).symm)
  simp

omit [DecidableEq Hash] in
theorem backed_of_isCommit {o : Output Hash Sig} (h : o.isCommit = true) : s.Backed o := by
  cases o with
  | do_consensus => trivial
  | do_decide => trivial
  | do_vote => cases h
  | do_broadcast_proposal => cases h
  | certificate => trivial

theorem Outbox.commit (h : s.Outbox) (blk : Hash) : (s.commit blk).Leaves Outbox := by
  rcases commit_cases s blk with ⟨-, hc⟩ | hc | ⟨passed, -, hc⟩
  · exact hc ▸ Outcome.leaves_undefined
  · exact hc ▸ Outcome.leaves_throw.mpr h
  · have hsh := commit_all_sameShape s passed.reverse
    obtain ⟨storage, out, hframe⟩ := commit_all_frame s passed.reverse
    rw [hc, Outcome.leaves_ok]
    apply h.grow (hsh.trans (.of_storage_eq rfl)).grows (congrArg (·.id) hframe)
      (commit_all_out s passed.reverse)
    intro o ho
    rw [← filter_commit_outputs] at ho
    exact backed_of_isCommit (List.mem_filter.mp ho).2

theorem Outbox.update (h : s.Outbox) (config : Config Hash Sig) (nblk : Hash) :
    (s.update config nblk).Leaves Outbox := by
  cases hb : s.storage nblk with
  | none => simp [HotStuffCore.update, hb]
  | some b =>
    have ht : (s.touched config nblk b).Outbox := h.of_out_eq (Grows.refl s) rfl rfl
    rcases update_cases config hb with hu | ⟨-, hu⟩ | ⟨blk1, blk, -, hu⟩
    · exact hu ▸ Outcome.leaves_ok.mpr ht
    · exact hu ▸ Outcome.leaves_undefined
    · exact hu ▸ ht.commit blk

theorem Outbox.vote_on (h : s.Outbox) (config : Config Hash Sig) (prop : Proposal Hash) :
    (s.vote_on config prop).Leaves Outbox := by
  rcases vote_on_cases config prop s with ⟨-, hv⟩ | hv | ⟨-, hv⟩
  · exact hv ▸ Outcome.leaves_undefined
  · exact hv ▸ Outcome.leaves_ok.mpr h
  · rw [hv, Outcome.leaves_ok]
    have hgrows : Grows s (s.voted_for config prop) := (SameShape.of_storage_eq rfl).grows
    apply h.grow hgrows rfl rfl
    intro o ho
    split at ho
    · cases ho
    · rw [List.mem_singleton.mp ho]
      rfl

theorem Outbox.on_receive_proposal (h : s.Outbox) (config : Config Hash Sig)
    (prop : Proposal Hash) : (s.on_receive_proposal config prop).Leaves Outbox := by
  unfold HotStuffCore.on_receive_proposal
  split
  · exact h.vote_on config prop
  · split
    · exact (h.update config prop.blk).andThen fun s1 _ h1 => h1.vote_on config prop
    · exact Outcome.leaves_throw.mpr h

theorem on_deliver_blk_out (s : HotStuffCore Hash Sig) (blk : Hash) :
    (s.on_deliver_blk blk).Leaves fun s' => s'.id = s.id ∧ s'.out = s.out := by
  cases hb : s.storage blk with
  | none => simp [HotStuffCore.on_deliver_blk, hb]
  | some b =>
    cases hd : b.delivered with
    | true =>
      rw [on_deliver_blk_of_delivered hb hd, Outcome.leaves_ok]
      exact ⟨rfl, rfl⟩
    | false =>
      refine (on_deliver_blk_leaves hb hd).mono ?_
      rintro s' ⟨b', t, -, rfl, -⟩
      exact ⟨rfl, rfl⟩

theorem store_proposed_isSome (config : Config Hash Sig) (s : HotStuffCore Hash Sig)
    (cmds : List Hash) (p : Hash) (ps : List Hash) (extra : List UInt8) :
    ((s.store_proposed config cmds p ps extra).storage
      (config.get_hash (s.proposed cmds (p :: ps) extra))).isSome := by
  cases hb : s.storage (config.get_hash (s.proposed cmds (p :: ps) extra)) with
  | none => simp [store_proposed_of_none hb, HotStuffCore.put]
  | some b => simp [store_proposed_of_some hb, HotStuffCore.put]

theorem kept_id (config : Config Hash Sig) (id : ReplicaID) :
    Kept config fun s : HotStuffCore Hash Sig => s.id = id where
  update s nblk h hd := by
    obtain ⟨b, hb, -⟩ := exists_of_delivered hd
    intro s' hs'
    obtain ⟨exec, storage, out, hframe⟩ := (update_leaves config hb s' hs').frame
    exact Eq.trans (congrArg (·.id) hframe) h
  vote_on s prop h := by
    rcases vote_on_cases config prop s with ⟨-, hv⟩ | hv | ⟨-, hv⟩
    · exact hv ▸ Outcome.leaves_undefined
    · exact hv ▸ Outcome.leaves_ok.mpr h
    · exact hv ▸ Outcome.leaves_ok.mpr h
  broadcast s prop h := h

theorem kept_stored (config : Config Hash Sig) (x : Hash) :
    Kept config fun s : HotStuffCore Hash Sig => (s.storage x).isSome := by
  apply kept_of_sameShape
  intro s s' hsh h
  exact hsh.grows.isSome h

/-- The block of a proposal is delivered before it is sent. -/
theorem Outbox.on_propose (h : s.Outbox) (config : Config Hash Sig) (cmds parents : List Hash)
    (extra : List UInt8) : (s.on_propose config cmds parents extra).Leaves Outbox := by
  unfold HotStuffCore.on_propose
  cases parents with
  | nil => exact Outcome.leaves_throw.mpr h
  | cons p ps =>
    dsimp only
    have hkid := kept_id config s.id
    have hk := kept_stored config (config.get_hash (s.proposed cmds (p :: ps) extra))
    have hstored := store_proposed_isSome config s cmds p ps extra
    have h0 : (s.store_proposed config cmds p ps extra).Outbox :=
      h.of_out_eq (store_proposed_grows config s cmds p ps extra) rfl rfl
    generalize hs0 : s.store_proposed config cmds p ps extra = s0 at hstored h0 ⊢
    have hid : s0.id = s.id := hs0 ▸ rfl
    generalize config.get_hash (s.proposed cmds (p :: ps) extra) = bnew at hk hstored ⊢
    have hdeliver : (s0.on_deliver_blk bnew).Leaves fun t =>
        t.Outbox ∧ t.id = s.id ∧ (t.storage bnew).isSome := by
      intro t ht
      have hg := on_deliver_blk_grows s0 bnew t ht
      obtain ⟨htid, hout⟩ := on_deliver_blk_out s0 bnew t ht
      exact ⟨h0.of_out_eq hg htid hout, htid.trans hid, hg.isSome hstored⟩
    refine Outcome.Leaves.mono (hdeliver.andThen ?_) fun t ht => ht.1
    intro s1 ho h1
    have hupdate : (s1.update config bnew).Leaves fun t =>
        t.Outbox ∧ t.id = s.id ∧ (t.storage bnew).isSome := by
      intro t ht
      have hd := delivered_of_on_deliver_blk ho
      exact ⟨h1.1.update config bnew t ht, hkid.update s1 bnew h1.2.1 hd t ht,
        hk.update s1 bnew h1.2.2 hd t ht⟩
    apply hupdate.andThen
    intro s2 _ h2
    split
    · exact Outcome.leaves_throw.mpr h2
    · have hprop : (s2.on_receive_proposal config ⟨s.id, bnew⟩).Leaves fun t =>
          t.Outbox ∧ t.id = s.id ∧ (t.storage bnew).isSome := by
        intro t ht
        exact ⟨h2.1.on_receive_proposal config _ t ht, hkid.on_receive_proposal h2.2.1 _ t ht,
          hk.on_receive_proposal h2.2.2 _ t ht⟩
      apply hprop.andThen
      intro s3 _ h3
      rw [Outcome.leaves_ok]
      have hgrows : Grows s3 { s3 with out := s3.out ++ [.do_broadcast_proposal ⟨s.id, bnew⟩] } :=
        (SameShape.of_storage_eq rfl).grows
      refine ⟨h3.1.grow hgrows rfl rfl ?_, h3.2⟩
      intro o ho
      rw [List.mem_singleton.mp ho]
      exact ⟨h3.2.1.symm, h3.2.2⟩

theorem Outbox.on_receive_vote (h : s.Outbox) (config : Config Hash Sig) (vote : Vote Hash Sig) :
    (s.on_receive_vote config vote).Leaves Outbox := by
  intro s' hs'
  have hg := (on_receive_vote_sameShape config s vote s' hs').grows
  rcases on_receive_vote_cases config vote s with ho | ho | ⟨b, hb, -, -, -, ho⟩
  · rw [ho] at hs'
    exact Option.some.inj hs' ▸ h
  · rw [ho] at hs'
    exact Option.some.inj hs' ▸ h
  · generalize s.on_receive_vote config vote = o at ho hs'
    cases ho with
    | mismatch =>
      obtain rfl := Option.some.inj hs'
      exact h.of_out_eq hg rfl rfl
    | collected =>
      obtain rfl := Option.some.inj hs'
      exact h.of_out_eq hg rfl rfl
    | computed =>
      obtain rfl := Option.some.inj hs'
      apply h.grow hg rfl rfl
      intro o ho
      rw [List.mem_singleton.mp ho]
      trivial

theorem Outbox.call (h : s.Outbox) (config : Config Hash Sig) (c : Call Hash Sig) :
    (s.call config c).Leaves Outbox := by
  cases c with
  | add_blk data =>
    intro s' hs'
    have hg := call_grows config s (.add_blk data) s' hs'
    obtain rfl := Option.some.inj hs'
    exact h.of_out_eq hg rfl rfl
  | on_deliver_blk blk =>
    intro s' hs'
    obtain ⟨hid, hout⟩ := on_deliver_blk_out s blk s' hs'
    exact h.of_out_eq (on_deliver_blk_grows s blk s' hs') hid hout
  | on_propose cmds parents extra => exact h.on_propose config cmds parents extra
  | on_receive_proposal prop => exact h.on_receive_proposal config prop
  | on_receive_vote vote => exact h.on_receive_vote config vote
  | set_vote_disabled f => exact Outcome.leaves_ok.mpr h

theorem Run.outbox {id : ReplicaID} {ok : HotStuffCore Hash Sig → Call Hash Sig → Prop}
    (h : Run config id ok s) : s.Outbox := by
  induction h with
  | init =>
    intro o ho
    cases ho
  | step _ _ hs ih => exact ih.call config _ _ hs

/-! ## What was sent is read back -/

/-- The messages that the replica has sent or can be asked for, with the hashes of the blocks in
them. A block is sent by its wire fields, and genesis is not sent. -/
inductive Sent (config : Config Hash Sig) (s : HotStuffCore Hash Sig) :
    Msg Hash Sig → List Hash → Prop where
  | propose {prop : Proposal Hash} {b : Block Hash Sig}
      (ho : .do_broadcast_proposal prop ∈ s.out) (hb : s.storage prop.blk = some b)
      (hne : prop.blk ≠ config.b0) :
      Sent config s (.propose prop.proposer b.toBlockData) [prop.blk]
  | vote {last_proposer : ReplicaID} {vote : Vote Hash Sig}
      (ho : .do_vote last_proposer vote ∈ s.out) : Sent config s (.vote vote) []
  | req_block (blk_hashes : List Hash) : Sent config s (.req_block blk_hashes) []
  | resp_block {hashes : List Hash} {blks : List (Block Hash Sig)}
      (hblks : List.Forall₂ (fun x b => x ≠ config.b0 ∧ s.storage x = some b) hashes blks) :
      Sent config s (.resp_block (blks.map (·.toBlockData))) hashes

end HotStuffCore

/-- The build uses these formats, and the hash of a block is the digest of its serialization. -/
structure Format.Serves (fmt : Format Hash Sig) (config : Config Hash Sig)
    (digest : List UInt8 → Hash) : Prop where
  scheme : config.scheme = fmt.sig.scheme
  hash : ∀ data bytes, data.serialize fmt = some bytes → config.get_hash data = digest bytes

/-- Fields that agree make the same hash. -/
theorem Format.Serves.get_hash_eq {fmt : Format Hash Sig} {config : Config Hash Sig}
    {digest : List UInt8 → Hash} (h : fmt.Serves config digest) {data data' : BlockData Hash Sig}
    (hw : data.qc.Writable) (hsame : data.SameWire fmt.sig.scheme data') :
    config.get_hash data' = config.get_hash data := by
  obtain ⟨bytes, hbytes⟩ := data.serialize_of_writable hw fmt
  rw [h.hash data bytes hbytes, h.hash data' bytes (hsame.serialize_eq ▸ hbytes)]

namespace HotStuffCore

variable [DecidableEq Hash] {config : Config Hash Sig} {s : HotStuffCore Hash Sig}
  {fmt : Format Hash Sig}

omit [DecidableEq Hash] in
theorem Sent.numbered {id : ReplicaID} (hid : s.id = id) (hlt : id < 2 ^ 16) (hs : s.Outbox)
    {msg : Msg Hash Sig} {hashes : List Hash} (h : Sent config s msg hashes) : msg.Numbered := by
  cases h with
  | propose ho hb hne =>
    have hprop : _ = s.id := (hs _ ho).1
    exact lt_of_eq_of_lt (hprop.trans hid) hlt
  | vote ho =>
    have hvoter : _ = s.id := hs _ ho
    exact lt_of_eq_of_lt (hvoter.trans hid) hlt
  | req_block => trivial
  | resp_block => trivial

omit [DecidableEq Hash] in
/-- The blocks of a message are stored under their hashes, with certificates that can be
written. -/
theorem Sent.blocks (hlinks : LinksOk config s) (hw : s.Writable) {msg : Msg Hash Sig}
    {hashes : List Hash} (h : Sent config s msg hashes) :
    List.Forall₂ (fun x data => config.get_hash data = x ∧ data.qc.Writable) hashes
      msg.blocks := by
  have hstored : ∀ x b, x ≠ config.b0 → s.storage x = some b →
      config.get_hash b.toBlockData = x ∧ b.qc.Writable :=
    fun x b hne hb => ⟨(hlinks.law x b hne hb).hash, hw.qc x b hb⟩
  cases h with
  | propose ho hb hne => exact .cons (hstored _ _ hne hb) .nil
  | vote => exact .nil
  | req_block => exact .nil
  | resp_block hblks =>
    unfold Msg.blocks
    rw [List.forall₂_map_right_iff]
    exact hblks.imp fun x b hx => hstored x b hx.1 hx.2

end HotStuffCore

theorem Msg.serialize_of_writable {msg : Msg Hash Sig} (h : ∀ data ∈ msg.blocks, data.qc.Writable)
    (fmt : Format Hash Sig) : ∃ bytes, msg.serialize fmt = some bytes := by
  have hblk : ∀ data ∈ msg.blocks, ∃ bytes, data.serialize fmt = some bytes :=
    fun data hdata => data.serialize_of_writable (h data hdata) fmt
  cases msg with
  | propose proposer blk =>
    obtain ⟨bytes, hbytes⟩ := hblk blk (List.mem_singleton.mpr rfl)
    exact ⟨_, congrArg (Option.map _) hbytes⟩
  | vote v => exact ⟨_, rfl⟩
  | req_block blk_hashes => exact ⟨_, rfl⟩
  | resp_block blks =>
    obtain ⟨pieces, hpieces⟩ := mapM_isSome (f := BlockData.serialize fmt) fun data hdata =>
      Option.isSome_iff_exists.mpr (hblk data hdata)
    exact ⟨_, congrArg (Option.map _) hpieces⟩

namespace HotStuffCore

variable [DecidableEq Hash] {config : Config Hash Sig} {s : HotStuffCore Hash Sig}
  {fmt : Format Hash Sig}

theorem call_id (config : Config Hash Sig) (s : HotStuffCore Hash Sig) (c : Call Hash Sig) :
    (s.call config c).Leaves fun s' => s'.id = s.id := by
  have hk := kept_id config s.id
  cases c with
  | add_blk data => exact Outcome.leaves_ok.mpr rfl
  | on_deliver_blk blk => exact (on_deliver_blk_out s blk).mono fun _ h => h.1
  | on_propose cmds parents extra =>
    apply hk.on_propose rfl
    intro p ps _
    exact (on_deliver_blk_out _ _).mono fun _ h => h.1
  | on_receive_proposal prop => exact hk.on_receive_proposal rfl prop
  | on_receive_vote vote =>
    exact (on_receive_vote_quiet config s vote).mono fun _ h => h.id
  | set_vote_disabled f => exact Outcome.leaves_ok.mpr rfl

theorem Run.id_eq {id : ReplicaID} {ok : HotStuffCore Hash Sig → Call Hash Sig → Prop}
    (h : Run config id ok s) : s.id = id := by
  induction h with
  | init => rfl
  | step _ _ hs ih => exact (call_id config _ _ _ hs).trans ih

omit [DecidableEq Hash] in
/-- Blocks with the wire fields of those that were sent have their hashes. -/
theorem hashes_of_blocks {digest : List UInt8 → Hash} (hfmt : fmt.Serves config digest)
    {hashes : List Hash} {blks blks' : List (BlockData Hash Sig)}
    (h : List.Forall₂ (fun x data => config.get_hash data = x ∧ data.qc.Writable) hashes blks)
    (hsame : List.Forall₂ (BlockData.SameWire fmt.sig.scheme) blks blks') :
    blks'.map config.get_hash = hashes := by
  induction h generalizing blks' with
  | nil =>
    cases hsame
    rfl
  | cons hdata _ ih =>
    cases hsame with
    | cons hfirst hrest =>
      rw [List.map_cons, hfmt.get_hash_eq hdata.2 hfirst, hdata.1, ih hrest]

/-- Every message that a replica sends can be written. Its parser consumes exactly its bytes and
makes a message with the same wire fields, whose blocks have the hashes of the blocks sent. Blocks
with one serialization have the same wire fields. -/
theorem what_is_sent_is_read_back {digest : List UInt8 → Hash} (hfmt : fmt.Serves config digest)
    {id : ReplicaID} (hid : id < 2 ^ 16) (hs : Run config id (Typed fmt) s) :
    (∀ prop, .do_broadcast_proposal prop ∈ s.out → (s.storage prop.blk).isSome) ∧
    (∀ msg hashes, Sent config s msg hashes → msg.Fits fmt →
      ∃ bytes msg', msg.serialize fmt = some bytes ∧
        (∀ rest, Msg.parse fmt msg.opcode (bytes ++ rest) = some (msg', rest)) ∧
        msg.SameWire fmt.sig.scheme msg' ∧ msg'.blocks.map config.get_hash = hashes) ∧
    ∀ (data data' : BlockData Hash Sig) bytes, data.Fits fmt → data'.Fits fmt →
      data.serialize fmt = some bytes → data'.serialize fmt = some bytes →
      data.SameWire fmt.sig.scheme data' := by
  have hout := hs.outbox
  have hw := hs.writable
  refine ⟨fun prop ho => (hout _ ho).2, ?_, ?_⟩
  · intro msg hashes hsent hfits
    have hblocks := hsent.blocks hs.links.1 hw
    have hwrite : ∀ data ∈ msg.blocks, data.qc.Writable := by
      intro data hdata
      obtain ⟨k, hk, rfl⟩ := List.getElem_of_mem hdata
      exact (hblocks.get (hblocks.length_eq ▸ hk) hk).2
    obtain ⟨bytes, hbytes⟩ := msg.serialize_of_writable hwrite fmt
    obtain ⟨msg', hread, hsame, hsames⟩ :=
      Msg.read_back hbytes hfits (hsent.numbered hs.id_eq hid hout)
    refine ⟨bytes, msg', hbytes, hread, hsame, ?_⟩
    exact hashes_of_blocks hfmt hblocks hsames
  · intro data data' bytes hfits hfits' h h'
    exact BlockData.sameWire_of_serialize h h' hfits hfits'

/-! ## A replica that has proposed -/

/-- The sum of the bytes, and one. -/
def byte_sum (bytes : List UInt8) : UInt8 := bytes.foldl (· + ·) 1

/-- Four replicas of the threshold build with these hashes. -/
def byte_replicas : Config UInt8 UInt8 :=
  { two_step := false
    scheme := .secp256k1
    rule := .threshold 3
    nreplicas := 4
    nreplicas_le := Config.four_le
    b0 := 0
    get_hash := fun data => byte_sum ((data.serialize one_byte_format).getD [])
    sign := fun _ h => h
    sigVerify := fun _ h sig => sig = h
    recover := fun _ => 0
    threshVerify := fun h sig => sig = some h }

theorem byte_replicas_serve : one_byte_format.Serves byte_replicas byte_sum where
  scheme := rfl
  hash data bytes h := by
    have hhash : byte_replicas.get_hash data =
      byte_sum ((data.serialize one_byte_format).getD []) := rfl
    rw [hhash, h, Option.getD_some]

theorem a_proposed_block_is_read_back :
    ∃ s, ((on_init byte_replicas 0).call byte_replicas (.on_propose [5] [0] [])).state? = some s ∧
      (∀ prop, .do_broadcast_proposal prop ∈ s.out → (s.storage prop.blk).isSome) ∧
      (∀ msg hashes, Sent byte_replicas s msg hashes → msg.Fits one_byte_format →
        ∃ bytes msg', msg.serialize one_byte_format = some bytes ∧
          (∀ rest, Msg.parse one_byte_format msg.opcode (bytes ++ rest) = some (msg', rest)) ∧
          msg.SameWire one_byte_format.sig.scheme msg' ∧
          msg'.blocks.map byte_replicas.get_hash = hashes) ∧
      ∀ (data data' : BlockData UInt8 UInt8) bytes, data.Fits one_byte_format →
        data'.Fits one_byte_format → data.serialize one_byte_format = some bytes →
        data'.serialize one_byte_format = some bytes →
        data.SameWire one_byte_format.sig.scheme data' := by
  have hsome : ((on_init byte_replicas 0).call byte_replicas
      (.on_propose [5] [0] [])).state?.isSome = true := by decide +kernel
  obtain ⟨s, hs⟩ := Option.isSome_iff_exists.mp hsome
  have hrun : Run byte_replicas 0 (Typed one_byte_format) s :=
    Run.init.step (c := .on_propose [5] [0] []) trivial hs
  exact ⟨s, hs, what_is_sent_is_read_back byte_replicas_serve (by decide) hrun⟩

end HotStuffCore

end general_hotstuff
