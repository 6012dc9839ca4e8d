-- The certificates that one replica keeps, whatever it is called with: they are on the
-- blocks that they are kept with. The runs of a replica end the module.
import GeneralHotStuff.CoreInvariant

namespace general_hotstuff

open quorums (ReplicaID)

namespace QuorumCert

variable {Hash Sig : Type}

theorem add_part_obj_hash [DecidableEq Hash] {qc qc' : QuorumCert Hash Sig} {rid : ReplicaID}
    {pc : PartCert Hash Sig} (h : qc.add_part rid pc = some qc') :
    qc'.obj_hash = qc.obj_hash := by
  unfold add_part at h
  split at h
  · cases h
  · rw [Option.some.injEq] at h
    rw [← h]

theorem compute_obj_hash (config : Config Hash Sig) (qc : QuorumCert Hash Sig) :
    (qc.compute config).obj_hash = qc.obj_hash := by
  unfold compute
  split <;> rfl

end QuorumCert

namespace HotStuffCore

variable {Hash Sig : Type} [DecidableEq Hash]

/-! ## Certificates -/

/-- The highest certificate and the collected ones are on the blocks they are kept with. -/
structure CertsOk (s : HotStuffCore Hash Sig) : Prop where
  hqc : s.hqc.2.obj_hash = s.hqc.1
  stored : (s.storage s.hqc.1).isSome
  self_qc : ∀ h b qc, s.storage h = some b → b.self_qc = some qc → qc.obj_hash = h

omit [DecidableEq Hash] in
/-- A delivered block refers to the block of its certificate. -/
theorem BlocksOk.qc_ref_delivered {config : Config Hash Sig} {s : HotStuffCore Hash Sig}
    (h : BlocksOk config s) {x : Hash} {b : Block Hash Sig} (hb : s.storage x = some b)
    (hd : b.delivered = true) :
    b.qc_ref = some b.qc.obj_hash ∧ (s.storage b.qc.obj_hash).isSome := by
  refine h.lawful.qc_ref_delivered (fun y c hl hcd => ?_) hb hd
  obtain ⟨p, ps, -, -, -, hq, hqs⟩ := hl.linked hcd
  exact ⟨hq, hqs⟩

/-- The two states hold the same votes on every block. -/
def SameVotes (s s' : HotStuffCore Hash Sig) : Prop :=
  ∀ h, (s'.storage h).map (fun b => (b.self_qc, b.voted)) =
    (s.storage h).map fun b => (b.self_qc, b.voted)

omit [DecidableEq Hash] in
theorem SameVotes.refl (s : HotStuffCore Hash Sig) : SameVotes s s := fun _ => rfl

omit [DecidableEq Hash] in
theorem SameVotes.trans {s s' s'' : HotStuffCore Hash Sig} (h : SameVotes s s')
    (h' : SameVotes s' s'') : SameVotes s s'' := fun x => (h' x).trans (h x)

omit [DecidableEq Hash] in
theorem SameVotes.of_storage_eq {s s' : HotStuffCore Hash Sig} (h : s'.storage = s.storage) :
    SameVotes s s' := fun x => by rw [h]

omit [DecidableEq Hash] in
theorem SameVotes.block {s s' : HotStuffCore Hash Sig} (h : SameVotes s s') {x : Hash}
    {b' : Block Hash Sig} (hb' : s'.storage x = some b') :
    ∃ b, s.storage x = some b ∧ b'.self_qc = b.self_qc ∧ b'.voted = b.voted := by
  have hx := h x
  rw [hb', Option.map_some] at hx
  obtain ⟨b, hb, heq⟩ := Option.map_eq_some_iff.mp hx.symm
  rw [Prod.mk.injEq] at heq
  exact ⟨b, hb, heq.1.symm, heq.2.symm⟩

theorem put_sameVotes {s : HotStuffCore Hash Sig} {h : Hash} {b c : Block Hash Sig}
    (hb : s.storage h = some b) (hqc : c.self_qc = b.self_qc) (hvoted : c.voted = b.voted) :
    SameVotes s (s.put h c) := by
  intro x
  by_cases hx : x = h
  · rw [hx, storage_put_self, hb, Option.map_some, Option.map_some, hqc, hvoted]
  · rw [storage_put_of_ne s c hx]

theorem commit_one_sameVotes (s : HotStuffCore Hash Sig) (blk : Hash) :
    SameVotes s (s.commit_one blk) := by
  cases hb : s.storage blk with
  | none =>
    have : (s.modify blk ({ · with decision := true })).storage = s.storage := by
      simp [modify, EntityStorage.modify, hb]
    exact SameVotes.of_storage_eq this
  | some b =>
    have hput := put_sameVotes hb (c := { b with decision := true }) rfl rfl
    exact hput.trans (SameVotes.of_storage_eq (by rw [commit_one, modify_eq_put hb]))

theorem commit_all_sameVotes (s : HotStuffCore Hash Sig) (blks : List Hash) :
    SameVotes s (blks.foldl commit_one s) := by
  induction blks generalizing s with
  | nil => exact SameVotes.refl s
  | cons blk blks ih => exact (commit_one_sameVotes s blk).trans (ih _)

/-- The commit loop writes blocks and outputs only. -/
theorem commit_all_frame (s : HotStuffCore Hash Sig) (blks : List Hash) :
    ∃ storage out, blks.foldl commit_one s = { s with storage := storage, out := out } := by
  induction blks generalizing s with
  | nil => exact ⟨s.storage, s.out, rfl⟩
  | cons blk blks ih =>
    obtain ⟨storage, out, h⟩ := ih (s.commit_one blk)
    exact ⟨storage, out, h⟩

theorem commit_keeps_votes (s : HotStuffCore Hash Sig) (blk : Hash) :
    (s.commit blk).Leaves fun s' => s'.hqc = s.hqc ∧ SameVotes s s' := by
  rcases commit_cases s blk with ⟨-, h⟩ | h | ⟨passed, -, h⟩
  · exact h ▸ Outcome.leaves_undefined
  · exact h ▸ Outcome.leaves_throw.mpr ⟨rfl, SameVotes.refl s⟩
  · rw [h, Outcome.leaves_ok]
    obtain ⟨storage, out, hf⟩ := commit_all_frame s passed.reverse
    exact ⟨congrArg (·.hqc) hf,
      (commit_all_sameVotes s passed.reverse).trans (SameVotes.of_storage_eq rfl)⟩

theorem update_sameVotes (config : Config Hash Sig) (s : HotStuffCore Hash Sig) (nblk : Hash) :
    (s.update config nblk).Leaves (SameVotes s) := by
  cases hb : s.storage nblk with
  | none => simp [update, hb]
  | some b =>
    have ht : SameVotes s (s.touched config nblk b) := SameVotes.of_storage_eq rfl
    rcases update_cases config hb with h | ⟨-, h⟩ | ⟨blk1, blk, -, h⟩
    · exact h ▸ Outcome.leaves_ok.mpr ht
    · exact h ▸ Outcome.leaves_undefined
    · exact h ▸ (commit_keeps_votes _ blk).mono fun _ hs => ht.trans hs.2

theorem on_deliver_blk_sameVotes (s : HotStuffCore Hash Sig) (blk : Hash) :
    (s.on_deliver_blk blk).Leaves fun s' => s'.hqc = s.hqc ∧ SameVotes s s' := by
  cases hb : s.storage blk with
  | none => simp [on_deliver_blk, hb]
  | some b =>
    cases hd : b.delivered with
    | true =>
      rw [on_deliver_blk_of_delivered hb hd, Outcome.leaves_ok]
      exact ⟨rfl, SameVotes.refl s⟩
    | false =>
      refine (on_deliver_blk_leaves hb hd).mono fun s' h => ?_
      obtain ⟨b', t, hdel, rfl, -⟩ := h
      obtain ⟨hqc, hvoted, -⟩ := hdel.votes_eq
      exact ⟨rfl, (put_sameVotes hb hqc hvoted).trans (SameVotes.of_storage_eq rfl)⟩

omit [DecidableEq Hash] in
theorem CertsOk.frame {s s' : HotStuffCore Hash Sig} (h : s.CertsOk) (hg : Grows s s')
    (hhqc : s'.hqc = s.hqc) (hv : SameVotes s s') : s'.CertsOk where
  hqc := by rw [hhqc, h.hqc]
  stored := by
    rw [hhqc]
    exact hg.isSome h.stored
  self_qc x b' qc hb' hqc := by
    obtain ⟨b, hb, heq, -⟩ := hv.block hb'
    exact h.self_qc x b qc hb (heq ▸ hqc)

theorem CertsOk.put {s : HotStuffCore Hash Sig} (h : s.CertsOk) {x : Hash} {b : Block Hash Sig}
    (hb : ∀ qc, b.self_qc = some qc → qc.obj_hash = x) : (s.put x b).CertsOk where
  hqc := h.hqc
  stored := by
    by_cases hx : s.hqc.1 = x
    · exact hx ▸ by simp [HotStuffCore.put]
    · exact (storage_put_of_ne s b hx).symm ▸ h.stored
  self_qc y c qc hc hqc := by
    by_cases hy : y = x
    · rw [hy, storage_put_self, Option.some.injEq] at hc
      subst hc
      exact (hb qc hqc).trans hy.symm
    · rw [storage_put_of_ne s b hy] at hc
      exact h.self_qc y c qc hc hqc

omit [DecidableEq Hash] in
theorem CertsOk.touched_of_ref {s : HotStuffCore Hash Sig} {nblk : Hash} {b : Block Hash Sig}
    (h : s.CertsOk) (config : Config Hash Sig) (hb : s.storage nblk = some b)
    (href : ∀ q, b.qc_ref = some q → q = b.qc.obj_hash ∧ (s.storage q).isSome) :
    (s.touched config nblk b).CertsOk := by
  rcases s.touched_hqc config nblk b with heq | ⟨q, hu, heq, -⟩
  · exact ⟨by rw [heq, h.hqc], by rw [heq]; exact h.stored, h.self_qc⟩
  · have hq' := (undecided_ref_eq_some.mp hu).1
    rw [qc_ref_eq hb] at hq'
    obtain ⟨hobj, hstored⟩ := href q hq'
    exact ⟨by rw [heq, hobj], by rw [heq]; exact hstored, h.self_qc⟩

omit [DecidableEq Hash] in
/-- What `BlocksOk` and `LinksOk` say of the reference of a delivered block. -/
theorem ref_of_obj_hash {s : HotStuffCore Hash Sig} {b : Block Hash Sig}
    (h : b.qc_ref = some b.qc.obj_hash ∧ (s.storage b.qc.obj_hash).isSome) :
    ∀ q, b.qc_ref = some q → q = b.qc.obj_hash ∧ (s.storage q).isSome := by
  intro q hq
  rw [h.1, Option.some.injEq] at hq
  exact ⟨hq.symm, hq ▸ h.2⟩

theorem CertsOk.update_of_ref {s : HotStuffCore Hash Sig} {nblk : Hash} {b : Block Hash Sig}
    (h : s.CertsOk) (config : Config Hash Sig) (hb : s.storage nblk = some b)
    (href : ∀ q, b.qc_ref = some q → q = b.qc.obj_hash ∧ (s.storage q).isSome) :
    (s.update config nblk).Leaves CertsOk := by
  have ht := h.touched_of_ref config hb href
  rcases update_cases config hb with h' | ⟨-, h'⟩ | ⟨blk1, blk, -, h'⟩
  · exact h' ▸ Outcome.leaves_ok.mpr ht
  · exact h' ▸ Outcome.leaves_undefined
  · rw [h']
    intro s' hs'
    obtain ⟨hhqc, hv⟩ := commit_keeps_votes _ blk s' hs'
    exact ht.frame (commit_sameShape _ blk s' hs').grows hhqc hv

omit [DecidableEq Hash] in
theorem CertsOk.touched {config : Config Hash Sig} {s : HotStuffCore Hash Sig} {nblk : Hash}
    {b : Block Hash Sig} (hok : BlocksOk config s) (h : s.CertsOk) (hb : s.storage nblk = some b)
    (hd : b.delivered = true) : (s.touched config nblk b).CertsOk :=
  h.touched_of_ref config hb (ref_of_obj_hash (hok.qc_ref_delivered hb hd))

theorem update_certsOk (config : Config Hash Sig) {s : HotStuffCore Hash Sig} {nblk : Hash}
    (hok : BlocksOk config s) (h : s.CertsOk) (hd : s.delivered nblk = true) :
    (s.update config nblk).Leaves CertsOk := by
  obtain ⟨b, hb, hbd⟩ := exists_of_delivered hd
  exact h.update_of_ref config hb (ref_of_obj_hash (hok.qc_ref_delivered hb hbd))

omit [DecidableEq Hash] in
theorem CertsOk.started {s : HotStuffCore Hash Sig} (h : s.CertsOk) (config : Config Hash Sig)
    {x : Hash} {b : Block Hash Sig} (hb : s.storage x = some b) :
    (b.self_qc.getD (.create_quorum_cert config x)).obj_hash = x := by
  cases hqc : b.self_qc with
  | none => rfl
  | some qc => exact h.self_qc x b qc hb hqc

theorem on_receive_vote_certsOk (config : Config Hash Sig) {s : HotStuffCore Hash Sig}
    (h : s.CertsOk) (vote : Vote Hash Sig) :
    (s.on_receive_vote config vote).Leaves CertsOk := by
  rcases on_receive_vote_cases config vote s with h' | h' | ⟨b, hb, -, -, -, h'⟩
  · exact h' ▸ Outcome.leaves_throw.mpr h
  · exact h' ▸ Outcome.leaves_ok.mpr h
  · have hstart := h.started config hb
    generalize s.on_receive_vote config vote = o at h' ⊢
    cases h' with
    | mismatch ha =>
      rw [Outcome.leaves_throw]
      exact h.put fun qc hqc => Option.some.inj hqc ▸ hstart
    | collected qc' ha hq =>
      rw [Outcome.leaves_ok]
      exact h.put fun qc hqc => Option.some.inj hqc ▸
        (QuorumCert.add_part_obj_hash ha).trans hstart
    | computed qc' ha hq =>
      rw [Outcome.leaves_ok]
      have hobj : (qc'.compute config).obj_hash = vote.blk_hash := by
        rw [QuorumCert.compute_obj_hash, QuorumCert.add_part_obj_hash ha, hstart]
      have hput : (s.put vote.blk_hash { b with
          voted := insert vote.voter b.voted
          self_qc := some (qc'.compute config) }).CertsOk :=
        h.put fun qc hqc => Option.some.inj hqc ▸ hobj
      have hst : ((s.put vote.blk_hash { b with
          voted := insert vote.voter b.voted
          self_qc := some (qc'.compute config) }).storage vote.blk_hash).isSome := by
        simp [put]
      generalize s.put vote.blk_hash _ = s1 at hput hst ⊢
      by_cases hlt : s1.height s1.hqc.1 < s1.height vote.blk_hash
      · exact ⟨by simp [update_hqc, hlt, hobj], by simp [update_hqc, hlt, hst], hput.self_qc⟩
      · exact ⟨by simp [update_hqc, hlt, hput.hqc], by simp [update_hqc, hlt, hput.stored],
          hput.self_qc⟩

theorem store_proposed_certsOk {config : Config Hash Sig} {s : HotStuffCore Hash Sig}
    (h : s.CertsOk) (cmds : List Hash) (p : Hash) (ps : List Hash) (extra : List UInt8) :
    (s.store_proposed config cmds p ps extra).CertsOk := by
  cases hb : s.storage (config.get_hash (s.proposed cmds (p :: ps) extra)) with
  | none =>
    have hput := h.put (x := config.get_hash (s.proposed cmds (p :: ps) extra))
      (b := with_empty_qc config (config.get_hash (s.proposed cmds (p :: ps) extra))
        (s.new_block cmds p ps extra)) fun qc hqc => Option.some.inj hqc ▸ rfl
    rw [store_proposed_of_none hb]
    exact ⟨hput.hqc, hput.stored, hput.self_qc⟩
  | some b =>
    have hput := h.put (x := config.get_hash (s.proposed cmds (p :: ps) extra))
      (b := with_empty_qc config (config.get_hash (s.proposed cmds (p :: ps) extra)) b)
        fun qc hqc => Option.some.inj hqc ▸ rfl
    rw [store_proposed_of_some hb]
    exact ⟨hput.hqc, hput.stored, hput.self_qc⟩

theorem kept_certsOk (config : Config Hash Sig) :
    Kept config fun s : HotStuffCore Hash Sig => BlocksOk config s ∧ s.CertsOk where
  update s nblk hs hd := by
    intro s' hs'
    exact ⟨hs.1.of_sameShape (update_sameShape config s nblk s' hs'),
      update_certsOk config hs.1 hs.2 hd s' hs'⟩
  vote_on s prop hs := by
    rcases vote_on_cases config prop s with ⟨-, h⟩ | h | ⟨-, h⟩
    · exact h ▸ Outcome.leaves_undefined
    · exact h ▸ Outcome.leaves_ok.mpr hs
    · exact h ▸ Outcome.leaves_ok.mpr
        ⟨hs.1.of_sameShape (SameShape.of_storage_eq (s := s) rfl), hs.2.hqc, hs.2.stored,
          hs.2.self_qc⟩
  broadcast s _ hs := ⟨hs.1.of_sameShape (SameShape.of_storage_eq (s := s) rfl),
    hs.2.hqc, hs.2.stored, hs.2.self_qc⟩

theorem call_certsOk (config : Config Hash Sig) {s : HotStuffCore Hash Sig}
    (hok : BlocksOk config s) (h : s.CertsOk) (hshort : s.Short) (c : Call Hash Sig) :
    (s.call config c).Leaves CertsOk := by
  have hk := kept_certsOk config
  cases c with
  | add_blk data =>
    cases hb : s.storage (config.get_hash data) with
    | none =>
      rw [call_add_blk_of_none hb, Outcome.leaves_ok]
      exact h.put fun qc hqc => by simp [Block.unserialize] at hqc
    | some b =>
      rw [call_add_blk_of_isSome (by simp [hb]), Outcome.leaves_ok]
      exact h
  | on_deliver_blk blk =>
    intro s' hs'
    obtain ⟨hhqc, hv⟩ := on_deliver_blk_sameVotes s blk s' hs'
    exact h.frame (on_deliver_blk_grows s blk s' hs') hhqc hv
  | on_propose cmds parents extra =>
    refine (hk.on_propose ⟨hok, h⟩ cmds parents extra fun p ps _ => ?_).mono fun _ hs => hs.2
    intro s' hs'
    obtain ⟨hhqc, hv⟩ := on_deliver_blk_sameVotes _ _ s' hs'
    exact ⟨deliver_proposed_blocksOk hok hshort cmds p ps extra s' hs',
      (store_proposed_certsOk h cmds p ps extra).frame (on_deliver_blk_grows _ _ s' hs') hhqc hv⟩
  | on_receive_proposal prop =>
    exact (hk.on_receive_proposal ⟨hok, h⟩ prop).mono fun _ hs => hs.2
  | on_receive_vote vote => exact on_receive_vote_certsOk config h vote
  | set_vote_disabled f => exact Outcome.leaves_ok.mpr ⟨h.hqc, h.stored, h.self_qc⟩

/-! ## Runs -/

/-- A state after any number of calls, each of which satisfies `ok` in the state before it. -/
inductive Run (config : Config Hash Sig) (id : ReplicaID)
    (ok : HotStuffCore Hash Sig → Call Hash Sig → Prop) : HotStuffCore Hash Sig → Prop where
  | init : Run config id ok (on_init config id)
  | step {s s' : HotStuffCore Hash Sig} {c : Call Hash Sig} (hr : Run config id ok s) (hc : ok s c)
      (hs : (s.call config c).state? = some s') : Run config id ok s'

theorem Run.mono {config : Config Hash Sig} {id : ReplicaID}
    {ok ok' : HotStuffCore Hash Sig → Call Hash Sig → Prop} (hok : ∀ s c, ok s c → ok' s c)
    {s : HotStuffCore Hash Sig} (h : Run config id ok s) : Run config id ok' s := by
  induction h with
  | init => exact .init
  | step _ hc hs ih => exact ih.step (hok _ _ hc) hs

/-- The calls one after the other, as long as each satisfies `ok`. -/
def play (config : Config Hash Sig) (ok : HotStuffCore Hash Sig → Call Hash Sig → Prop)
    [∀ s c, Decidable (ok s c)] (s : HotStuffCore Hash Sig) :
    List (Call Hash Sig) → Option (HotStuffCore Hash Sig)
  | [] => some s
  | c :: cs => if ok s c then (s.call config c).state?.bind fun s' => play config ok s' cs else none

theorem Run.play {config : Config Hash Sig} {id : ReplicaID}
    {ok : HotStuffCore Hash Sig → Call Hash Sig → Prop} [∀ s c, Decidable (ok s c)]
    {s s' : HotStuffCore Hash Sig} (h : Run config id ok s) {cs : List (Call Hash Sig)}
    (hcs : s.play config ok cs = some s') : Run config id ok s' := by
  induction cs generalizing s with
  | nil => exact Option.some.inj hcs ▸ h
  | cons c cs ih =>
    simp only [HotStuffCore.play] at hcs
    split at hcs
    · rename_i hc
      obtain ⟨s1, hs1, hcs⟩ := Option.bind_eq_some_iff.mp hcs
      exact ih (h.step hc hs1) hcs
    · cases hcs

/-- The hash of block number `i`. -/
def hash_of (i : ℕ) : Fin 8 := Fin.ofNat 8 i

/-- Four replicas of the threshold build. A block carries its hash in its first extra byte, and a
signature names its replica and what it signs. -/
def four_replicas (two_step : Bool) : Config (Fin 8) (ReplicaID × Fin 8) :=
  { two_step := two_step
    scheme := .secp256k1
    rule := .threshold 3
    nreplicas := 4
    nreplicas_le := Config.four_le
    b0 := hash_of 0
    get_hash := fun data => hash_of (data.extra.head?.elim 0 (·.toNat))
    sign := fun rid h => (rid, h)
    sigVerify := fun rid h sig => sig = (rid, h)
    recover := fun sigs => sigs.head?.elim (0, hash_of 0) Prod.snd
    threshVerify := fun h sig => sig.any (·.2 = h) }

theorem on_init_blocksOk (config : Config Hash Sig) (id : ReplicaID) :
    BlocksOk config (on_init config id) where
  genesis := by simp [on_init]
  law h b hh hb := by simp [on_init, hh] at hb

theorem on_init_short (config : Config Hash Sig) (id : ReplicaID) :
    (on_init config id).Short := by
  intro x hx
  by_cases hxb : x = config.b0
  · simp [HotStuffCore.height, on_init, hxb, genesis]
  · simp [HotStuffCore.delivered, on_init, hxb] at hx

theorem on_init_certsOk (config : Config Hash Sig) (id : ReplicaID) :
    (on_init config id).CertsOk where
  hqc := rfl
  stored := by simp [on_init]
  self_qc h b qc hb hqc := by
    by_cases hh : h = config.b0
    · simp only [on_init, hh, Function.update_self, Option.some.injEq] at hb
      rw [← hb] at hqc
      rw [← Option.some.inj hqc, hh]
      rfl
    · simp [on_init, hh] at hb

theorem Run.blocksOk {config : Config Hash Sig} {id : ReplicaID}
    {ok : HotStuffCore Hash Sig → Call Hash Sig → Prop} (hok : ∀ s c, ok s c → s.Short)
    {s : HotStuffCore Hash Sig} (h : Run config id ok s) : BlocksOk config s ∧ s.CertsOk := by
  induction h with
  | init => exact ⟨on_init_blocksOk config id, on_init_certsOk config id⟩
  | step hr hc hs ih =>
    exact ⟨call_blocksOk config ih.1 (hok _ _ hc) _ _ hs,
      call_certsOk config ih.1 ih.2 (hok _ _ hc) _ _ hs⟩

end HotStuffCore

end general_hotstuff
