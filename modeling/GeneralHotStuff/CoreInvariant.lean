-- What holds of the blocks that one replica stores, whatever it is called with: a block
-- lies under its own hash, the parents it has taken over are delivered, and heights
-- count up along them.
import GeneralHotStuff.CallCases

namespace general_hotstuff

open quorums (ReplicaID)

namespace HotStuffCore

variable {Hash Sig : Type}

/-! ## Genesis among the stored blocks -/

/-- Genesis is in its place and the other blocks are lawful. -/
structure Lawful (config : Config Hash Sig)
    (L : HotStuffCore Hash Sig → Hash → Block Hash Sig → Prop) (s : HotStuffCore Hash Sig) :
    Prop where
  genesis : (s.storage config.b0).map shape = some (shape (genesis config))
  law : ∀ h b, h ≠ config.b0 → s.storage h = some b → L s h b

section Genesis

variable {config : Config Hash Sig} {s : HotStuffCore Hash Sig}
  {L : HotStuffCore Hash Sig → Hash → Block Hash Sig → Prop}

theorem Lawful.genesis_block (h : Lawful config L s) :
    ∃ g, s.storage config.b0 = some g ∧ shape g = shape (HotStuffCore.genesis config) :=
  Option.map_eq_some_iff.mp h.genesis

theorem Lawful.b0_delivered (h : Lawful config L s) : s.delivered config.b0 = true := by
  obtain ⟨g, hg, hsh⟩ := h.genesis_block
  rw [delivered_eq hg]
  exact congrArg (·.delivered) hsh

theorem Lawful.b0_height (h : Lawful config L s) : s.height config.b0 = 0 := by
  obtain ⟨g, hg, hsh⟩ := h.genesis_block
  rw [height_eq hg]
  exact congrArg (·.height) hsh

theorem Lawful.b0_parents (h : Lawful config L s) : s.parents config.b0 = [] := by
  obtain ⟨g, hg, hsh⟩ := h.genesis_block
  rw [parents_eq hg]
  exact congrArg (·.parents) hsh

theorem Lawful.ne_b0 (h : Lawful config L s) {x : Hash} {b : Block Hash Sig}
    (hb : s.storage x = some b) (hd : b.delivered = false) : x ≠ config.b0 := by
  intro hx
  have := h.b0_delivered
  rw [← hx, delivered_eq hb, hd] at this
  cases this

/-- The first parent of a stored block is delivered. -/
theorem Lawful.parent_delivered (h : Lawful config L s)
    (hL : ∀ x b, L s x b → ∀ p ∈ b.parents, s.delivered p = true) {x p : Hash}
    (hp : (s.parents x).head? = some p) : s.delivered p = true := by
  cases hb : s.storage x with
  | none => simp [HotStuffCore.parents, hb] at hp
  | some b =>
    by_cases hx : x = config.b0
    · rw [hx, h.b0_parents] at hp
      cases hp
    · rw [parents_eq hb] at hp
      exact hL x b (h.law x b hx hb) p (List.mem_of_head? hp)

theorem Lawful.qc_ref_delivered (h : Lawful config L s)
    (hL : ∀ x b, L s x b → b.delivered = true →
      b.qc_ref = some b.qc.obj_hash ∧ (s.storage b.qc.obj_hash).isSome)
    {x : Hash} {b : Block Hash Sig} (hb : s.storage x = some b) (hd : b.delivered = true) :
    b.qc_ref = some b.qc.obj_hash ∧ (s.storage b.qc.obj_hash).isSome := by
  by_cases hx : x = config.b0
  · obtain ⟨g, hg, hsh⟩ := h.genesis_block
    rw [hx, hg, Option.some.injEq] at hb
    subst hb
    have hqc : g.qc = .create_quorum_cert config config.b0 := congrArg (·.qc) hsh
    have hobj : g.qc.obj_hash = config.b0 := congrArg (·.obj_hash) hqc
    rw [hobj, hg]
    exact ⟨congrArg (·.qc_ref) hsh, rfl⟩
  · exact hL x b (h.law x b hx hb) hd

end Genesis

/-! ## Stored blocks -/

/-- What delivery establishes: the block hangs on its first parent, one higher, and refers to the
block of its certificate. -/
def Linked (s : HotStuffCore Hash Sig) (b : Block Hash Sig) : Prop :=
  ∃ p ps, b.parent_hashes = p :: ps ∧ b.parents = p :: ps ∧ b.height = s.height p + 1 ∧
    b.qc_ref = some b.qc.obj_hash ∧ (s.storage b.qc.obj_hash).isSome

structure BlockLaw (config : Config Hash Sig) (s : HotStuffCore Hash Sig) (h : Hash)
    (b : Block Hash Sig) : Prop where
  hash : config.get_hash b.toBlockData = h
  parents : ∀ p ∈ b.parents, s.delivered p = true
  linked : b.delivered = true → s.Linked b

structure BlocksOk (config : Config Hash Sig) (s : HotStuffCore Hash Sig) : Prop where
  genesis : (s.storage config.b0).map shape = some (shape (genesis config))
  law : ∀ h b, h ≠ config.b0 → s.storage h = some b → BlockLaw config s h b

/-- The chains the replica knows are shorter than 2^32. -/
def Short (s : HotStuffCore Hash Sig) : Prop :=
  ∀ h, s.delivered h = true → s.height h + 1 < 2 ^ 32

theorem Linked.mono {s s' : HotStuffCore Hash Sig} {b b' : Block Hash Sig} (h : s.Linked b)
    (hg : Grows s s') (hp : ∀ p ∈ b.parents, s.delivered p = true) (hb : shape b' = shape b) :
    s'.Linked b' := by
  obtain ⟨p, ps, hph, hps, hheight, hq, hqs⟩ := h
  have hdel : s.delivered p = true := hp p (by rw [hps]; exact List.mem_cons_self)
  have hqc : b'.qc = b.qc := congrArg (·.qc) hb
  refine ⟨p, ps, ?_, ?_, ?_, ?_, ?_⟩
  · exact (congrArg (·.parent_hashes) hb).trans hph
  · exact (congrArg (·.parents) hb).trans hps
  · have hb' : b'.height = b.height := congrArg (·.height) hb
    rw [hb', hheight, (hg.sameAt hdel).height]
  · have hb' : b'.qc_ref = b.qc_ref := congrArg (·.qc_ref) hb
    rw [hb', hqc, hq]
  · rw [hqc]
    exact hg.isSome hqs

theorem BlockLaw.mono {config : Config Hash Sig} {s s' : HotStuffCore Hash Sig} {h : Hash}
    {b b' : Block Hash Sig} (hl : BlockLaw config s h b) (hg : Grows s s')
    (hb : shape b' = shape b) : BlockLaw config s' h b' where
  hash := (congrArg (config.get_hash ·.toBlockData) hb).trans hl.hash
  parents p hp := hg.delivered (hl.parents p (congrArg (·.parents) hb ▸ hp))
  linked hd := (hl.linked ((congrArg (·.delivered) hb).symm.trans hd)).mono hg hl.parents hb

theorem BlocksOk.of_sameShape {config : Config Hash Sig} {s s' : HotStuffCore Hash Sig}
    (hs : SameShape s s') (h : BlocksOk config s) : BlocksOk config s' where
  genesis := (hs config.b0).trans h.genesis
  law x b' hx hb' := by
    obtain ⟨b, hb, hsh⟩ := (hs.symm x).block hb'
    exact (h.law x b hx hb).mono hs.grows hsh.symm

theorem BlocksOk.lawful {config : Config Hash Sig} {s : HotStuffCore Hash Sig}
    (h : BlocksOk config s) : Lawful config (BlockLaw config) s := ⟨h.genesis, h.law⟩

theorem Lawful.blocksOk {config : Config Hash Sig} {s : HotStuffCore Hash Sig}
    (h : Lawful config (BlockLaw config) s) : BlocksOk config s := ⟨h.genesis, h.law⟩

theorem BlocksOk.b0_delivered {config : Config Hash Sig} {s : HotStuffCore Hash Sig}
    (h : BlocksOk config s) : s.delivered config.b0 = true := h.lawful.b0_delivered

theorem BlocksOk.b0_height {config : Config Hash Sig} {s : HotStuffCore Hash Sig}
    (h : BlocksOk config s) : s.height config.b0 = 0 := h.lawful.b0_height

theorem BlocksOk.b0_parents {config : Config Hash Sig} {s : HotStuffCore Hash Sig}
    (h : BlocksOk config s) : s.parents config.b0 = [] := h.lawful.b0_parents

/-- The first parent of a stored block is delivered. -/
theorem BlocksOk.parent_delivered {config : Config Hash Sig} {s : HotStuffCore Hash Sig}
    (h : BlocksOk config s) {x p : Hash} (hp : (s.parents x).head? = some p) :
    s.delivered p = true :=
  h.lawful.parent_delivered (fun _ _ hl => hl.parents) hp

/-- Genesis is delivered and has no parents, and first parents are delivered. -/
structure Grounded (config : Config Hash Sig) (s : HotStuffCore Hash Sig) : Prop where
  b0_delivered : s.delivered config.b0 = true
  b0_parents : s.parents config.b0 = []
  parent_delivered : ∀ {x p}, (s.parents x).head? = some p → s.delivered p = true

theorem BlocksOk.grounded {config : Config Hash Sig} {s : HotStuffCore Hash Sig}
    (h : BlocksOk config s) : Grounded config s :=
  ⟨h.b0_delivered, h.b0_parents, h.parent_delivered⟩

/-- A delivered block is one higher than its first parent. -/
theorem BlocksOk.height_parent {config : Config Hash Sig} {s : HotStuffCore Hash Sig}
    (h : BlocksOk config s) {x p : Hash} (hd : s.delivered x = true)
    (hp : (s.parents x).head? = some p) : s.height x = s.height p + 1 := by
  obtain ⟨b, hb, hbd⟩ := exists_of_delivered hd
  by_cases hx : x = config.b0
  · rw [hx, h.b0_parents] at hp
    cases hp
  · obtain ⟨q, qs, -, hqs, hheight, -⟩ := (h.law x b hx hb).linked hbd
    rw [parents_eq hb, hqs, List.head?_cons, Option.some.injEq] at hp
    rw [height_eq hb, hheight, hp]

theorem Short.of_grows {s s' : HotStuffCore Hash Sig} (h : s.Short) (hg : Grows s s')
    (hd : ∀ x, s'.delivered x = true → s.delivered x = true) : s'.Short := by
  intro x hx
  rw [(hg.sameAt (hd x hx)).height]
  exact h x (hd x hx)

variable [DecidableEq Hash]

/-! ## What a proposal sets off -/

/-- `P` is kept by all that follows once the block of a proposal is delivered. -/
structure Kept (config : Config Hash Sig) (P : HotStuffCore Hash Sig → Prop) : Prop where
  update : ∀ s nblk, P s → s.delivered nblk = true → (s.update config nblk).Leaves P
  vote_on : ∀ s prop, P s → (s.vote_on config prop).Leaves P
  broadcast : ∀ s prop, P s → P { s with out := s.out ++ [.do_broadcast_proposal prop] }

theorem Kept.on_receive_proposal {config : Config Hash Sig} {P : HotStuffCore Hash Sig → Prop}
    (hk : Kept config P) {s : HotStuffCore Hash Sig} (hs : P s) (prop : Proposal Hash) :
    (s.on_receive_proposal config prop).Leaves P := by
  unfold HotStuffCore.on_receive_proposal
  split
  · exact hk.vote_on s prop hs
  · split
    · rename_i hd
      exact (hk.update s prop.blk hs hd).andThen fun s1 _ h => hk.vote_on s1 prop h
    · exact Outcome.leaves_throw.mpr hs

theorem delivered_of_on_deliver_blk {s s' : HotStuffCore Hash Sig} {blk : Hash}
    (h : s.on_deliver_blk blk = .ok s') : s'.delivered blk = true := by
  cases hb : s.storage blk with
  | none => simp [on_deliver_blk, hb] at h
  | some b =>
    cases hd : b.delivered with
    | true =>
      rw [on_deliver_blk_of_delivered hb hd, Outcome.ok.injEq] at h
      rw [← h, delivered_eq hb, hd]
    | false =>
      simp only [on_deliver_blk, hb] at h
      rw [if_neg (by simp [hd])] at h
      split at h
      · cases h
      · split at h
        · cases h
        · split at h
          · rw [Outcome.ok.injEq] at h
            subst h
            simp [delivered, modify, EntityStorage.modify, hb]
          · cases h

theorem Kept.on_propose {config : Config Hash Sig} {P : HotStuffCore Hash Sig → Prop}
    (hk : Kept config P) {s : HotStuffCore Hash Sig} (hs : P s) (cmds parents : List Hash)
    (extra : List UInt8)
    (hd : ∀ p ps, parents = p :: ps →
      ((s.store_proposed config cmds p ps extra).on_deliver_blk
        (config.get_hash (s.proposed cmds (p :: ps) extra))).Leaves P) :
    (s.on_propose config cmds parents extra).Leaves P := by
  unfold HotStuffCore.on_propose
  split
  · exact Outcome.leaves_throw.mpr hs
  · rename_i p ps
    refine (hd p ps rfl).andThen fun s1 ho hs1 => ?_
    refine (hk.update s1 _ hs1 (delivered_of_on_deliver_blk ho)).andThen fun s2 _ hs2 => ?_
    split
    · exact Outcome.leaves_throw.mpr hs2
    · refine (hk.on_receive_proposal hs2 _).andThen fun s3 _ hs3 => ?_
      exact Outcome.leaves_ok.mpr (hk.broadcast s3 _ hs3)

/-! ## Shapes and growth -/

theorem commit_one_sameShape (s : HotStuffCore Hash Sig) (blk : Hash) :
    SameShape s (s.commit_one blk) :=
  SameShape.trans (SameShape.modify s blk (f := ({ · with decision := true })) fun _ => rfl)
    (SameShape.of_storage_eq rfl)

theorem commit_all_sameShape (s : HotStuffCore Hash Sig) (blks : List Hash) :
    SameShape s (blks.foldl commit_one s) := by
  induction blks generalizing s with
  | nil => exact SameShape.refl s
  | cons blk blks ih => exact (commit_one_sameShape s blk).trans (ih _)

theorem commit_sameShape (s : HotStuffCore Hash Sig) (blk : Hash) :
    (s.commit blk).Leaves (SameShape s) := by
  rcases commit_cases s blk with ⟨-, h⟩ | h | ⟨passed, -, h⟩
  · exact h ▸ Outcome.leaves_undefined
  · exact h ▸ Outcome.leaves_throw.mpr (SameShape.refl s)
  · rw [h, Outcome.leaves_ok]
    exact (commit_all_sameShape s passed.reverse).trans (SameShape.of_storage_eq rfl)

theorem update_sameShape (config : Config Hash Sig) (s : HotStuffCore Hash Sig) (nblk : Hash) :
    (s.update config nblk).Leaves (SameShape s) := by
  cases hb : s.storage nblk with
  | none => simp [update, hb]
  | some b =>
    have ht : SameShape s (s.touched config nblk b) := SameShape.of_storage_eq rfl
    rcases update_cases config hb with h | ⟨-, h⟩ | ⟨blk1, blk, -, h⟩
    · exact h ▸ Outcome.leaves_ok.mpr ht
    · exact h ▸ Outcome.leaves_undefined
    · exact h ▸ (commit_sameShape _ blk).mono fun _ hs => ht.trans hs

theorem vote_on_sameShape (config : Config Hash Sig) (s : HotStuffCore Hash Sig)
    (prop : Proposal Hash) : (s.vote_on config prop).Leaves (SameShape s) := by
  rcases vote_on_cases config prop s with ⟨-, h⟩ | h | ⟨-, h⟩
  · exact h ▸ Outcome.leaves_undefined
  · exact h ▸ Outcome.leaves_ok.mpr (SameShape.refl s)
  · exact h ▸ Outcome.leaves_ok.mpr (SameShape.of_storage_eq rfl)

theorem put_sameShape {s : HotStuffCore Hash Sig} {h : Hash} {b c : Block Hash Sig}
    (hb : s.storage h = some b) (hsh : shape c = shape b) : SameShape s (s.put h c) := by
  intro x
  by_cases hx : x = h
  · rw [hx, SameAt, storage_put_self, hb, Option.map_some, Option.map_some, hsh]
  · rw [SameAt, storage_put_of_ne s c hx]

theorem on_receive_vote_sameShape (config : Config Hash Sig) (s : HotStuffCore Hash Sig)
    (vote : Vote Hash Sig) : (s.on_receive_vote config vote).Leaves (SameShape s) := by
  rcases on_receive_vote_cases config vote s with h | h | ⟨b, hb, -, -, -, h⟩
  · exact h ▸ Outcome.leaves_throw.mpr (SameShape.refl s)
  · exact h ▸ Outcome.leaves_ok.mpr (SameShape.refl s)
  · generalize s.on_receive_vote config vote = o at h ⊢
    cases h with
    | mismatch ha => exact Outcome.leaves_throw.mpr (put_sameShape hb rfl)
    | collected qc' ha hq => exact Outcome.leaves_ok.mpr (put_sameShape hb rfl)
    | computed qc' ha hq =>
      rw [Outcome.leaves_ok]
      have hput := put_sameShape hb (c := { b with
        voted := insert vote.voter b.voted
        self_qc := some (qc'.compute config) }) rfl
      exact hput.trans (SameShape.of_storage_eq rfl)

/-- What keeps the shapes keeps every property of them. -/
theorem kept_of_sameShape (config : Config Hash Sig) {P : HotStuffCore Hash Sig → Prop}
    (hP : ∀ s s', SameShape s s' → P s → P s') : Kept config P where
  update s nblk hs _ := (update_sameShape config s nblk).mono fun s' h => hP s s' h hs
  vote_on s prop hs := (vote_on_sameShape config s prop).mono fun s' h => hP s s' h hs
  broadcast s _ hs := hP s _ (SameShape.of_storage_eq rfl) hs

theorem store_proposed_sameShape {config : Config Hash Sig} {s : HotStuffCore Hash Sig}
    {cmds : List Hash} {p : Hash} {ps : List Hash} {extra : List UInt8} {b : Block Hash Sig}
    (hb : s.storage (config.get_hash (s.proposed cmds (p :: ps) extra)) = some b) :
    SameShape s (s.store_proposed config cmds p ps extra) := by
  have hput := put_sameShape hb (c := with_empty_qc config
    (config.get_hash (s.proposed cmds (p :: ps) extra)) b) rfl
  rw [store_proposed_of_some hb]
  exact hput.trans (SameShape.of_storage_eq rfl)

theorem store_proposed_grows (config : Config Hash Sig) (s : HotStuffCore Hash Sig)
    (cmds : List Hash) (p : Hash) (ps : List Hash) (extra : List UInt8) :
    Grows s (s.store_proposed config cmds p ps extra) := by
  cases hb : s.storage (config.get_hash (s.proposed cmds (p :: ps) extra)) with
  | none =>
    rw [store_proposed_of_none hb]
    exact (Grows.put_new hb _).trans (SameShape.of_storage_eq rfl).grows
  | some b =>
    exact (store_proposed_sameShape hb).grows

theorem on_deliver_blk_grows (s : HotStuffCore Hash Sig) (blk : Hash) :
    (s.on_deliver_blk blk).Leaves (Grows s) := by
  cases hb : s.storage blk with
  | none => simp [on_deliver_blk, hb]
  | some b =>
    cases hd : b.delivered with
    | true =>
      rw [on_deliver_blk_of_delivered hb hd, Outcome.leaves_ok]
      exact Grows.refl s
    | false =>
      refine (on_deliver_blk_leaves hb hd).mono fun s' h => ?_
      obtain ⟨b', t, hdel, rfl, -⟩ := h
      exact (Grows.put hb hd hdel.toBlockData_eq).trans (SameShape.of_storage_eq rfl).grows

/-- Whatever a replica is called with, its stored blocks stay, and delivered ones keep their
shape. -/
theorem call_grows (config : Config Hash Sig) (s : HotStuffCore Hash Sig) (c : Call Hash Sig) :
    (s.call config c).Leaves (Grows s) := by
  have hk : Kept config (Grows s) :=
    kept_of_sameShape config fun _ _ hsh hg => hg.trans hsh.grows
  cases c with
  | add_blk data =>
    cases hb : s.storage (config.get_hash data) with
    | none =>
      rw [call_add_blk_of_none hb, Outcome.leaves_ok]
      exact Grows.put_new hb _
    | some b =>
      rw [call_add_blk_of_isSome (by simp [hb]), Outcome.leaves_ok]
      exact Grows.refl s
  | on_deliver_blk blk => exact on_deliver_blk_grows s blk
  | on_propose cmds parents extra =>
    refine hk.on_propose (Grows.refl s) cmds parents extra fun p ps _ => ?_
    exact (on_deliver_blk_grows _ _).mono fun s' h =>
      (store_proposed_grows config s cmds p ps extra).trans h
  | on_receive_proposal prop => exact hk.on_receive_proposal (Grows.refl s) prop
  | on_receive_vote vote =>
    exact (on_receive_vote_sameShape config s vote).mono fun _ h => h.grows
  | set_vote_disabled f => exact Outcome.leaves_ok.mpr (SameShape.of_storage_eq rfl).grows

theorem delivered_of_store_proposed {config : Config Hash Sig} {s : HotStuffCore Hash Sig}
    {cmds : List Hash} {p : Hash} {ps : List Hash} {extra : List UInt8} {x : Hash}
    (hx : (s.store_proposed config cmds p ps extra).delivered x = true) :
    s.delivered x = true := by
  by_cases hxb : x = config.get_hash (s.proposed cmds (p :: ps) extra)
  · cases hb : s.storage (config.get_hash (s.proposed cmds (p :: ps) extra)) with
    | none => simp [store_proposed_of_none hb, delivered, hxb, put, new_block,
        with_empty_qc] at hx
    | some b => simpa [store_proposed_of_some hb, delivered, hxb, put, hb, with_empty_qc] using hx
  · cases hb : s.storage (config.get_hash (s.proposed cmds (p :: ps) extra)) with
    | none => simpa [store_proposed_of_none hb, delivered, hxb, put] using hx
    | some b => simpa [store_proposed_of_some hb, delivered, hxb, put] using hx

/-- A call delivers at most the block that it names or proposes. -/
theorem call_delivered (config : Config Hash Sig) (s : HotStuffCore Hash Sig) (c : Call Hash Sig) :
    (s.call config c).Leaves fun s' => ∀ y, s'.delivered y = true → s.delivered y = true ∨
      c = .on_deliver_blk y ∨ ∃ cmds parents extra, c = .on_propose cmds parents extra ∧
        y = config.get_hash (s.proposed cmds parents extra) := by
  have hone : ∀ (s : HotStuffCore Hash Sig) blk, (s.on_deliver_blk blk).Leaves fun s' =>
      ∀ y, s'.delivered y = true → s.delivered y = true ∨ y = blk := by
    intro s blk
    cases hb : s.storage blk with
    | none => simp [on_deliver_blk, hb]
    | some b =>
      cases hd : b.delivered with
      | true =>
        rw [on_deliver_blk_of_delivered hb hd, Outcome.leaves_ok]
        exact fun y hy => .inl hy
      | false =>
        refine (on_deliver_blk_leaves hb hd).mono fun s' h y hy => ?_
        obtain ⟨b', t, -, rfl, -⟩ := h
        by_cases hyb : y = blk
        · exact .inr hyb
        · exact .inl (by simpa [delivered, put, hyb] using hy)
  cases c with
  | add_blk data =>
    cases hb : s.storage (config.get_hash data) with
    | none =>
      rw [call_add_blk_of_none hb, Outcome.leaves_ok]
      intro y hy
      by_cases hyb : y = config.get_hash data
      · simp [delivered, put, hyb, Block.unserialize] at hy
      · exact .inl (by simpa [delivered, put, hyb] using hy)
    | some b =>
      rw [call_add_blk_of_isSome (by simp [hb]), Outcome.leaves_ok]
      exact fun y hy => .inl hy
  | on_deliver_blk blk =>
    refine (hone s blk).mono fun s' h y hy => ?_
    rcases h y hy with hy | rfl
    · exact .inl hy
    · exact .inr (.inl rfl)
  | on_propose cmds parents extra =>
    have hk : Kept config fun s' : HotStuffCore Hash Sig => ∀ y, s'.delivered y = true →
        s.delivered y = true ∨ y = config.get_hash (s.proposed cmds parents extra) :=
      kept_of_sameShape config fun _ _ hsh hP y hy => hP y ((hsh y).delivered.symm.trans hy)
    refine (hk.on_propose (fun y hy => .inl hy) cmds parents extra fun p ps hps => ?_).mono
      fun s' h y hy => (h y hy).imp_right fun hy => .inr ⟨cmds, parents, extra, rfl, hy⟩
    subst hps
    exact (hone _ _).mono fun s' h y hy => (h y hy).imp_left delivered_of_store_proposed
  | on_receive_proposal prop =>
    have hk : Kept config fun s' : HotStuffCore Hash Sig => ∀ y, s'.delivered y = true →
        s.delivered y = true :=
      kept_of_sameShape config fun _ _ hsh hP y hy => hP y ((hsh y).delivered.symm.trans hy)
    exact (hk.on_receive_proposal (fun y hy => hy) prop).mono fun s' h y hy => .inl (h y hy)
  | on_receive_vote vote =>
    exact (on_receive_vote_sameShape config s vote).mono fun s' h y hy =>
      .inl ((h y).delivered.symm.trans hy)
  | set_vote_disabled f => exact Outcome.leaves_ok.mpr fun y hy => .inl hy

/-! ## What is not stored -/

theorem on_deliver_blk_stores (s : HotStuffCore Hash Sig) (blk : Hash) :
    (s.on_deliver_blk blk).Leaves fun s' => ∀ h, s.storage h = none → s'.storage h = none := by
  cases hb : s.storage blk with
  | none => simp [on_deliver_blk, hb]
  | some b =>
    cases hd : b.delivered with
    | true =>
      rw [on_deliver_blk_of_delivered hb hd, Outcome.leaves_ok]
      exact fun _ hn => hn
    | false =>
      refine (on_deliver_blk_leaves hb hd).mono fun s' hs' h hn => ?_
      obtain ⟨b', t, -, rfl, -⟩ := hs'
      have hne : h ≠ blk := by
        rintro rfl
        rw [hb] at hn
        cases hn
      exact (storage_put_of_ne s b' hne).trans hn

theorem store_proposed_stores (config : Config Hash Sig) (s : HotStuffCore Hash Sig)
    (cmds : List Hash) (p : Hash) (ps : List Hash) (extra : List UInt8) (h : Hash)
    (hn : s.storage h = none) (hne : h ≠ config.get_hash (s.proposed cmds (p :: ps) extra)) :
    (s.store_proposed config cmds p ps extra).storage h = none := by
  cases hb : s.storage (config.get_hash (s.proposed cmds (p :: ps) extra)) with
  | none =>
    rw [store_proposed_of_none hb]
    exact (storage_put_of_ne s _ hne).trans hn
  | some b =>
    rw [store_proposed_of_some hb]
    exact (storage_put_of_ne s _ hne).trans hn

/-- What a call of the core can store is the block that it proposes. -/
theorem call_stores (config : Config Hash Sig) (s : HotStuffCore Hash Sig)
    (c : Call Hash Sig) (hc : ∀ data, c ≠ .add_blk data) :
    (s.call config c).Leaves fun s' => ∀ h, s.storage h = none → s'.storage h = none ∨
      ∃ cmds parents extra, c = .on_propose cmds parents extra ∧
        h = config.get_hash (s.proposed cmds parents extra) := by
  cases c with
  | add_blk data => exact absurd rfl (hc data)
  | on_deliver_blk blk =>
    exact (on_deliver_blk_stores s blk).mono fun s' hs' h hn => .inl (hs' h hn)
  | on_propose cmds parents extra =>
    have hk : Kept config fun s' : HotStuffCore Hash Sig => ∀ h,
        s.storage h = none →
          s'.storage h = none ∨ h = config.get_hash (s.proposed cmds parents extra) :=
      kept_of_sameShape config fun _ _ hsh hP h hn => (hP h hn).imp_left (hsh h).none
    refine (hk.on_propose (fun h hn => .inl hn) cmds parents extra fun p ps hps => ?_).mono
      fun s' hs' h hn => (hs' h hn).imp_right fun heq => ⟨cmds, parents, extra, rfl, heq⟩
    subst hps
    refine (on_deliver_blk_stores _ _).mono fun s' hs' h hn => ?_
    by_cases hne : h = config.get_hash (s.proposed cmds (p :: ps) extra)
    · exact .inr hne
    · exact .inl (hs' h (store_proposed_stores config s cmds p ps extra h hn hne))
  | on_receive_proposal prop =>
    have hk : Kept config fun s' : HotStuffCore Hash Sig => ∀ h,
        s.storage h = none → s'.storage h = none :=
      kept_of_sameShape config fun _ _ hsh hP h hn => (hsh h).none (hP h hn)
    exact (hk.on_receive_proposal (fun _ hn => hn) prop).mono fun s' hs' h hn => .inl (hs' h hn)
  | on_receive_vote vote =>
    exact (on_receive_vote_sameShape config s vote).mono fun s' hsh h hn =>
      .inl ((hsh h).none hn)
  | set_vote_disabled f => exact Outcome.leaves_ok.mpr fun h hn => .inl hn

/-- The replica stores finitely many blocks. -/
def Bounded (s : HotStuffCore Hash Sig) : Prop :=
  ∃ F : Finset Hash, ∀ h, (s.storage h).isSome → h ∈ F

/-- Besides what was there, only blocks of `G` are stored. -/
theorem Bounded.of_new {s s' : HotStuffCore Hash Sig} (hs : s.Bounded) (G : Finset Hash)
    (hnew : ∀ h, s.storage h = none → s'.storage h = none ∨ h ∈ G) : s'.Bounded := by
  obtain ⟨F, hF⟩ := hs
  refine ⟨F ∪ G, fun h hs' => Finset.mem_union.mpr ?_⟩
  cases hn : s.storage h with
  | some b => exact .inl (hF h (by simp [hn]))
  | none =>
    rcases hnew h hn with hnone | hmem
    · rw [hnone] at hs'
      cases hs'
    · exact .inr hmem

theorem Bounded.call {s : HotStuffCore Hash Sig} (hs : s.Bounded) (config : Config Hash Sig)
    (c : Call Hash Sig) : (s.call config c).Leaves Bounded := by
  by_cases hadd : ∃ data, c = .add_blk data
  · obtain ⟨data, rfl⟩ := hadd
    refine Outcome.leaves_ok.mpr (hs.of_new {config.get_hash data} fun h hn => ?_)
    by_cases hh : h = config.get_hash data
    · exact .inr (Finset.mem_singleton.mpr hh)
    · refine .inl ?_
      unfold EntityStorage.add_blk
      split
      · exact hn
      · simpa [hh] using hn
  · intro s' hs'
    have hnew := call_stores config s c (fun data hc => hadd ⟨data, hc⟩) s' hs'
    by_cases hp : ∃ cmds parents extra, c = .on_propose cmds parents extra
    · obtain ⟨cmds, parents, extra, rfl⟩ := hp
      refine hs.of_new {config.get_hash (s.proposed cmds parents extra)} fun h hn => ?_
      refine (hnew h hn).imp_right fun ⟨_, _, _, heq, hh⟩ => ?_
      cases heq
      exact Finset.mem_singleton.mpr hh
    · refine hs.of_new ∅ fun h hn => (hnew h hn).imp_right fun ⟨_, _, _, heq, _⟩ => ?_
      exact absurd ⟨_, _, _, heq⟩ hp

/-! ## Laws of the stored blocks -/

/-- A law of the stored blocks that no call breaks, as long as the state is `ok`: it goes over to
a grown storage, and holds of what arrives and of what a delivery leaves. -/
structure StoredLaw (config : Config Hash Sig) (ok : HotStuffCore Hash Sig → Prop)
    (L : HotStuffCore Hash Sig → Hash → Block Hash Sig → Prop) : Prop where
  hash : ∀ {s h b}, L s h b → config.get_hash b.toBlockData = h
  mono : ∀ {s s' h b b'}, L s h b → Grows s s' → shape b' = shape b → L s' h b'
  arrives : ∀ s data, L s (config.get_hash data) (.unserialize data)
  delivery : ∀ {s s' b b'}, ok s → Grows s s' → b.delivered = false → Delivery s b b' →
    L s' (config.get_hash b.toBlockData) b'
  ok_grows : ∀ {s s'}, ok s → Grows s s' → (∀ x, s'.delivered x = true → s.delivered x = true) →
    ok s'

section StoredLaws

variable {config : Config Hash Sig} {ok : HotStuffCore Hash Sig → Prop}
  {L : HotStuffCore Hash Sig → Hash → Block Hash Sig → Prop} {s s' : HotStuffCore Hash Sig}

omit [DecidableEq Hash] in
theorem StoredLaw.of_sameShape (hL : StoredLaw config ok L) (hs : SameShape s s')
    (h : Lawful config L s) : Lawful config L s' where
  genesis := (hs config.b0).trans h.genesis
  law x b' hx hb' := by
    obtain ⟨b, hb, hsh⟩ := (hs.symm x).block hb'
    exact hL.mono (h.law x b hx hb) hs.grows hsh.symm

/-- The law of the block that is delivered need not hold before. -/
theorem StoredLaw.of_delivery (hL : StoredLaw config ok L) (hs : ok s) {blk : Hash}
    {b b' : Block Hash Sig} (t : Finset Hash)
    (hgen : (s.storage config.b0).map shape = some (shape (HotStuffCore.genesis config)))
    (hlaw : ∀ h c, h ≠ config.b0 → h ≠ blk → s.storage h = some c → L s h c)
    (hb : s.storage blk = some b) (hd : b.delivered = false)
    (hhash : config.get_hash b.toBlockData = blk) (hdel : Delivery s b b') :
    Lawful config L { s.put blk b' with tails := t } := by
  have hg : Grows s { s.put blk b' with tails := t } :=
    (Grows.put hb hd hdel.toBlockData_eq).trans (SameShape.of_storage_eq rfl).grows
  refine ⟨?_, fun x c hx hc => ?_⟩
  · have hne : config.b0 ≠ blk := by
      intro heq
      rw [heq, hb, Option.map_some, Option.some.injEq] at hgen
      have : b.delivered = true := congrArg (·.delivered) hgen
      simp [hd] at this
    exact (congrArg _ (storage_put_of_ne s b' hne)).trans hgen
  · by_cases hxb : x = blk
    · subst hxb
      have hc : b' = c := Option.some.inj ((storage_put_self s x b').symm.trans hc)
      subst hc
      have hlawful := hL.delivery hs hg hd hdel
      rwa [hhash] at hlawful
    · have hc : s.storage x = some c := (storage_put_of_ne s b' hxb).symm.trans hc
      exact hL.mono (hlaw x c hx hxb hc) hg rfl

theorem StoredLaw.on_deliver_blk (hL : StoredLaw config ok L) (h : Lawful config L s) (hs : ok s)
    (blk : Hash) : (s.on_deliver_blk blk).Leaves (Lawful config L) := by
  cases hb : s.storage blk with
  | none => simp [HotStuffCore.on_deliver_blk, hb]
  | some b =>
    cases hd : b.delivered with
    | true =>
      rw [on_deliver_blk_of_delivered hb hd, Outcome.leaves_ok]
      exact h
    | false =>
      have hblk := h.ne_b0 hb hd
      refine (on_deliver_blk_leaves hb hd).mono fun s' hs' => ?_
      obtain ⟨b', t, hdel, rfl, -⟩ := hs'
      exact hL.of_delivery hs t h.genesis (fun x c hx _ hc => h.law x c hx hc) hb hd
        (hL.hash (h.law blk b hblk hb)) hdel

theorem StoredLaw.add_blk (hL : StoredLaw config ok L) (h : Lawful config L s)
    {data : BlockData Hash Sig} (hb : s.storage (config.get_hash data) = none) :
    Lawful config L (s.put (config.get_hash data) (.unserialize data)) := by
  have hne : config.b0 ≠ config.get_hash data := by
    intro heq
    have hgen := h.genesis
    rw [heq, hb] at hgen
    cases hgen
  refine ⟨(congrArg _ (storage_put_of_ne s _ hne)).trans h.genesis, fun x c hx hc => ?_⟩
  by_cases hxh : x = config.get_hash data
  · rw [hxh, storage_put_self, Option.some.injEq] at hc
    rw [← hc, hxh]
    exact hL.arrives _ data
  · rw [storage_put_of_ne s _ hxh] at hc
    exact hL.mono (h.law x c hx hc) (Grows.put_new hb _) rfl

theorem StoredLaw.deliver_proposed (hL : StoredLaw config ok L) (h : Lawful config L s)
    (hs : ok s) (cmds : List Hash) (p : Hash) (ps : List Hash) (extra : List UInt8) :
    ((s.store_proposed config cmds p ps extra).on_deliver_blk
      (config.get_hash (s.proposed cmds (p :: ps) extra))).Leaves (Lawful config L) := by
  have hg := store_proposed_grows config s cmds p ps extra
  have hs1 := hL.ok_grows hs hg fun _ => delivered_of_store_proposed
  cases hb : s.storage (config.get_hash (s.proposed cmds (p :: ps) extra)) with
  | none =>
    have hput := store_proposed_of_none hb
    generalize s.store_proposed config cmds p ps extra = s1 at hg hs1 hput ⊢
    have hb1 := congrArg (·.storage (config.get_hash (s.proposed cmds (p :: ps) extra))) hput
    have hb1 := hb1.trans (storage_put_self s _ _)
    refine (on_deliver_blk_leaves hb1 rfl).mono fun s' hs' => ?_
    obtain ⟨b', t, hdel, rfl, -⟩ := hs'
    refine hL.of_delivery hs1 t ?_ (fun x c hx hxb hc => ?_) hb1 rfl rfl hdel
    · rw [hg.sameAt h.b0_delivered]
      exact h.genesis
    · rw [hput] at hc
      have hc : s.storage x = some c := (storage_put_of_ne s _ hxb).symm.trans hc
      exact hL.mono (h.law x c hx hc) hg rfl
  | some b =>
    exact hL.on_deliver_blk (hL.of_sameShape (store_proposed_sameShape hb) h) hs1 _

/-- Whatever a replica is called with, its blocks stay lawful. -/
theorem StoredLaw.call (hL : StoredLaw config ok L) (h : Lawful config L s) (hs : ok s)
    (c : Call Hash Sig) : (s.call config c).Leaves (Lawful config L) := by
  have hk : Kept config (Lawful config L) :=
    kept_of_sameShape config fun _ _ hsh hP => hL.of_sameShape hsh hP
  cases c with
  | add_blk data =>
    cases hb : s.storage (config.get_hash data) with
    | none =>
      rw [call_add_blk_of_none hb, Outcome.leaves_ok]
      exact hL.add_blk h hb
    | some b =>
      rw [call_add_blk_of_isSome (by simp [hb]), Outcome.leaves_ok]
      exact h
  | on_deliver_blk blk => exact hL.on_deliver_blk h hs blk
  | on_propose cmds parents extra =>
    exact hk.on_propose h cmds parents extra fun p ps _ =>
      hL.deliver_proposed h hs cmds p ps extra
  | on_receive_proposal prop => exact hk.on_receive_proposal h prop
  | on_receive_vote vote =>
    exact (on_receive_vote_sameShape config s vote).mono fun _ hsh => hL.of_sameShape hsh h
  | set_vote_disabled f =>
    exact Outcome.leaves_ok.mpr (hL.of_sameShape (SameShape.of_storage_eq (s := s) rfl) h)

omit [DecidableEq Hash] in
/-- What on delivery becomes of the parents: those of the block that are delivered. -/
theorem Delivery.parents_delivered {b b' : Block Hash Sig} (h : Delivery s b b') :
    ∀ p ∈ b'.parents, s.delivered p = true := by
  cases h with
  | blocked => exact fun p hp => List.mem_takeWhile_imp hp
  | unfetched p ps hp hps hq => exact hps
  | delivered p ps hp hps hq => exact hps

end StoredLaws

/-! ## The stored blocks of a run -/

omit [DecidableEq Hash] in
/-- Where the chains are short, the height of a delivered block is one above its parent's. -/
theorem storedLaw_block (config : Config Hash Sig) :
    StoredLaw config Short (BlockLaw config) where
  hash h := h.hash
  mono h hg hb := h.mono hg hb
  arrives s data := ⟨rfl, fun p hp => by simp [Block.unserialize] at hp,
    fun hd => by simp [Block.unserialize] at hd⟩
  delivery {s s' b b'} hs hg hd hdel := by
    refine ⟨by rw [hdel.toBlockData_eq], fun p hp => hg.delivered (hdel.parents_delivered p hp),
      fun hd' => ?_⟩
    cases hdel with
    | blocked h => simp [hd] at hd'
    | unfetched p ps hp hps hq => simp [hd] at hd'
    | delivered p ps hp hps hq =>
      have hpd : s.delivered p = true := hps p List.mem_cons_self
      refine ⟨p, ps, hp, rfl, ?_, rfl, hg.isSome hq⟩
      rw [(hg.sameAt hpd).height]
      exact Nat.mod_eq_of_lt (hs p hpd)
  ok_grows hs hg hd := hs.of_grows hg hd

theorem on_deliver_blk_blocksOk {config : Config Hash Sig} {s : HotStuffCore Hash Sig}
    (h : BlocksOk config s) (hshort : s.Short) (blk : Hash) :
    (s.on_deliver_blk blk).Leaves (BlocksOk config) :=
  ((storedLaw_block config).on_deliver_blk h.lawful hshort blk).mono fun _ => Lawful.blocksOk

theorem deliver_proposed_blocksOk {config : Config Hash Sig} {s : HotStuffCore Hash Sig}
    (h : BlocksOk config s) (hshort : s.Short) (cmds : List Hash) (p : Hash) (ps : List Hash)
    (extra : List UInt8) :
    ((s.store_proposed config cmds p ps extra).on_deliver_blk
      (config.get_hash (s.proposed cmds (p :: ps) extra))).Leaves (BlocksOk config) :=
  ((storedLaw_block config).deliver_proposed h.lawful hshort cmds p ps extra).mono
    fun _ => Lawful.blocksOk

/-- The stored blocks stay lawful, as long as the chains are short. -/
theorem call_blocksOk (config : Config Hash Sig) {s : HotStuffCore Hash Sig}
    (h : BlocksOk config s) (hshort : s.Short) (c : Call Hash Sig) :
    (s.call config c).Leaves (BlocksOk config) :=
  ((storedLaw_block config).call h.lawful hshort c).mono fun _ => Lawful.blocksOk

end HotStuffCore

end general_hotstuff
