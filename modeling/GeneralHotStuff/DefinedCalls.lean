-- No call reads `parents[0]` of a block without parents, as long as blocks name a parent
-- and a replica proposes on delivered blocks. With the commit log this is what one
-- replica guarantees by itself.
import GeneralHotStuff.CommitLog

namespace general_hotstuff

open quorums (ReplicaID)

namespace HotStuffCore

variable {Hash Sig : Type}

/-! ## Blocks that wait for delivery -/

/-- What `on_deliver_blk` can have left of a block that is not delivered yet. -/
structure Waiting (s : HotStuffCore Hash Sig) (b : Block Hash Sig) : Prop where
  qc_ref : b.qc_ref = none
  height : b.parents = [] → b.height = 0
  parent : ∀ p, b.parents.head? = some p →
    b.parent_hashes.head? = some p ∧ (b.height = 0 ∨ b.height = s.height p + 1)

structure Clean (config : Config Hash Sig) (s : HotStuffCore Hash Sig) : Prop where
  names : ∀ h b, h ≠ config.b0 → s.storage h = some b → b.parent_hashes ≠ []
  waiting : ∀ h b, s.storage h = some b → b.delivered = false → s.Waiting b

theorem Waiting.mono {s s' : HotStuffCore Hash Sig} {b b' : Block Hash Sig} (h : s.Waiting b)
    (hg : Grows s s') (hp : ∀ p ∈ b.parents, s.delivered p = true) (hb : shape b' = shape b) :
    s'.Waiting b' := by
  have hparents : b'.parents = b.parents := congrArg (·.parents) hb
  have hheight : b'.height = b.height := congrArg (·.height) hb
  have hnames : b'.parent_hashes = b.parent_hashes := congrArg (·.parent_hashes) hb
  refine ⟨(congrArg (·.qc_ref) hb).trans h.qc_ref, fun hn => ?_, fun p hpar => ?_⟩
  · rw [hheight]
    exact h.height (hparents ▸ hn)
  · rw [hparents] at hpar
    rw [hheight, hnames, (hg.sameAt (hp p (List.mem_of_head? hpar))).height]
    exact h.parent p hpar

theorem BlocksOk.ne_b0 {config : Config Hash Sig} {s : HotStuffCore Hash Sig}
    (hok : BlocksOk config s) {x : Hash} {b : Block Hash Sig} (hb : s.storage x = some b)
    (hd : b.delivered = false) : x ≠ config.b0 := hok.lawful.ne_b0 hb hd

theorem Clean.of_sameShape {config : Config Hash Sig} {s s' : HotStuffCore Hash Sig}
    (hs : SameShape s s') (hok : BlocksOk config s) (h : Clean config s) : Clean config s' where
  names x b' hx hb' := by
    obtain ⟨b, hb, hsh⟩ := (hs.symm x).block hb'
    exact (congrArg (·.parent_hashes) hsh) ▸ h.names x b hx hb
  waiting x b' hb' hd := by
    obtain ⟨b, hb, hsh⟩ := (hs.symm x).block hb'
    have hd' : b.delivered = false := (congrArg (·.delivered) hsh).trans hd
    exact (h.waiting x b hb hd').mono hs.grows
      (hok.law x b (hok.ne_b0 hb hd') hb).parents hsh.symm

/-- One block is written, and that one is in order. -/
theorem Clean.write {config : Config Hash Sig} {s s' : HotStuffCore Hash Sig} {blk : Hash}
    {b' : Block Hash Sig} (hok : BlocksOk config s) (h : Clean config s) (hg : Grows s s')
    (hne : ∀ x, x ≠ blk → s'.storage x = s.storage x) (hb' : s'.storage blk = some b')
    (hnames : b'.parent_hashes ≠ []) (hw : b'.delivered = false → s'.Waiting b') :
    Clean config s' where
  names x c hx hc := by
    by_cases hxb : x = blk
    · rw [hxb, hb', Option.some.injEq] at hc
      exact hc ▸ hnames
    · exact h.names x c hx ((hne x hxb).symm.trans hc)
  waiting x c hc hd := by
    by_cases hxb : x = blk
    · rw [hxb, hb', Option.some.injEq] at hc
      subst hc
      exact hw hd
    · have hc' : s.storage x = some c := (hne x hxb).symm.trans hc
      exact (h.waiting x c hc' hd).mono hg (hok.law x c (hok.ne_b0 hc' hd) hc').parents rfl

theorem Delivery.waiting {s : HotStuffCore Hash Sig} {b b' : Block Hash Sig}
    (hpar : ∀ p ∈ b.parents, s.delivered p = true) (hw : s.Waiting b) (hshort : s.Short)
    (hdel : Delivery s b b') (hd : b'.delivered = false) : s.Waiting b' := by
  cases hdel with
  | blocked hlt =>
    -- the parents taken over before are among those taken over now
    have hkeep : ∀ p, b.parents.head? = some p →
        (b.parent_hashes.takeWhile s.delivered).head? = some p := by
      intro p hp
      rw [List.head?_takeWhile, (hw.parent p hp).1, Option.filter_some]
      exact if_pos (hpar p (List.mem_of_head? hp))
    refine ⟨hw.qc_ref, fun hn => ?_, fun p hp => ?_⟩
    · cases hp : b.parents with
      | nil => exact hw.height hp
      | cons p ps =>
        have hp' := hkeep p (by rw [hp]; rfl)
        simp only at hn
        rw [hn] at hp'
        cases hp'
    · have hhead : b.parent_hashes.head? = some p := by
        rw [List.head?_takeWhile, Option.filter_eq_some_iff] at hp
        exact hp.1
      refine ⟨hhead, ?_⟩
      cases hq : b.parents with
      | nil => exact .inl (hw.height hq)
      | cons q qs =>
        have hq' := hw.parent q (by rw [hq]; rfl)
        rw [hhead, Option.some.injEq] at hq'
        exact hq'.1 ▸ hq'.2
  | unfetched p ps hp hps hq =>
    refine ⟨hw.qc_ref, fun hn => ?_, fun q hq' => ?_⟩
    · cases hn
    have hpq : p = q := Option.some.inj hq'
    subst hpq
    exact ⟨by rw [hp]; rfl, .inr (Nat.mod_eq_of_lt (hshort p (hps p List.mem_cons_self)))⟩
  | delivered => cases hd

variable [DecidableEq Hash]

theorem on_deliver_blk_clean {config : Config Hash Sig} {s : HotStuffCore Hash Sig}
    (hok : BlocksOk config s) (h : Clean config s) (hshort : s.Short) (blk : Hash) :
    (s.on_deliver_blk blk).Leaves (Clean config) := by
  cases hb : s.storage blk with
  | none => simp [on_deliver_blk, hb]
  | some b =>
    cases hd : b.delivered with
    | true =>
      rw [on_deliver_blk_of_delivered hb hd, Outcome.leaves_ok]
      exact h
    | false =>
      refine (on_deliver_blk_leaves hb hd).mono fun s' hs' => ?_
      obtain ⟨b', t, hdel, rfl, -⟩ := hs'
      have hne := hok.ne_b0 hb hd
      have hlaw := hok.law blk b hne hb
      have hg : Grows s { s.put blk b' with tails := t } :=
        (Grows.put hb hd hdel.toBlockData_eq).trans (SameShape.of_storage_eq rfl).grows
      refine h.write hok hg (fun x hx => storage_put_of_ne s b' hx) (storage_put_self s blk b')
        ?_ fun hd' => ?_
      · rw [hdel.toBlockData_eq]
        exact h.names blk b hne hb
      · have hw := hdel.waiting hlaw.parents (h.waiting blk b hb hd) hshort hd'
        refine hw.mono hg (fun p hp => ?_) rfl
        cases hdel with
        | blocked hlt => exact List.mem_takeWhile_imp hp
        | unfetched q qs hq hqs hqc => exact hqs p hp
        | delivered q qs hq hqs hqc => exact hqs p hp

/-- `on_propose` on delivered parents delivers its block, or finds it delivered, or finds it
waiting. -/
theorem deliver_proposed_clean {config : Config Hash Sig} {s : HotStuffCore Hash Sig}
    (hok : BlocksOk config s) (hcerts : s.CertsOk) (h : Clean config s) (hshort : s.Short)
    (cmds : List Hash) (p : Hash) (ps : List Hash) (extra : List UInt8)
    (hps : ∀ x ∈ p :: ps, s.delivered x = true) :
    ((s.store_proposed config cmds p ps extra).on_deliver_blk
      (config.get_hash (s.proposed cmds (p :: ps) extra))).Leaves (Clean config) := by
  have hg := store_proposed_grows config s cmds p ps extra
  cases hb : s.storage (config.get_hash (s.proposed cmds (p :: ps) extra)) with
  | some b =>
    have hsh := store_proposed_sameShape hb
    exact on_deliver_blk_clean (hok.of_sameShape hsh) (h.of_sameShape hsh hok)
      (hshort.of_grows hg fun _ => delivered_of_store_proposed) _
  | none =>
    have hs1 := store_proposed_of_none hb
    generalize s.store_proposed config cmds p ps extra = s1 at hg hs1 ⊢
    have hb1 := congrArg (·.storage (config.get_hash (s.proposed cmds (p :: ps) extra))) hs1
    have hb1 := hb1.trans (storage_put_self s _ _)
    have hqc : (s1.storage s.hqc.2.obj_hash).isSome := by
      rw [hcerts.hqc]
      exact hg.isSome hcerts.stored
    have hdo := on_deliver_blk_ok hb1 rfl (p := p) (t := ps) rfl
      (fun x hx => hg.delivered (hps x hx)) hqc
    have hgd := on_deliver_blk_grows s1 (config.get_hash (s.proposed cmds (p :: ps) extra))
    rw [hdo, Outcome.leaves_ok] at hgd ⊢
    refine h.write hok (hg.trans hgd) (fun x hx => ?_)
      (storage_put_self s1 (config.get_hash (s.proposed cmds (p :: ps) extra)) _)
      (List.cons_ne_nil p ps) fun hd => by cases hd
    refine (storage_put_of_ne s1 _ hx).trans ?_
    rw [hs1]
    exact storage_put_of_ne s _ hx

/-! ## Replicas that are called properly -/

/-- Blocks name a parent, what is delivered was fetched, and proposals are on delivered blocks. -/
def Proper (s : HotStuffCore Hash Sig) : Call Hash Sig → Prop
  | .add_blk data => s.Short ∧ data.parent_hashes ≠ []
  | .on_deliver_blk blk => s.Short ∧ (s.storage blk).isSome
  | .on_propose _ parents _ => s.Short ∧ ∀ p ∈ parents, s.delivered p = true
  | _ => s.Short

omit [DecidableEq Hash] in
theorem Proper.short {s : HotStuffCore Hash Sig} {c : Call Hash Sig} (h : s.Proper c) :
    s.Short := by
  cases c with
  | add_blk data => exact h.1
  | on_deliver_blk blk => exact h.1
  | on_propose cmds parents extra => exact h.1
  | on_receive_proposal prop => exact h
  | on_receive_vote vote => exact h
  | set_vote_disabled f => exact h

/-- All that is known of a replica that is called properly. -/
structure Sound (config : Config Hash Sig) (s : HotStuffCore Hash Sig) : Prop where
  blocks : BlocksOk config s
  certs : s.CertsOk
  clean : Clean config s
  log : LogOk config s

theorem kept_sound (config : Config Hash Sig) :
    Kept config (Sound config) where
  update s nblk h hd s' hs' :=
    have hsh := update_sameShape config s nblk s' hs'
    ⟨h.blocks.of_sameShape hsh, update_certsOk config h.blocks h.certs hd s' hs',
      h.clean.of_sameShape hsh h.blocks, h.log.update h.blocks nblk s' hs'⟩
  vote_on s prop h s' hs' :=
    have hsh := vote_on_sameShape config s prop s' hs'
    have hcerts := (kept_certsOk config).vote_on s prop ⟨h.blocks, h.certs⟩ s' hs'
    ⟨h.blocks.of_sameShape hsh, hcerts.2, h.clean.of_sameShape hsh h.blocks,
      h.log.quiet h.blocks.grounded (vote_on_quiet config s prop s' hs')⟩
  broadcast s prop h :=
    have hsh := SameShape.of_storage_eq (s := s) rfl
    have hcerts := (kept_certsOk config).broadcast s prop ⟨h.blocks, h.certs⟩
    have hlog := (kept_logOk config).broadcast s prop ⟨h.blocks, h.log⟩
    ⟨hcerts.1, hcerts.2, h.clean.of_sameShape hsh h.blocks, hlog.2⟩

theorem Sound.deliver_proposed {config : Config Hash Sig} {s : HotStuffCore Hash Sig}
    (h : Sound config s) (hshort : s.Short) (cmds : List Hash) (p : Hash) (ps : List Hash)
    (extra : List UInt8) (hps : ∀ x ∈ p :: ps, s.delivered x = true) :
    ((s.store_proposed config cmds p ps extra).on_deliver_blk
      (config.get_hash (s.proposed cmds (p :: ps) extra))).Leaves (Sound config) := by
  intro s' hs'
  have hq := (store_proposed_quiet config s cmds p ps extra).trans
    (on_deliver_blk_quiet _ _ s' hs')
  have hv := on_deliver_blk_sameVotes _ _ s' hs'
  exact ⟨deliver_proposed_blocksOk h.blocks hshort cmds p ps extra s' hs',
    (store_proposed_certsOk h.certs cmds p ps extra).frame
      (on_deliver_blk_grows _ _ s' hs') hv.1 hv.2,
    deliver_proposed_clean h.blocks h.certs h.clean hshort cmds p ps extra hps s' hs',
    h.log.quiet h.blocks.grounded hq⟩

theorem call_clean (config : Config Hash Sig) {s : HotStuffCore Hash Sig} (h : Sound config s)
    {c : Call Hash Sig} (hc : s.Proper c) : (s.call config c).Leaves (Clean config) := by
  have hk := kept_sound config
  cases c with
  | add_blk data =>
    cases hb : s.storage (config.get_hash data) with
    | none =>
      rw [call_add_blk_of_none hb, Outcome.leaves_ok]
      exact h.clean.write h.blocks (Grows.put_new hb _)
        (fun x hx => storage_put_of_ne s _ hx) (storage_put_self s _ _) hc.2
        fun _ => ⟨rfl, fun _ => rfl, fun p hp => by simp [Block.unserialize] at hp⟩
    | some b =>
      rw [call_add_blk_of_isSome (by simp [hb]), Outcome.leaves_ok]
      exact h.clean
  | on_deliver_blk blk => exact on_deliver_blk_clean h.blocks h.clean hc.1 blk
  | on_propose cmds parents extra =>
    exact (hk.on_propose h cmds parents extra fun p ps hps =>
      h.deliver_proposed hc.1 cmds p ps extra (hps ▸ hc.2)).mono fun _ hs => hs.clean
  | on_receive_proposal prop =>
    exact (hk.on_receive_proposal h prop).mono fun _ hs => hs.clean
  | on_receive_vote vote =>
    exact (on_receive_vote_sameShape config s vote).mono fun _ hsh =>
      h.clean.of_sameShape hsh h.blocks
  | set_vote_disabled f =>
    exact Outcome.leaves_ok.mpr (h.clean.of_sameShape (SameShape.of_storage_eq (s := s) rfl)
      h.blocks)

theorem Run.sound {config : Config Hash Sig} {id : ReplicaID} {s : HotStuffCore Hash Sig}
    (h : Run config id Proper s) : Sound config s := by
  have hshort : ∀ (s : HotStuffCore Hash Sig) c, s.Proper c → s.Short := fun _ _ => Proper.short
  obtain ⟨hblocks, hcerts⟩ := h.blocksOk hshort
  refine ⟨hblocks, hcerts, ?_, h.logOk hshort⟩
  clear hblocks hcerts
  induction h with
  | init =>
    refine ⟨fun x b hx hb => ?_, fun x b hb hd => ?_⟩
    · simp [on_init, hx] at hb
    · by_cases hx : x = config.b0
      · simp only [on_init, hx, Function.update_self, Option.some.injEq] at hb
        rw [← hb] at hd
        cases hd
      · simp [on_init, hx] at hb
  | step hr hc hs ih =>
    obtain ⟨hblocks, hcerts⟩ := hr.blocksOk hshort
    exact call_clean config ⟨hblocks, hcerts, ih, hr.logOk hshort⟩ hc _ hs

/-! ## Every call has an outcome -/

/-- Every block above height 0 hangs on one just below it. -/
def Descending (s : HotStuffCore Hash Sig) : Prop :=
  ∀ x, 0 < s.height x → ∃ p, (s.parents x).head? = some p ∧ s.height x = s.height p + 1

/-- Every block above height `n` hangs on one just below it. -/
def DescendingAbove (s : HotStuffCore Hash Sig) (n : ℕ) : Prop :=
  ∀ x, n < s.height x → ∃ p, (s.parents x).head? = some p ∧ s.height x = s.height p + 1

omit [DecidableEq Hash] in
theorem DescendingAbove.walk_isSome {s : HotStuffCore Hash Sig} {n : ℕ} (h : s.DescendingAbove n)
    {bound : ℕ} (hn : n ≤ bound) {fuel : ℕ} {x : Hash} (hx : s.height x < fuel) :
    (s.walk bound fuel x).isSome := by
  induction fuel generalizing x with
  | zero => cases hx
  | succ fuel ih =>
    by_cases hlt : bound < s.height x
    · obtain ⟨p, hp, hheight⟩ := h x (lt_of_le_of_lt hn hlt)
      have hrest := @ih p (by omega)
      simp only [walk, if_pos hlt, hp, Option.bind_some, Option.isSome_map]
      exact hrest
    · simp [walk, hlt]

/-- What is delivered names a parent and is above height 0, except for genesis, which is decided. -/
def OverGenesis (config : Config Hash Sig) (s : HotStuffCore Hash Sig) : Prop :=
  ∀ x b, s.storage x = some b → b.delivered = true →
    b.parent_hashes ≠ [] ∧ 0 < b.height ∨ x = config.b0 ∧ b.height = 0 ∧ b.decision = true

omit [DecidableEq Hash] in
theorem BlocksOk.overGenesis {config : Config Hash Sig} {s : HotStuffCore Hash Sig}
    (h : BlocksOk config s) (hdec : s.decision config.b0 = true) : OverGenesis config s := by
  intro x b hb hd
  by_cases hx : x = config.b0
  · subst hx
    exact .inr ⟨rfl, (height_eq hb).symm.trans h.b0_height, (decision_eq hb).symm.trans hdec⟩
  · obtain ⟨p, ps, hph, -, hheight, -⟩ := (h.law x b hx hb).linked hd
    exact .inl ⟨by rw [hph]; exact List.cons_ne_nil p ps, by omega⟩

/-- A walk down to genesis ends there, so that the message of the exception is about two blocks that
name a parent. -/
theorem OverGenesis.commit_defined {config : Config Hash Sig} {s : HotStuffCore Hash Sig} {n : ℕ}
    (ho : OverGenesis config s) (h : s.DescendingAbove n) (hn : n ≤ s.height s.b_exec)
    (hpar : ∀ {x p}, (s.parents x).head? = some p → s.delivered p = true)
    (hexec : s.delivered s.b_exec = true) {blk : Hash} (hblk : s.delivered blk = true)
    (hdec : s.decision blk = false) : (s.commit blk).Defined := by
  have hw := h.walk_isSome hn (Nat.lt_succ_self (s.height blk))
  rcases commit_cases s blk with ⟨hnone | ⟨⟨passed, last, hwalk, hne⟩, hbare⟩, -⟩ | hc |
    ⟨passed, -, hc⟩
  · rw [hnone] at hw
    cases hw
  · obtain ⟨hhead, hchain, -, hlow⟩ := walk_spec hwalk
    obtain ⟨b, hb, hbd⟩ := exists_of_delivered
      (walk_delivered hpar hblk hhead hchain last (by simp))
    obtain ⟨c, hcs, hcd⟩ := exists_of_delivered hblk
    obtain ⟨e, hes, hed⟩ := exists_of_delivered hexec
    rw [parent_hashes, parent_hashes, hcs, hes] at hbare
    rw [height_eq hb, height_eq hes] at hlow
    rw [decision_eq hcs] at hdec
    rcases hbare with hbare | hbare
    · rcases ho blk c hcs hcd with ⟨hnames, -⟩ | ⟨-, -, hdec'⟩
      · exact absurd hbare hnames
      · simp [hdec] at hdec'
    · rcases ho s.b_exec e hes hed with ⟨hnames, -⟩ | ⟨hgen, hzero, -⟩
      · exact absurd hbare hnames
      · rcases ho last b hb hbd with ⟨-, hpos⟩ | ⟨hgen', -⟩
        · omega
        · exact absurd (hgen'.trans hgen.symm) hne
  · rw [hc]
    trivial
  · rw [hc]
    trivial

theorem OverGenesis.update_defined {config : Config Hash Sig} {s : HotStuffCore Hash Sig} {n : ℕ}
    (hover : OverGenesis config s) (h : s.DescendingAbove n) (hn : n ≤ s.height s.b_exec)
    (hpar : ∀ {x p}, (s.parents x).head? = some p → s.delivered p = true)
    (hexec : s.delivered s.b_exec = true) (ho : ¬ s.Orphaned) {nblk : Hash}
    (hd : s.delivered nblk = true) : (s.update config nblk).Defined := by
  obtain ⟨b, hb, hbd⟩ := exists_of_delivered hd
  rcases update_cases config hb with hu | ⟨horph, -⟩ | ⟨blk1, blk, hcom, hu⟩
  · rw [hu]
    trivial
  · exact absurd horph ho
  · rw [hu]
    have ht : OverGenesis config (s.touched config nblk b) := hover
    exact ht.commit_defined (s := s.touched config nblk b) h hn hpar hexec (hpar hcom.parent)
      (undecided_ref_eq_some.mp hcom.undecided_ref).2

theorem DescendingAbove.vote_on_defined {s : HotStuffCore Hash Sig} {n : ℕ}
    (h : s.DescendingAbove n) (hn : n ≤ s.height s.b_lock) (config : Config Hash Sig)
    (prop : Proposal Hash) : (s.vote_on config prop).Defined := by
  rcases vote_on_cases config prop s with ⟨ho, -⟩ | hv | ⟨-, hv⟩
  · have hw := h.walk_isSome hn (Nat.lt_succ_self (s.height prop.blk))
    unfold opinion at ho
    split at ho
    · cases ho
    · split at ho
      · cases ho
      · rw [Option.map_eq_none_iff] at ho
        rw [ho] at hw
        cases hw
  · rw [hv]
    trivial
  · rw [hv]
    trivial

omit [DecidableEq Hash] in
theorem Descending.walk_isSome {s : HotStuffCore Hash Sig} (h : s.Descending) (bound : ℕ)
    {fuel : ℕ} {x : Hash} (hx : s.height x < fuel) : (s.walk bound fuel x).isSome :=
  DescendingAbove.walk_isSome h bound.zero_le hx

theorem BlocksOk.update_defined {config : Config Hash Sig} {s : HotStuffCore Hash Sig}
    (hok : BlocksOk config s) (hdec : s.decision config.b0 = true)
    (hexec : s.delivered s.b_exec = true) (h : s.Descending) (ho : ¬ s.Orphaned) {nblk : Hash}
    (hd : s.delivered nblk = true) : (s.update config nblk).Defined :=
  (hok.overGenesis hdec).update_defined h (Nat.zero_le _) hok.parent_delivered hexec ho hd

theorem LogOk.update_defined {config : Config Hash Sig} {s : HotStuffCore Hash Sig}
    (hlog : LogOk config s) (hok : BlocksOk config s) (h : s.Descending) (ho : ¬ s.Orphaned)
    {nblk : Hash} (hd : s.delivered nblk = true) : (s.update config nblk).Defined :=
  hok.update_defined ((hlog.decided config.b0).mpr (.inl rfl)) (hlog.exec_delivered hok.grounded)
    h ho hd

theorem Descending.vote_on_defined {s : HotStuffCore Hash Sig} (h : s.Descending)
    (config : Config Hash Sig) (prop : Proposal Hash) : (s.vote_on config prop).Defined :=
  DescendingAbove.vote_on_defined h (Nat.zero_le _) config prop

omit [DecidableEq Hash] in
/-- A block that is higher than another one hangs on a block just below it. -/
theorem Clean.exists_parent {config : Config Hash Sig} {s : HotStuffCore Hash Sig}
    (h : Clean config s) (hok : BlocksOk config s) {x : Hash} (hx : 0 < s.height x) :
    ∃ p, (s.parents x).head? = some p ∧ s.height x = s.height p + 1 := by
  cases hb : s.storage x with
  | none => simp [height, hb] at hx
  | some b =>
    have hheight := height_eq hb
    have hne : x ≠ config.b0 := by
      intro heq
      rw [heq, hok.b0_height] at hx
      cases hx
    cases hd : b.delivered with
    | true =>
      obtain ⟨p, ps, -, hps, hh, -⟩ := (hok.law x b hne hb).linked hd
      exact ⟨p, by rw [parents_eq hb, hps]; rfl, hheight.trans hh⟩
    | false =>
      have hw := h.waiting x b hb hd
      cases hp : b.parents with
      | nil =>
        rw [hheight, hw.height hp] at hx
        cases hx
      | cons p ps =>
        have hpar := (hw.parent p (by rw [hp]; rfl)).2
        refine ⟨p, by rw [parents_eq hb, hp]; rfl, ?_⟩
        omega

omit [DecidableEq Hash] in
theorem Clean.descending {config : Config Hash Sig} {s : HotStuffCore Hash Sig}
    (h : Clean config s) (hok : BlocksOk config s) : s.Descending :=
  fun _ hx => h.exists_parent hok hx

omit [DecidableEq Hash] in
theorem Sound.not_orphaned {config : Config Hash Sig} {s : HotStuffCore Hash Sig}
    (h : Sound config s) : ¬ s.Orphaned := by
  rintro ⟨x, hdec, hpar, hq⟩
  cases hb : s.storage x with
  | none => simp [qc_ref, hb] at hq
  | some b =>
    have hne : x ≠ config.b0 := by
      intro heq
      have := (h.log.decided x).mpr (.inl heq)
      rw [hdec] at this
      cases this
    rw [parents_eq hb] at hpar
    rw [qc_ref_eq hb] at hq
    cases hd : b.delivered with
    | true =>
      obtain ⟨p, ps, -, hps, -⟩ := (h.blocks.law x b hne hb).linked hd
      rw [hps] at hpar
      cases hpar
    | false =>
      rw [(h.clean.waiting x b hb hd).qc_ref] at hq
      cases hq

theorem Sound.update_defined {config : Config Hash Sig} {s : HotStuffCore Hash Sig}
    (h : Sound config s) {nblk : Hash} (hd : s.delivered nblk = true) :
    (s.update config nblk).Defined :=
  h.log.update_defined h.blocks (h.clean.descending h.blocks) h.not_orphaned hd

theorem Sound.vote_on_defined {config : Config Hash Sig} {s : HotStuffCore Hash Sig}
    (h : Sound config s) (prop : Proposal Hash) : (s.vote_on config prop).Defined :=
  (h.clean.descending h.blocks).vote_on_defined config prop

theorem Sound.on_receive_proposal_defined {config : Config Hash Sig} {s : HotStuffCore Hash Sig}
    (h : Sound config s) (prop : Proposal Hash) :
    (s.on_receive_proposal config prop).Defined := by
  unfold on_receive_proposal
  split
  · exact h.vote_on_defined prop
  · split
    · rename_i hd
      refine (h.update_defined hd).andThen fun s1 hs1 => ?_
      have h1 := (kept_sound config).update s prop.blk h hd s1 (by rw [hs1]; rfl)
      exact h1.vote_on_defined prop
    · trivial

theorem on_deliver_blk_defined {s : HotStuffCore Hash Sig} {blk : Hash} {b : Block Hash Sig}
    (hb : s.storage blk = some b) (hn : b.delivered = false → b.parent_hashes ≠ []) :
    (s.on_deliver_blk blk).Defined := by
  cases hd : b.delivered with
  | true =>
    rw [on_deliver_blk_of_delivered hb hd]
    trivial
  | false =>
    simp only [on_deliver_blk, hb]
    rw [if_neg (by simp [hd])]
    split
    · trivial
    · rename_i hle
      split
      · rename_i hnil
        rw [takeWhile_eq_of_length hle] at hnil
        exact absurd hnil (hn hd)
      · split
        · trivial
        · trivial

theorem Sound.deliver_proposed_defined {config : Config Hash Sig} {s : HotStuffCore Hash Sig}
    (h : Sound config s) (cmds : List Hash) (p : Hash) (ps : List Hash) (extra : List UInt8) :
    ((s.store_proposed config cmds p ps extra).on_deliver_blk
      (config.get_hash (s.proposed cmds (p :: ps) extra))).Defined := by
  cases hb : s.storage (config.get_hash (s.proposed cmds (p :: ps) extra)) with
  | none =>
    rw [store_proposed_of_none hb]
    exact on_deliver_blk_defined (storage_put_self s _ _) fun _ => List.cons_ne_nil p ps
  | some b =>
    rw [store_proposed_of_some hb]
    exact on_deliver_blk_defined (storage_put_self s _ _) fun hd =>
      h.clean.names _ b (h.blocks.ne_b0 hb hd) hb

theorem Sound.on_propose_defined {config : Config Hash Sig} {s : HotStuffCore Hash Sig}
    (h : Sound config s) (cmds parents : List Hash) (extra : List UInt8) (hshort : s.Short)
    (hps : ∀ p ∈ parents, s.delivered p = true) :
    (s.on_propose config cmds parents extra).Defined := by
  cases parents with
  | nil => trivial
  | cons p ps =>
    have hk := kept_sound config
    refine (h.deliver_proposed_defined cmds p ps extra).andThen fun s1 hs1 => ?_
    have h1 := h.deliver_proposed hshort cmds p ps extra hps s1 (by rw [hs1]; rfl)
    have hd1 := delivered_of_on_deliver_blk hs1
    refine (h1.update_defined hd1).andThen fun s2 hs2 => ?_
    have h2 := hk.update s1 _ h1 hd1 s2 (by rw [hs2]; rfl)
    split
    · trivial
    · exact (h2.on_receive_proposal_defined _).andThen fun _ _ => trivial

theorem on_receive_vote_defined (config : Config Hash Sig) (s : HotStuffCore Hash Sig)
    (vote : Vote Hash Sig) : (s.on_receive_vote config vote).Defined := by
  rcases on_receive_vote_cases config vote s with hv | hv | ⟨b, -, -, -, -, hv⟩
  · rw [hv]
    trivial
  · rw [hv]
    trivial
  · generalize s.on_receive_vote config vote = o at hv
    cases hv with
    | mismatch => trivial
    | collected => trivial
    | computed => trivial

theorem Sound.call_defined {config : Config Hash Sig} {s : HotStuffCore Hash Sig}
    (h : Sound config s) {c : Call Hash Sig} (hc : s.Proper c) : (s.call config c).Defined := by
  cases c with
  | add_blk data => trivial
  | on_deliver_blk blk =>
    obtain ⟨b, hb⟩ := Option.isSome_iff_exists.mp hc.2
    exact on_deliver_blk_defined hb fun hd => h.clean.names blk b (h.blocks.ne_b0 hb hd) hb
  | on_propose cmds parents extra => exact h.on_propose_defined cmds parents extra hc.1 hc.2
  | on_receive_proposal prop => exact h.on_receive_proposal_defined prop
  | on_receive_vote vote => exact on_receive_vote_defined config s vote
  | set_vote_disabled f => trivial

/-! ## What one replica guarantees -/

/-- Whatever a replica is called with, its commits are a chain of first parents from genesis, each
passed on once with its decisions, and an `update` that throws commits nothing. Called properly,
no call goes wrong otherwise. -/
theorem the_commit_log_is_a_gapless_chain (config : Config Hash Sig) (id : ReplicaID) :
    (∀ s, Run config id (fun s _ => s.Short) s → GaplessLog config s ∧
      ∀ nblk s', s.update config nblk = .throw s' .safety_breached →
        s'.out = s.out ∧ s'.b_exec = s.b_exec) ∧
    ∀ s, Run config id Proper s → ∀ c, s.Proper c → (s.call config c).Defined := by
  refine ⟨fun s h => ⟨?_, fun nblk s' hs' => update_throw_keeps_log hs'⟩, fun s h c hc => ?_⟩
  · have hshort : ∀ (s : HotStuffCore Hash Sig) (_ : Call Hash Sig), s.Short → s.Short :=
      fun _ _ h => h
    exact (h.logOk hshort).gapless (h.blocksOk hshort).1
  · exact h.sound.call_defined hc

instance [Fintype Hash] (s : HotStuffCore Hash Sig) : Decidable s.Short :=
  inferInstanceAs (Decidable (∀ h, s.delivered h = true → s.height h + 1 < 2 ^ 32))

instance [Fintype Hash] (s : HotStuffCore Hash Sig) : ∀ c, Decidable (s.Proper c)
  | .add_blk data => inferInstanceAs (Decidable (s.Short ∧ data.parent_hashes ≠ []))
  | .on_deliver_blk blk => inferInstanceAs (Decidable (s.Short ∧ (s.storage blk).isSome = true))
  | .on_propose _ parents _ =>
    inferInstanceAs (Decidable (s.Short ∧ ∀ p ∈ parents, s.delivered p = true))
  | .on_receive_proposal _ => inferInstanceAs (Decidable s.Short)
  | .on_receive_vote _ => inferInstanceAs (Decidable s.Short)
  | .set_vote_disabled _ => inferInstanceAs (Decidable s.Short)

/-- Block `i + 1` on block `i` with a certificate on block `i`. -/
def next_block (i : ℕ) : BlockData (Fin 8) (ReplicaID × Fin 8) :=
  ⟨[hash_of i], [hash_of 7], .create_quorum_cert (four_replicas false) (hash_of i),
    [UInt8.ofNat (i + 1)]⟩

/-- Four blocks in a row arrive, are delivered, and the last one is proposed. -/
def four_in_a_row : List (Call (Fin 8) (ReplicaID × Fin 8)) :=
  [.add_blk (next_block 0), .on_deliver_blk (hash_of 1),
    .add_blk (next_block 1), .on_deliver_blk (hash_of 2),
    .add_blk (next_block 2), .on_deliver_blk (hash_of 3),
    .add_blk (next_block 3), .on_deliver_blk (hash_of 4), .on_receive_proposal ⟨1, hash_of 4⟩]

theorem four_blocks_in_a_row_commit_the_first :
    ∃ s, play (four_replicas false) Proper (on_init (four_replicas false) 0) four_in_a_row =
        some s ∧ s.log = [hash_of 1] ∧ GaplessLog (four_replicas false) s ∧
      (s.call (four_replicas false) (.on_receive_proposal ⟨1, hash_of 4⟩)).Defined := by
  obtain ⟨s, hs⟩ := Option.isSome_iff_exists.mp
    (show (play (four_replicas false) Proper (on_init (four_replicas false) 0)
      four_in_a_row).isSome by decide +kernel)
  have hlog : (play (four_replicas false) Proper (on_init (four_replicas false) 0)
      four_in_a_row).map log = some [hash_of 1] := by
    decide +kernel
  have hshort : ((play (four_replicas false) Proper (on_init (four_replicas false) 0)
      four_in_a_row).map fun s => decide s.Short) = some true := by
    decide +kernel
  rw [hs, Option.map_some, Option.some.injEq] at hlog hshort
  have hrun := Run.init.play hs
  have hmain := the_commit_log_is_a_gapless_chain (four_replicas false) 0
  exact ⟨s, hs, hlog, (hmain.1 s (hrun.mono fun _ _ => Proper.short)).1,
    hmain.2 s hrun (.on_receive_proposal ⟨1, hash_of 4⟩) (of_decide_eq_true hshort)⟩

end HotStuffCore

end general_hotstuff
