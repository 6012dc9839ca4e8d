-- What holds of the stored blocks without a bound on the heights, which wrap around at 2^32:
-- a delivered block hangs on its first parent, whatever a replica is called with. Where
-- blocks are delivered once all they name is there, no walk ends at a missing parent.
import GeneralHotStuff.DefinedCalls
import GeneralHotStuff.NodeInvariant

namespace general_hotstuff

open quorums (ReplicaID)

namespace HotStuffCore

variable {Hash Sig : Type}

/-! ## Links -/

/-- What delivery establishes: the block has its parents and the block of its certificate. -/
def Joined (s : HotStuffCore Hash Sig) (b : Block Hash Sig) : Prop :=
  ∃ p ps, b.parent_hashes = p :: ps ∧ b.parents = p :: ps ∧
    b.height = (s.height p + 1) % 2 ^ 32 ∧ b.qc_ref = some b.qc.obj_hash ∧
    (s.storage b.qc.obj_hash).isSome

structure LinkLaw (config : Config Hash Sig) (s : HotStuffCore Hash Sig) (h : Hash)
    (b : Block Hash Sig) : Prop where
  hash : config.get_hash b.toBlockData = h
  parents : ∀ p ∈ b.parents, s.delivered p = true
  joined : b.delivered = true → s.Joined b

abbrev LinksOk (config : Config Hash Sig) : HotStuffCore Hash Sig → Prop :=
  Lawful config (LinkLaw config)

theorem LinkLaw.mono {config : Config Hash Sig} {s s' : HotStuffCore Hash Sig} {h : Hash}
    {b b' : Block Hash Sig} (hl : LinkLaw config s h b) (hg : Grows s s')
    (hb : shape b' = shape b) : LinkLaw config s' h b' where
  hash := (congrArg (config.get_hash ·.toBlockData) hb).trans hl.hash
  parents p hp := hg.delivered (hl.parents p (congrArg (·.parents) hb ▸ hp))
  joined hd := by
    obtain ⟨p, ps, hph, hps, hheight, hq, hqs⟩ :=
      hl.joined ((congrArg (·.delivered) hb).symm.trans hd)
    have hpd : s.delivered p = true := hl.parents p (by rw [hps]; exact List.mem_cons_self)
    have hqc : b'.qc = b.qc := congrArg (·.qc) hb
    refine ⟨p, ps, (congrArg (·.parent_hashes) hb).trans hph, (congrArg (·.parents) hb).trans hps,
      ?_, ?_, ?_⟩
    · rw [(hg.sameAt hpd).height, ← hheight]
      exact congrArg (·.height) hb
    · rw [hqc, ← hq]
      exact congrArg (·.qc_ref) hb
    · rw [hqc]
      exact hg.isSome hqs

theorem storedLaw_link (config : Config Hash Sig) :
    StoredLaw config (fun _ => True) (LinkLaw config) where
  hash h := h.hash
  mono h hg hb := h.mono hg hb
  arrives s data := ⟨rfl, fun p hp => by simp [Block.unserialize] at hp,
    fun hd => by simp [Block.unserialize] at hd⟩
  delivery {s s' b b'} _ hg hd hdel := by
    refine ⟨by rw [hdel.toBlockData_eq], fun p hp => hg.delivered (hdel.parents_delivered p hp),
      fun hd' => ?_⟩
    cases hdel with
    | blocked h => simp [hd] at hd'
    | unfetched p ps hp hps hq => simp [hd] at hd'
    | delivered p ps hp hps hq =>
      have hpd : s.delivered p = true := hps p List.mem_cons_self
      refine ⟨p, ps, hp, rfl, ?_, rfl, hg.isSome hq⟩
      rw [(hg.sameAt hpd).height]
  ok_grows _ _ _ := trivial

section Reading

variable {config : Config Hash Sig} {s s' : HotStuffCore Hash Sig}

/-- A delivered block other than genesis. -/
theorem LinksOk.joined (h : LinksOk config s) {x : Hash} (hx : x ≠ config.b0)
    (hd : s.delivered x = true) :
    ∃ b p, s.storage x = some b ∧ config.get_hash b.toBlockData = x ∧
      b.parent_hashes.head? = some p ∧ (s.parents x).head? = some p ∧
      s.height x = (s.height p + 1) % 2 ^ 32 ∧ s.qc_ref x = some b.qc.obj_hash := by
  obtain ⟨b, hb, hbd⟩ := exists_of_delivered hd
  have hlaw := h.law x b hx hb
  obtain ⟨p, ps, hph, hps, hheight, hq, -⟩ := hlaw.joined hbd
  refine ⟨b, p, hb, hlaw.hash, by rw [hph]; rfl, by rw [parents_eq hb, hps]; rfl, ?_, ?_⟩
  · rw [height_eq hb, hheight]
  · rw [qc_ref_eq hb, hq]

theorem LinksOk.parent (h : LinksOk config s) {x p : Hash}
    (hp : (s.parents x).head? = some p) : s.delivered p = true :=
  h.parent_delivered (fun _ _ hl => hl.parents) hp

theorem LinksOk.grounded (h : LinksOk config s) : Grounded config s :=
  ⟨h.b0_delivered, h.b0_parents, h.parent⟩

theorem LinksOk.qc_ref_stored (h : LinksOk config s) {x : Hash} {b : Block Hash Sig}
    (hb : s.storage x = some b) (hd : b.delivered = true) :
    b.qc_ref = some b.qc.obj_hash ∧ (s.storage b.qc.obj_hash).isSome := by
  refine h.qc_ref_delivered (fun y c hl hcd => ?_) hb hd
  obtain ⟨p, ps, -, -, -, hq, hqs⟩ := hl.joined hcd
  exact ⟨hq, hqs⟩

theorem LinksOk.height_lt (h : LinksOk config s) {x : Hash} (hd : s.delivered x = true) :
    s.height x < 2 ^ 32 := by
  by_cases hx : x = config.b0
  · rw [hx, h.b0_height]
    exact Nat.two_pow_pos 32
  · obtain ⟨-, p, -, -, -, -, hheight, -⟩ := h.joined hx hd
    rw [hheight]
    exact Nat.mod_lt _ (Nat.two_pow_pos 32)

/-- The hash of a delivered block gives away what it hangs on. -/
theorem LinksOk.of_hash (h : LinksOk config s) (hc : config.CollisionFree)
    {data : BlockData Hash Sig} {p : Hash} {ps : List Hash} (hp : data.parent_hashes = p :: ps)
    (hd : s.delivered (config.get_hash data) = true) :
    (s.parents (config.get_hash data)).head? = some p ∧
      s.qc_ref (config.get_hash data) = some data.qc.obj_hash ∧
      s.height (config.get_hash data) = (s.height p + 1) % 2 ^ 32 := by
  have hne : config.get_hash data ≠ config.b0 := by
    intro heq
    have := hc.genesis data heq
    rw [hp] at this
    cases this
  obtain ⟨b, q, -, hhash, hq, hpar, hheight, href⟩ := h.joined hne hd
  obtain ⟨hph, hobj⟩ := hc.content b.toBlockData data hhash
  rw [hph, hp, List.head?_cons, Option.some.injEq] at hq
  subst hq
  exact ⟨hpar, by rw [href, hobj], hheight⟩

theorem LinksOk.chained (h : LinksOk config s) : Chained config s where
  delivered _ _ hp := h.parent hp
  parent x p hd hp := by
    have hne : x ≠ config.b0 := by
      intro hx
      rw [hx, h.b0_parents] at hp
      cases hp
    obtain ⟨b, q, -, hhash, hq, hpar, -⟩ := h.joined hne hd
    rw [hpar, Option.some.injEq] at hp
    exact ⟨b.toBlockData, hhash, hp ▸ hq⟩

end Reading

variable [DecidableEq Hash]

/-! ## The block that a replica proposes -/

section Proposing

variable {config : Config Hash Sig} {s : HotStuffCore Hash Sig}

/-- A block that was just stored is delivered. -/
theorem on_deliver_stored {s1 : HotStuffCore Hash Sig} {x p : Hash} {ps : List Hash}
    {b : Block Hash Sig} {t : Finset Hash} (hs1 : s1 = { s.put x b with tails := t })
    (hd : b.delivered = false) (hp : b.parent_hashes = p :: ps)
    (hdel : ∀ y ∈ p :: ps, s1.delivered y = true) (hq : (s1.storage b.qc.obj_hash).isSome) :
    ∃ b' t', s1.on_deliver_blk x = .ok { s.put x b' with tails := t' } ∧ b'.delivered = true ∧
      b'.qc = b.qc ∧ b'.voted = b.voted ∧ t' ⊆ insert x t := by
  have hb : s1.storage x = some b := by
    rw [hs1]
    exact storage_put_self s x b
  let b' : Block Hash Sig :=
    { b with
      parents := p :: ps
      height := (s1.height p + 1) % 2 ^ 32
      qc_ref := some b.qc.obj_hash
      delivered := true }
  have hput : s1.put x b' = { s.put x b' with tails := t } := by
    simp [hs1, HotStuffCore.put]
  have ho : s1.on_deliver_blk x = .ok
      { s1.put x b' with tails := insert x (s1.tails \ (p :: ps).toFinset) } :=
    on_deliver_blk_ok hb hd hp hdel hq
  rw [hput] at ho
  refine ⟨b', _, ho, rfl, rfl, rfl, Finset.insert_subset_insert x ?_⟩
  rw [hs1]
  exact Finset.sdiff_subset

/-- The block that a replica proposes is delivered at once: its parents are, and the block of the
highest certificate is there. -/
theorem on_deliver_proposed (hc : config.CollisionFree) {x : Hash}
    (hhash : ∀ b, x ≠ config.b0 → s.storage x = some b → config.get_hash b.toBlockData = x)
    (hcerts : s.CertsOk) {p : Hash} {ps : List Hash} (hps : ∀ y ∈ p :: ps, s.delivered y = true)
    (cmds : List Hash) (extra : List UInt8)
    (hx : config.get_hash (s.proposed cmds (p :: ps) extra) = x) :
    ∃ b t, (s.store_proposed config cmds p ps extra).on_deliver_blk x =
        .ok { s.put x b with tails := t } ∧
      b.delivered = true ∧ b.qc.obj_hash = s.hqc.1 ∧
      (∀ i ∈ b.voted, ∃ c, s.storage x = some c ∧ i ∈ c.voted) ∧ t ⊆ insert x s.tails := by
  have hg := store_proposed_grows config s cmds p ps extra
  have hps' : ∀ y ∈ p :: ps, (s.store_proposed config cmds p ps extra).delivered y = true :=
    fun y hy => hg.delivered (hps y hy)
  have hstored := hg.isSome hcerts.stored
  have htails : insert x (s.tails \ (p :: ps).toFinset) ⊆ insert x s.tails :=
    Finset.insert_subset_insert x Finset.sdiff_subset
  cases hb : s.storage x with
  | none =>
    have hs1 := store_proposed_of_none (hx.symm ▸ hb)
    rw [hx] at hs1
    have hobj : (s.new_block cmds p ps extra).qc.obj_hash = s.hqc.1 := hcerts.hqc
    obtain ⟨b', t, hdel, hd, hqc, hvoted, ht⟩ :=
      on_deliver_stored hs1 rfl rfl hps' (by exact hobj.symm ▸ hstored)
    refine ⟨b', t, hdel, hd, hqc ▸ hobj, fun i hi => ?_, ht.trans htails⟩
    rw [hvoted] at hi
    simp [with_empty_qc, new_block] at hi
  | some b =>
    have hs1 := store_proposed_of_some (hx.symm ▸ hb)
    rw [hx] at hs1
    -- the hash gives away the wire fields
    have hne : x ≠ config.b0 := fun heq => by
      have := hc.genesis _ (hx.trans heq)
      simp [proposed] at this
    obtain ⟨hph, hobj⟩ := hc.content b.toBlockData (s.proposed cmds (p :: ps) extra)
      ((hhash b hne hb).trans hx.symm)
    have hobj : b.qc.obj_hash = s.hqc.1 := hobj.trans hcerts.hqc
    cases hd : b.delivered with
    | true =>
      have hb1 : (s.store_proposed config cmds p ps extra).storage x =
          some (with_empty_qc config x b) := by
        rw [hs1]
        exact storage_put_self s x _
      exact ⟨_, _, (on_deliver_blk_of_delivered hb1 hd).trans (congrArg _ hs1), hd, hobj,
        fun i hi => ⟨b, rfl, hi⟩, (Finset.subset_insert x _).trans htails⟩
    | false =>
      obtain ⟨b', t, hdel, hd', hqc, hvoted, ht⟩ :=
        on_deliver_stored hs1 hd hph hps' (by exact hobj.symm ▸ hstored)
      exact ⟨b', t, hdel, hd', hqc ▸ hobj, fun i hi => ⟨b, rfl, hvoted ▸ hi⟩, ht.trans htails⟩

end Proposing

/-! ## What update leaves -/

theorem commit_all_keeps_decision (s : HotStuffCore Hash Sig) (blks : List Hash) {h : Hash}
    (hd : s.decision h = true) : (blks.foldl commit_one s).decision h = true := by
  induction blks generalizing s with
  | nil => exact hd
  | cons blk blks ih =>
    refine ih _ ?_
    cases hb : s.storage blk with
    | none =>
      have hst : (s.commit_one blk).storage = s.storage := by
        simp [commit_one, modify, EntityStorage.modify, hb]
      rw [decision, hst]
      exact hd
    | some b =>
      have hst : (s.commit_one blk).storage = (s.put blk { b with decision := true }).storage := by
        rw [commit_one, modify_eq_put hb]
      by_cases hh : h = blk
      · simp [decision, hst, hh]
      · rw [decision, hst, storage_put_of_ne s _ hh]
        exact hd

/-- `update` writes decisions, and moves the highest certificate, the lock and `b_exec`, the last
one to the first parent of some block. -/
structure Updates (config : Config Hash Sig) (s : HotStuffCore Hash Sig) (nblk : Hash)
    (b : Block Hash Sig) (s' : HotStuffCore Hash Sig) : Prop where
  shape : SameShape s s'
  decision : ∀ h, s.decision h = true → s'.decision h = true
  frame : ∃ exec storage out, s' =
    { s.touched config nblk b with b_exec := exec, storage := storage, out := out }
  exec : s'.b_exec = s.b_exec ∨ ∃ x, (s.parents x).head? = some s'.b_exec

theorem update_leaves (config : Config Hash Sig) {s : HotStuffCore Hash Sig} {nblk : Hash}
    {b : Block Hash Sig} (hb : s.storage nblk = some b) :
    (s.update config nblk).Leaves (Updates config s nblk b) := by
  have hkeep : Updates config s nblk b (s.touched config nblk b) :=
    ⟨.of_storage_eq rfl, fun _ h => h, ⟨_, _, _, rfl⟩, .inl rfl⟩
  rcases update_cases config hb with hu | ⟨-, hu⟩ | ⟨blk1, blk, hcom, hu⟩
  · exact hu ▸ Outcome.leaves_ok.mpr hkeep
  · exact hu ▸ Outcome.leaves_undefined
  rw [hu]
  rcases commit_cases (s.touched config nblk b) blk with ⟨-, hc⟩ | hc | ⟨passed, -, hc⟩
  · exact hc ▸ Outcome.leaves_undefined
  · exact hc ▸ Outcome.leaves_throw.mpr hkeep
  · rw [hc, Outcome.leaves_ok]
    obtain ⟨storage, out, hframe⟩ := commit_all_frame (s.touched config nblk b) passed.reverse
    refine ⟨?_, fun h hd => ?_, ⟨blk, storage, out, by rw [hframe]⟩, .inr ⟨blk1, hcom.parent⟩⟩
    · exact (commit_all_sameShape (s.touched config nblk b) passed.reverse).trans
        (.of_storage_eq rfl)
    · exact commit_all_keeps_decision (s.touched config nblk b) passed.reverse hd

/-! ## Links and certificates -/

theorem kept_links (config : Config Hash Sig) :
    Kept config fun s : HotStuffCore Hash Sig => LinksOk config s ∧ s.CertsOk where
  update s nblk h hd s' hs' := by
    obtain ⟨b, hb, hbd⟩ := exists_of_delivered hd
    exact ⟨(storedLaw_link config).of_sameShape (update_sameShape config s nblk s' hs') h.1,
      h.2.update_of_ref config hb (ref_of_obj_hash (h.1.qc_ref_stored hb hbd)) s' hs'⟩
  vote_on s prop h := by
    have hsh : LinksOk config (s.voted_for config prop) :=
      (storedLaw_link config).of_sameShape (.of_storage_eq (s := s) rfl) h.1
    rcases vote_on_cases config prop s with ⟨-, ho⟩ | ho | ⟨-, ho⟩
    · exact ho ▸ Outcome.leaves_undefined
    · exact ho ▸ Outcome.leaves_ok.mpr h
    · exact ho ▸ Outcome.leaves_ok.mpr ⟨hsh, h.2.hqc, h.2.stored, h.2.self_qc⟩
  broadcast s prop h :=
    ⟨(storedLaw_link config).of_sameShape (.of_storage_eq (s := s) rfl) h.1,
      h.2.hqc, h.2.stored, h.2.self_qc⟩

theorem deliver_proposed_links {config : Config Hash Sig} {s : HotStuffCore Hash Sig}
    (h : LinksOk config s) (hcerts : s.CertsOk) (cmds : List Hash) (p : Hash) (ps : List Hash)
    (extra : List UInt8) :
    ((s.store_proposed config cmds p ps extra).on_deliver_blk
      (config.get_hash (s.proposed cmds (p :: ps) extra))).Leaves
        fun s' => LinksOk config s' ∧ s'.CertsOk := by
  intro s' hs'
  obtain ⟨hhqc, hv⟩ := on_deliver_blk_sameVotes _ _ s' hs'
  exact ⟨(storedLaw_link config).deliver_proposed h trivial cmds p ps extra s' hs',
    (store_proposed_certsOk hcerts cmds p ps extra).frame (on_deliver_blk_grows _ _ s' hs') hhqc hv⟩

/-- Whatever a replica is called with, delivered blocks hang on their first parents, and the
certificates are on the blocks that they are kept with. -/
theorem call_links (config : Config Hash Sig) {s : HotStuffCore Hash Sig} (h : LinksOk config s)
    (hcerts : s.CertsOk) (c : Call Hash Sig) :
    (s.call config c).Leaves fun s' => LinksOk config s' ∧ s'.CertsOk := by
  have hk := kept_links config
  intro s' hs'
  have hlinks := (storedLaw_link config).call h trivial c s' hs'
  cases c with
  | add_blk data =>
    refine ⟨hlinks, ?_⟩
    cases hb : s.storage (config.get_hash data) with
    | none =>
      rw [call_add_blk_of_none hb] at hs'
      exact Option.some.inj hs' ▸ hcerts.put fun qc hqc => by simp [Block.unserialize] at hqc
    | some b =>
      rw [call_add_blk_of_isSome (by simp [hb])] at hs'
      exact Option.some.inj hs' ▸ hcerts
  | on_deliver_blk blk =>
    obtain ⟨hhqc, hv⟩ := on_deliver_blk_sameVotes s blk s' hs'
    exact ⟨hlinks, hcerts.frame (on_deliver_blk_grows s blk s' hs') hhqc hv⟩
  | on_propose cmds parents extra =>
    exact hk.on_propose ⟨h, hcerts⟩ cmds parents extra
      (fun p ps _ => deliver_proposed_links h hcerts cmds p ps extra) s' hs'
  | on_receive_proposal prop => exact hk.on_receive_proposal ⟨h, hcerts⟩ prop s' hs'
  | on_receive_vote vote => exact ⟨hlinks, on_receive_vote_certsOk config hcerts vote s' hs'⟩
  | set_vote_disabled f =>
    exact ⟨hlinks, Option.some.inj hs' ▸ ⟨hcerts.hqc, hcerts.stored, hcerts.self_qc⟩⟩

/-! ## Replicas that deliver in order -/

/-- A block that waits for delivery is as it arrived. -/
def Blank (s : HotStuffCore Hash Sig) : Prop :=
  ∀ h b, s.storage h = some b → b.delivered = false →
    b.parents = [] ∧ b.height = 0 ∧ b.qc_ref = none

/-- What `HotStuffBase` takes care of: a block is delivered when its parents are and the block of
its certificate was fetched, and proposals are on delivered blocks. -/
def Orderly (s : HotStuffCore Hash Sig) : Call Hash Sig → Prop
  | .on_deliver_blk blk => ∃ b, s.storage blk = some b ∧ (b.delivered = true ∨
      (∀ p ∈ b.parent_hashes, s.delivered p = true) ∧ (s.storage b.qc.obj_hash).isSome)
  | .on_propose _ parents _ => ∀ p ∈ parents, s.delivered p = true
  | _ => True

structure Tidy (config : Config Hash Sig) (s : HotStuffCore Hash Sig) : Prop where
  links : LinksOk config s
  certs : s.CertsOk
  blank : s.Blank
  decided : s.decision config.b0 = true
  hqc : s.delivered s.hqc.1 = true
  exec : s.delivered s.b_exec = true
  tails : ∀ x ∈ s.tails, s.delivered x = true

section Tidiness

variable {config : Config Hash Sig} {s s' : HotStuffCore Hash Sig}

omit [DecidableEq Hash] in
theorem Blank.of_sameShape (h : s.Blank) (hs : SameShape s s') : s'.Blank := by
  intro x b' hb' hd
  obtain ⟨b, hb, hsh⟩ := (hs.symm x).block hb'
  obtain ⟨hp, hh, hq⟩ := h x b hb ((congrArg (·.delivered) hsh).trans hd)
  exact ⟨(congrArg (·.parents) hsh).symm.trans hp, (congrArg (·.height) hsh).symm.trans hh,
    (congrArg (·.qc_ref) hsh).symm.trans hq⟩

omit [DecidableEq Hash] in
theorem Blank.delivered_of_height (h : s.Blank) {x : Hash} (hx : 0 < s.height x) :
    s.delivered x = true := by
  cases hb : s.storage x with
  | none => simp [HotStuffCore.height, hb] at hx
  | some b =>
    rw [height_eq hb] at hx
    cases hd : b.delivered with
    | true => rw [delivered_eq hb, hd]
    | false =>
      rw [(h x b hb hd).2.1] at hx
      cases hx

omit [DecidableEq Hash] in
theorem Blank.delivered_of_qc_ref (h : s.Blank) {x : Hash} (hx : (s.qc_ref x).isSome) :
    s.delivered x = true := by
  cases hb : s.storage x with
  | none => simp [HotStuffCore.qc_ref, hb] at hx
  | some b =>
    rw [qc_ref_eq hb] at hx
    cases hd : b.delivered with
    | true => rw [delivered_eq hb, hd]
    | false =>
      rw [(h x b hb hd).2.2] at hx
      cases hx

theorem Blank.put (h : s.Blank) {x : Hash} {b : Block Hash Sig} (hb : b.delivered = false →
    b.parents = [] ∧ b.height = 0 ∧ b.qc_ref = none) : (s.put x b).Blank := by
  intro y c hc hd
  by_cases hy : y = x
  · rw [hy, storage_put_self, Option.some.injEq] at hc
    subst hc
    exact hb hd
  · rw [storage_put_of_ne s b hy] at hc
    exact h y c hc hd

omit [DecidableEq Hash] in
/-- The blocks that matter are delivered, in a storage that has grown. -/
theorem Tidy.frame (h : Tidy config s) (hlinks : LinksOk config s') (hcerts : s'.CertsOk)
    (hblank : s'.Blank) (hg : Grows s s') (hdec : s'.decision config.b0 = true)
    (hhqc : s'.delivered s'.hqc.1 = true) (hexec : s'.b_exec = s.b_exec)
    (htails : ∀ x ∈ s'.tails, s'.delivered x = true) : Tidy config s' :=
  ⟨hlinks, hcerts, hblank, hdec, hhqc, hexec ▸ hg.delivered h.exec, htails⟩

theorem kept_tidy (config : Config Hash Sig) : Kept config (Tidy config) where
  update s nblk h hd := by
    obtain ⟨b, hb, hbd⟩ := exists_of_delivered hd
    intro s' hs'
    obtain ⟨hlinks, hcerts⟩ := (kept_links config).update s nblk ⟨h.links, h.certs⟩ hd s' hs'
    obtain ⟨hsh, hdec, ⟨exec, storage, out, rfl⟩, hexec⟩ := update_leaves config hb s' hs'
    refine ⟨hlinks, hcerts, h.blank.of_sameShape hsh, hdec _ h.decided, ?_, ?_, fun x hx =>
      (hsh x).delivered.trans (h.tails x hx)⟩
    · rw [(hsh _).delivered]
      rcases s.touched_hqc config nblk b with heq | ⟨q, -, heq, hlt⟩
      · exact (congrArg (s.delivered ·.1) heq).trans h.hqc
      · exact (congrArg (s.delivered ·.1) heq).trans
          (h.blank.delivered_of_height (Nat.zero_lt_of_lt hlt))
    · rw [(hsh _).delivered]
      rcases hexec with heq | ⟨x, hx⟩
      · exact (congrArg s.delivered heq).trans h.exec
      · exact h.links.parent hx
  vote_on s prop h s' hs' := by
    obtain ⟨hlinks, hcerts⟩ := (kept_links config).vote_on s prop ⟨h.links, h.certs⟩ s' hs'
    rcases vote_on_cases config prop s with ⟨-, ho⟩ | ho | ⟨-, ho⟩
    · rw [ho] at hs'
      cases hs'
    · rw [ho] at hs'
      exact Option.some.inj hs' ▸ h
    · rw [ho] at hs'
      have heq := Option.some.inj hs'
      subst heq
      exact h.frame hlinks hcerts h.blank (Grows.refl s) h.decided h.hqc rfl h.tails
  broadcast s prop h := by
    obtain ⟨hlinks, hcerts⟩ := (kept_links config).broadcast s prop ⟨h.links, h.certs⟩
    exact h.frame hlinks hcerts h.blank (Grows.refl s) h.decided h.hqc rfl h.tails

theorem Tidy.add_blk (h : Tidy config s) (data : BlockData Hash Sig) :
    (s.call config (.add_blk data)).Leaves (Tidy config) := by
  intro s' hs'
  obtain ⟨hlinks, hcerts⟩ := call_links config h.links h.certs _ s' hs'
  cases hb : s.storage (config.get_hash data) with
  | none =>
    rw [call_add_blk_of_none hb] at hs'
    have heq := Option.some.inj hs'
    subst heq
    have hq := Quiet.put_new hb (b := Block.unserialize data) rfl
    exact h.frame hlinks hcerts (h.blank.put fun _ => ⟨rfl, rfl, rfl⟩) hq.grows
      ((hq.decision _).trans h.decided) (hq.grows.delivered h.hqc) rfl
      fun x hx => hq.grows.delivered (h.tails x hx)
  | some b =>
    rw [call_add_blk_of_isSome (by simp [hb])] at hs'
    exact Option.some.inj hs' ▸ h

/-- An orderly delivery writes a delivered block, and only `tails` beside it. -/
theorem Tidy.of_delivered (h : Tidy config s) {x : Hash} {b : Block Hash Sig} {t : Finset Hash}
    (hlinks : LinksOk config { s.put x b with tails := t })
    (hcerts : CertsOk { s.put x b with tails := t }) (hg : Grows s { s.put x b with tails := t })
    (hdec : HotStuffCore.decision { s.put x b with tails := t } config.b0 = true)
    (hb : b.delivered = true) (ht : t ⊆ insert x s.tails) :
    Tidy config { s.put x b with tails := t } := by
  have hx : HotStuffCore.delivered { s.put x b with tails := t } x = true :=
    (delivered_eq (storage_put_self s x b)).trans hb
  have hblank : (s.put x b).Blank := h.blank.put fun hd => by
    rw [hb] at hd
    cases hd
  refine h.frame hlinks hcerts hblank hg hdec (hg.delivered h.hqc) rfl fun y hy => ?_
  rcases Finset.mem_insert.mp (ht hy) with rfl | hy
  · exact hx
  · exact hg.delivered (h.tails y hy)

theorem Tidy.on_deliver_blk (h : Tidy config s) {blk : Hash}
    (ho : s.Orderly (.on_deliver_blk blk)) : (s.on_deliver_blk blk).Leaves (Tidy config) := by
  obtain ⟨b, hb, hready⟩ := ho
  intro s' hs'
  obtain ⟨hlinks, hcerts⟩ := call_links config h.links h.certs (.on_deliver_blk blk) s' hs'
  have hq := on_deliver_blk_quiet s blk s' hs'
  cases hd : b.delivered with
  | true =>
    rw [on_deliver_blk_of_delivered hb hd] at hs'
    exact Option.some.inj hs' ▸ h
  | false =>
    obtain ⟨hp, hqc⟩ := hready.resolve_left (by simp [hd])
    cases hph : b.parent_hashes with
    | nil => simp [HotStuffCore.on_deliver_blk, hb, hd, hph, Outcome.state?] at hs'
    | cons p ps =>
      rw [on_deliver_blk_ok hb hd hph (hph ▸ hp) hqc] at hs'
      have heq := Option.some.inj hs'
      subst heq
      exact h.of_delivered hlinks hcerts hq.grows ((hq.decision _).trans h.decided) rfl
        (Finset.insert_subset_insert blk Finset.sdiff_subset)

/-- A proposal on delivered parents is delivered. -/
theorem Tidy.deliver_proposed (hc : config.CollisionFree) (h : Tidy config s) (cmds : List Hash)
    (p : Hash) (ps : List Hash) (extra : List UInt8) (hps : ∀ y ∈ p :: ps, s.delivered y = true) :
    ∃ s1, (s.store_proposed config cmds p ps extra).on_deliver_blk
        (config.get_hash (s.proposed cmds (p :: ps) extra)) = .ok s1 ∧ Tidy config s1 ∧
      Quiet s s1 ∧ s1.hqc = s.hqc ∧ s1.b_lock = s.b_lock ∧ s1.vheight = s.vheight := by
  obtain ⟨b, t, ho, hd, -, -, ht⟩ := on_deliver_proposed hc
    (fun b hne hb => (h.links.law _ b hne hb).hash) h.certs hps cmds extra rfl
  have hs1 := congrArg Outcome.state? ho
  obtain ⟨hlinks, hcerts⟩ := deliver_proposed_links h.links h.certs cmds p ps extra _ hs1
  have hq := (store_proposed_quiet config s cmds p ps extra).trans (on_deliver_blk_quiet _ _ _ hs1)
  exact ⟨_, ho, h.of_delivered hlinks hcerts hq.grows ((hq.decision _).trans h.decided) hd ht, hq,
    rfl, rfl, rfl⟩

theorem Tidy.on_receive_vote (h : Tidy config s) (vote : Vote Hash Sig) :
    (s.on_receive_vote config vote).Leaves (Tidy config) := by
  intro s' hs'
  obtain ⟨hlinks, hcerts⟩ := call_links config h.links h.certs (.on_receive_vote vote) s' hs'
  have hq := on_receive_vote_quiet config s vote s' hs'
  have hblank := h.blank.of_sameShape (on_receive_vote_sameShape config s vote s' hs')
  have hdec := (hq.decision config.b0).trans h.decided
  have htails : ∀ x ∈ s.tails, s'.delivered x = true := fun x hx =>
    hq.grows.delivered (h.tails x hx)
  have hhqc := hq.grows.delivered h.hqc
  rcases on_receive_vote_cases config vote s with ho | ho | ⟨b, hb, hd, -, -, ho⟩
  · rw [ho] at hs'
    exact Option.some.inj hs' ▸ h
  · rw [ho] at hs'
    exact Option.some.inj hs' ▸ h
  · have hvoted : s'.delivered vote.blk_hash = true :=
      hq.grows.delivered (by rw [delivered_eq hb, hd])
    generalize s.on_receive_vote config vote = o at ho hs'
    cases ho with
    | mismatch =>
      have heq := Option.some.inj hs'
      subst heq
      exact h.frame hlinks hcerts hblank hq.grows hdec hhqc rfl htails
    | collected =>
      have heq := Option.some.inj hs'
      subst heq
      exact h.frame hlinks hcerts hblank hq.grows hdec hhqc rfl htails
    | computed qc' =>
      have heq := Option.some.inj hs'
      subst heq
      refine h.frame hlinks hcerts hblank hq.grows hdec ?_ rfl htails
      by_cases hlt : (s.put vote.blk_hash { b with
          voted := insert vote.voter b.voted
          self_qc := some (qc'.compute config) }).height s.hqc.1 <
        (s.put vote.blk_hash { b with
          voted := insert vote.voter b.voted
          self_qc := some (qc'.compute config) }).height vote.blk_hash
      · rw [update_hqc, if_pos (by exact hlt)]
        exact hvoted
      · rw [update_hqc, if_neg (by exact hlt)]
        exact hhqc

/-- A replica that is called in order stays tidy. -/
theorem Tidy.call (hc : config.CollisionFree) (h : Tidy config s) {c : Call Hash Sig}
    (ho : s.Orderly c) : (s.call config c).Leaves (Tidy config) := by
  have hk := kept_tidy config
  cases c with
  | add_blk data => exact h.add_blk data
  | on_deliver_blk blk => exact h.on_deliver_blk ho
  | on_propose cmds parents extra =>
    refine hk.on_propose h cmds parents extra fun p ps hps => ?_
    obtain ⟨s1, hs1, h1, -⟩ := h.deliver_proposed hc cmds p ps extra (hps ▸ ho)
    exact hs1 ▸ Outcome.leaves_ok.mpr h1
  | on_receive_proposal prop => exact hk.on_receive_proposal h prop
  | on_receive_vote vote => exact h.on_receive_vote vote
  | set_vote_disabled f =>
    obtain ⟨hlinks, hcerts⟩ := call_links config h.links h.certs (.set_vote_disabled f) _ rfl
    exact Outcome.leaves_ok.mpr
      (h.frame hlinks hcerts h.blank (Grows.refl s) h.decided h.hqc rfl h.tails)

theorem on_init_links (config : Config Hash Sig) (id : ReplicaID) :
    LinksOk config (on_init config id) where
  genesis := by simp [on_init]
  law h b hh hb := by simp [on_init, hh] at hb

theorem on_init_tidy (config : Config Hash Sig) (id : ReplicaID) :
    Tidy config (on_init config id) where
  links := on_init_links config id
  certs := on_init_certsOk config id
  blank x b hb hd := by
    by_cases hx : x = config.b0
    · simp only [on_init, hx, Function.update_self, Option.some.injEq] at hb
      rw [← hb] at hd
      cases hd
    · simp [on_init, hx] at hb
  decided := by simp [on_init, decision, genesis]
  hqc := (on_init_links config id).b0_delivered
  exec := (on_init_links config id).b0_delivered
  tails x hx := by
    rw [Finset.mem_singleton.mp hx]
    exact (on_init_links config id).b0_delivered

theorem Run.links {id : ReplicaID} {ok : HotStuffCore Hash Sig → Call Hash Sig → Prop}
    (h : Run config id ok s) : LinksOk config s ∧ s.CertsOk := by
  induction h with
  | init => exact ⟨on_init_links config id, on_init_certsOk config id⟩
  | step hr ho hs ih => exact call_links config ih.1 ih.2 _ _ hs

theorem Run.tidy (hc : config.CollisionFree) {id : ReplicaID} (h : Run config id Orderly s) :
    Tidy config s := by
  induction h with
  | init => exact on_init_tidy config id
  | step hr ho hs ih => exact ih.call hc ho _ hs

/-! ## No chain ends above genesis -/

omit [DecidableEq Hash] in
theorem Tidy.descending (h : Tidy config s) : s.Descending := by
  intro x hx
  have hne : x ≠ config.b0 := by
    intro heq
    rw [heq, h.links.b0_height] at hx
    cases hx
  obtain ⟨b, p, -, -, -, hp, hheight, -⟩ := h.links.joined hne (h.blank.delivered_of_height hx)
  refine ⟨p, hp, ?_⟩
  -- a height that has wrapped around is zero
  have hlt := h.links.height_lt (h.links.parent hp)
  omega

omit [DecidableEq Hash] in
theorem Tidy.not_orphaned (h : Tidy config s) : ¬ s.Orphaned := by
  rintro ⟨x, hdec, hpar, hq⟩
  have hne : x ≠ config.b0 := by
    intro heq
    rw [heq, h.decided] at hdec
    cases hdec
  obtain ⟨b, p, -, -, -, hp, -⟩ := h.links.joined hne (h.blank.delivered_of_qc_ref hq)
  rw [hpar] at hp
  cases hp

/-- A block to commit that is on one chain with `b_exec` is above it, as it is not decided, and the
commit loop ends at `b_exec`. -/
theorem LogOk.update_ok_of_above (hlog : LogOk config s) (hok : BlocksOk config s)
    (h : s.Descending) (ho : ¬ s.Orphaned) {nblk : Hash} (hd : s.delivered nblk = true)
    (habove : ∀ blk1 blk, Commits config s nblk blk1 blk →
      s.above blk s.b_exec ∨ s.above s.b_exec blk) : ∃ s', s.update config nblk = .ok s' := by
  obtain ⟨b, hb, -⟩ := exists_of_delivered hd
  have hdef := hlog.update_defined hok h ho hd
  rcases update_cases config hb with hu | ⟨horph, -⟩ | ⟨blk1, blk, hcom, hu⟩
  · exact ⟨_, hu⟩
  · exact absurd horph ho
  · rw [hu] at hdef ⊢
    cases hc : (s.touched config nblk b).commit blk with
    | ok s' => exact ⟨s', rfl⟩
    | undefined =>
      rw [hc] at hdef
      exact absurd hdef not_false
    | throw s' what =>
      obtain ⟨passed, last, hw, hne⟩ := walk_of_commit_throw hc
      have hsame : (s.touched config nblk b).storage = s.storage := rfl
      have hw := (walk_of_storage_eq hsame _ _ blk).symm.trans hw
      rcases habove blk1 blk hcom with ha | ha
      · exact absurd (hok.falling.walk_ends (hok.parent_delivered hcom.parent) ha hw) hne
      · have hdec := hlog.decided_of_above hok.grounded ha
        rw [(undecided_ref_eq_some.mp hcom.undecided_ref).2] at hdec
        cases hdec

theorem Tidy.update_defined (h : Tidy config s) (hok : BlocksOk config s) {nblk : Hash}
    (hd : s.delivered nblk = true) : (s.update config nblk).Defined :=
  hok.update_defined h.decided h.exec h.descending h.not_orphaned hd

theorem Tidy.on_receive_proposal_defined (h : Tidy config s) (hok : BlocksOk config s)
    (prop : Proposal Hash) : (s.on_receive_proposal config prop).Defined := by
  unfold on_receive_proposal
  split
  · exact h.descending.vote_on_defined config prop
  · split
    · rename_i hd
      refine (h.update_defined hok hd).andThen fun s1 hs1 => ?_
      have h1 := (kept_tidy config).update s prop.blk h hd s1 (by rw [hs1]; rfl)
      exact h1.descending.vote_on_defined config prop
    · trivial

end Tidiness

end HotStuffCore

end general_hotstuff
