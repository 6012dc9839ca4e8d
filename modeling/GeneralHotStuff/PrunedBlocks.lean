-- The blocks of a replica that prunes. The walks along first parents stop above `b_exec`, so it
-- is enough that a block without parents is no higher, whatever calls come between.
import GeneralHotStuff.Pruning

namespace general_hotstuff

open quorums (ReplicaID)

variable {Hash Sig : Type}

namespace HotStuffCore

/-! ## Blocks with their parents taken away -/

/-- What is known of a stored block, whether it was pruned or not. -/
structure TrimLaw (s : HotStuffCore Hash Sig) (b : Block Hash Sig) : Prop where
  parents : ∀ p ∈ b.parents, s.delivered p = true
  height : b.delivered = true → ∀ p, b.parents.head? = some p → b.height = s.height p + 1
  qc_ref : ∀ q, b.qc_ref = some q → q = b.qc.obj_hash ∧ (s.storage q).isSome
  waiting : b.delivered = false → s.Waiting b

/-- Blocks without parents are no higher than `b_exec`, and `b_exec` is no higher than the lock and
the highest certificate. -/
structure Trimmed (s : HotStuffCore Hash Sig) : Prop where
  law : ∀ x b, s.storage x = some b → s.TrimLaw b
  certs : s.CertsOk
  undecided : ¬ s.Orphaned
  high : ∀ x, s.height s.b_exec < s.height x → s.parents x ≠ []
  exec : s.delivered s.b_exec = true
  lock : s.height s.b_exec ≤ s.height s.b_lock
  hqc : s.height s.b_exec ≤ s.height s.hqc.1

variable {config : Config Hash Sig} {s s' : HotStuffCore Hash Sig}

/-- The law only reads the blocks that its block refers to. -/
theorem TrimLaw.keep {b b' : Block Hash Sig} (h : s.TrimLaw b)
    (hp : ∀ p ∈ b.parents, s'.delivered p = s.delivered p ∧ s'.height p = s.height p)
    (hq : ∀ q, b.qc_ref = some q → (s.storage q).isSome → (s'.storage q).isSome)
    (hb : shape b' = shape b) : s'.TrimLaw b' := by
  have hdel : b'.delivered = b.delivered := congrArg (·.delivered) hb
  have hparents : b'.parents = b.parents := congrArg (·.parents) hb
  have hheight : b'.height = b.height := congrArg (·.height) hb
  have href : b'.qc_ref = b.qc_ref := congrArg (·.qc_ref) hb
  have hqc : b'.qc = b.qc := congrArg (·.qc) hb
  have hnames : b'.parent_hashes = b.parent_hashes := congrArg (·.parent_hashes) hb
  refine ⟨fun p hpar => ?_, fun hd p hpar => ?_, fun q hq' => ?_, fun hd => ?_⟩
  · rw [hparents] at hpar
    exact (hp p hpar).1.trans (h.parents p hpar)
  · rw [hdel] at hd
    rw [hparents] at hpar
    rw [hheight, (hp p (List.mem_of_head? hpar)).2]
    exact h.height hd p hpar
  · rw [href] at hq'
    rw [hqc]
    exact ⟨(h.qc_ref q hq').1, hq q hq' (h.qc_ref q hq').2⟩
  · rw [hdel] at hd
    have hw := h.waiting hd
    refine ⟨href.trans hw.qc_ref, fun hnil => ?_, fun p hpar => ?_⟩
    · rw [hheight]
      exact hw.height (hparents ▸ hnil)
    · rw [hparents] at hpar
      rw [hnames, hheight, (hp p (List.mem_of_head? hpar)).2]
      exact hw.parent p hpar

theorem TrimLaw.mono {b b' : Block Hash Sig} (h : s.TrimLaw b) (hg : Grows s s')
    (hb : shape b' = shape b) : s'.TrimLaw b' :=
  h.keep (fun p hp => ⟨(hg.sameAt (h.parents p hp)).delivered, (hg.sameAt (h.parents p hp)).height⟩)
    (fun _ _ hq => hg.isSome hq) hb

/-- A delivered block without its last parents. -/
theorem TrimLaw.trim {b : Block Hash Sig} (h : s.TrimLaw b) (hd : b.delivered = true)
    {ps : List Hash} (hps : ps <+: b.parents) :
    s.TrimLaw { b with qc_ref := none, parents := ps } where
  parents p hp := h.parents p (hps.mem hp)
  height _ p hp := by
    obtain ⟨rest, hrest⟩ := hps
    exact h.height hd p (by simp [← hrest, List.head?_append, hp])
  qc_ref q hq := by cases hq
  waiting hd' := by simp [hd] at hd'

theorem Trimmed.parents_delivered (h : s.Trimmed) {x p : Hash} (hp : p ∈ s.parents x) :
    s.delivered p = true := by
  cases hb : s.storage x with
  | none => simp [HotStuffCore.parents, hb] at hp
  | some b =>
    rw [parents_eq hb] at hp
    exact (h.law x b hb).parents p hp

/-- A block with a reference to the block of its certificate is delivered. -/
theorem Trimmed.delivered_of_qc_ref (h : s.Trimmed) {x q : Hash} (hq : s.qc_ref x = some q) :
    s.delivered x = true := by
  cases hb : s.storage x with
  | none => simp [HotStuffCore.qc_ref, hb] at hq
  | some b =>
    rw [qc_ref_eq hb] at hq
    rw [delivered_eq hb]
    by_contra hd
    rw [((h.law x b hb).waiting (by simpa using hd)).qc_ref] at hq
    cases hq

theorem Trimmed.height_parent (h : s.Trimmed) {x p : Hash} (hd : s.delivered x = true)
    (hp : (s.parents x).head? = some p) : s.height x = s.height p + 1 := by
  obtain ⟨b, hb, hbd⟩ := exists_of_delivered hd
  rw [parents_eq hb] at hp
  rw [height_eq hb]
  exact (h.law x b hb).height hbd p hp

/-- The walks that stop above `b_exec` never come to a block without parents. -/
theorem Trimmed.descendingAbove (h : s.Trimmed) : s.DescendingAbove (s.height s.b_exec) := by
  intro x hx
  obtain ⟨p, ps, hps⟩ := List.exists_cons_of_ne_nil (h.high x hx)
  have hp : (s.parents x).head? = some p := by rw [hps, List.head?_cons]
  refine ⟨p, hp, ?_⟩
  cases hd : s.delivered x with
  | true => exact h.height_parent hd hp
  | false =>
    cases hb : s.storage x with
    | none => simp [HotStuffCore.height, hb] at hx
    | some b =>
      rw [delivered_eq hb] at hd
      rw [parents_eq hb] at hp
      have hw := (((h.law x b hb).waiting hd).parent p hp).2
      rw [height_eq hb] at hx ⊢
      omega

/-! ## What keeps the blocks -/

/-- The blocks keep their shape, and `b_exec`, the lock and the highest certificate do not fall. -/
theorem Trimmed.frame (h : s.Trimmed) (hsh : SameShape s s')
    (hdec : ∀ x, s.decision x = true → s'.decision x = true) (hcerts : s'.CertsOk)
    (hexec : s.delivered s'.b_exec = true) (hup : s.height s.b_exec ≤ s.height s'.b_exec)
    (hlock : s.height s'.b_exec ≤ s.height s'.b_lock)
    (hhqc : s.height s'.b_exec ≤ s.height s'.hqc.1) : s'.Trimmed where
  law x b' hb' := by
    obtain ⟨b, hb, hshape⟩ := (hsh.symm x).block hb'
    exact (h.law x b hb).mono hsh.grows hshape.symm
  certs := hcerts
  undecided := by
    rintro ⟨x, hd, hp, hq⟩
    refine h.undecided ⟨x, ?_, (hsh x).parents.symm.trans hp, (hsh x).qc_ref.symm ▸ hq⟩
    cases hdx : s.decision x with
    | false => rfl
    | true =>
      rw [hdec x hdx] at hd
      cases hd
  high x hx := by
    rw [(hsh x).parents]
    rw [(hsh x).height, (hsh s'.b_exec).height] at hx
    exact h.high x (lt_of_le_of_lt hup hx)
  exec := (hsh s'.b_exec).delivered.trans hexec
  lock := by
    rw [(hsh s'.b_exec).height, (hsh s'.b_lock).height]
    exact hlock
  hqc := by
    rw [(hsh s'.b_exec).height, (hsh s'.hqc.1).height]
    exact hhqc

/-- Nothing is written that matters here. -/
theorem Trimmed.of_storage_eq (h : s.Trimmed) (hst : s'.storage = s.storage)
    (hexec : s'.b_exec = s.b_exec) (hlock : s'.b_lock = s.b_lock) (hhqc : s'.hqc = s.hqc) :
    s'.Trimmed := by
  refine h.frame (.of_storage_eq hst) (fun x hx => ?_) ⟨?_, ?_, ?_⟩ ?_ ?_ ?_ ?_
  · unfold HotStuffCore.decision at hx ⊢
    rw [hst]
    exact hx
  · rw [hhqc]
    exact h.certs.hqc
  · rw [hst, hhqc]
    exact h.certs.stored
  · rw [hst]
    exact h.certs.self_qc
  · rw [hexec]
    exact h.exec
  · rw [hexec]
  · rw [hexec, hlock]
    exact h.lock
  · rw [hexec, hhqc]
    exact h.hqc

/-- One block is written, and that one is in order and no lower than before. -/
theorem Trimmed.write [DecidableEq Hash] (h : s.Trimmed) (hg : Grows s s') {blk : Hash}
    {b' : Block Hash Sig} (hne : ∀ x, x ≠ blk → s'.storage x = s.storage x)
    (hb' : s'.storage blk = some b') (hlaw : s'.TrimLaw b') (hcerts : s'.CertsOk)
    (hparents : b'.parents = [] → b'.qc_ref = none ∧ b'.height = 0)
    (hup : s.height blk ≤ b'.height) (hexec : s'.b_exec = s.b_exec)
    (hlock : s'.b_lock = s.b_lock) (hhqc : s'.hqc = s.hqc) : s'.Trimmed := by
  have heights : ∀ x, s.height x ≤ s'.height x := by
    intro x
    by_cases hx : x = blk
    · subst hx
      rw [height_eq hb']
      exact hup
    · simp [HotStuffCore.height, hne x hx]
  have hsame := hg.sameAt h.exec
  refine ⟨fun x c hc => ?_, hcerts, ?_, fun x hx => ?_, ?_, ?_, ?_⟩
  · by_cases hx : x = blk
    · rw [hx, hb', Option.some.injEq] at hc
      exact hc ▸ hlaw
    · exact (h.law x c ((hne x hx).symm.trans hc)).mono hg rfl
  · rintro ⟨x, hd, hp, hq⟩
    by_cases hx : x = blk
    · subst hx
      rw [parents_eq hb'] at hp
      rw [qc_ref_eq hb', (hparents hp).1] at hq
      cases hq
    · refine h.undecided ⟨x, ?_, ?_, ?_⟩
      · simpa [HotStuffCore.decision, hne x hx] using hd
      · simpa [HotStuffCore.parents, hne x hx] using hp
      · simpa [HotStuffCore.qc_ref, hne x hx] using hq
  · rw [hexec, hsame.height] at hx
    by_cases hxb : x = blk
    · subst hxb
      rw [height_eq hb'] at hx
      rw [parents_eq hb']
      intro hnil
      rw [(hparents hnil).2] at hx
      cases hx
    · simp only [HotStuffCore.height, HotStuffCore.parents, hne x hxb] at hx ⊢
      exact h.high x hx
  · rw [hexec, hsame.delivered]
    exact h.exec
  · rw [hexec, hlock, hsame.height]
    exact h.lock.trans (heights s.b_lock)
  · rw [hexec, hhqc, hsame.height]
    exact h.hqc.trans (heights s.hqc.1)

/-! ## update -/

theorem Trimmed.touched (h : s.Trimmed) (config : Config Hash Sig) {nblk : Hash}
    {b : Block Hash Sig} (hb : s.storage nblk = some b) :
    (s.touched config nblk b).Trimmed := by
  have hcerts := h.certs.touched_of_ref config hb (h.law nblk b hb).qc_ref
  exact h.frame (.of_storage_eq rfl) (fun _ hd => hd) hcerts h.exec le_rfl
    (h.lock.trans (s.b_lock_le_touched config nblk b))
    (h.hqc.trans (s.hqc_le_touched config nblk b))

/-- The block that is committed is lower than the lock and the highest certificate. -/
theorem Trimmed.commits_lt (h : s.Trimmed) {nblk blk1 blk : Hash} (b : Block Hash Sig)
    (hcom : Commits config s nblk blk1 blk) :
    s.height blk < s.height (s.touched config nblk b).b_lock ∧
      s.height blk < s.height (s.touched config nblk b).hqc.1 := by
  have hd1 := h.delivered_of_qc_ref (undecided_ref_eq_some.mp hcom.undecided_ref).1
  have h1 := h.height_parent hd1 hcom.parent
  have hlock := lock_ref_le_touched b hcom.lock_ref
  refine ⟨by omega, ?_⟩
  cases htwo : config.two_step with
  | true =>
    have href : s.undecided_ref nblk = some blk1 := by
      rw [← hcom.lock_ref, HotStuffCore.lock_ref, htwo, if_pos rfl]
    have hhqc := undecided_ref_le_touched config b href
    omega
  | false =>
    obtain ⟨blk2, href, href2, hp2⟩ := hcom.three_step htwo
    have hd2 := h.delivered_of_qc_ref (undecided_ref_eq_some.mp href2).1
    have h2 := h.height_parent hd2 hp2
    have hhqc := undecided_ref_le_touched config b href
    omega

/-- The walk of a commit ends at a block that is no higher than where it starts. -/
theorem b_exec_le_of_walk {blk : Hash} {passed : List Hash}
    (hw : s.walk (s.height s.b_exec) (s.height blk + 1) blk = some (passed, s.b_exec)) :
    s.height s.b_exec ≤ s.height blk := by
  obtain ⟨hhead, -, hpassed, -⟩ := walk_spec hw
  cases passed with
  | nil =>
    have heq : s.b_exec = blk := Option.some.inj hhead
    rw [heq]
  | cons x xs =>
    have heq : x = blk := Option.some.inj hhead
    exact (hpassed blk (heq ▸ List.mem_cons_self ..)).le

section Calls

variable [DecidableEq Hash]

theorem Trimmed.update (h : s.Trimmed) (config : Config Hash Sig) (nblk : Hash) :
    (s.update config nblk).Leaves Trimmed := by
  cases hb : s.storage nblk with
  | none => simp [HotStuffCore.update, hb]
  | some b =>
    have ht := h.touched config hb
    rcases update_cases config hb with hu | ⟨-, hu⟩ | ⟨blk1, blk, hcom, hu⟩
    · exact hu ▸ Outcome.leaves_ok.mpr ht
    · exact hu ▸ Outcome.leaves_undefined
    rw [hu]
    obtain ⟨hlock, hhqc⟩ := h.commits_lt b hcom
    have hdel : s.delivered blk = true :=
      h.parents_delivered (List.mem_of_head? hcom.parent)
    rcases commit_cases (s.touched config nblk b) blk with ⟨-, hc⟩ | hc | ⟨passed, hw, hc⟩
    · exact hc ▸ Outcome.leaves_undefined
    · exact hc ▸ Outcome.leaves_throw.mpr ht
    rw [hc, Outcome.leaves_ok]
    obtain ⟨storage, out, hframe⟩ := commit_all_frame (s.touched config nblk b) passed.reverse
    have hsh := commit_all_sameShape (s.touched config nblk b) passed.reverse
    have hdec := @commit_all_keeps_decision _ _ _ (s.touched config nblk b) passed.reverse
    have hcerts := (commit_keeps_votes (s.touched config nblk b) blk) _ (by rw [hc]; rfl)
    refine ht.frame (hsh.trans (.of_storage_eq rfl)) (fun _ hd => hdec hd) ?_ hdel
      (b_exec_le_of_walk hw) ?_ ?_
    · exact ht.certs.frame (hsh.trans (.of_storage_eq rfl)).grows hcerts.1 hcerts.2
    · rw [hframe]
      exact hlock.le
    · rw [hframe]
      exact hhqc.le

theorem kept_trimmed (config : Config Hash Sig) :
    Kept config fun s : HotStuffCore Hash Sig => s.Trimmed where
  update s nblk h _ := h.update config nblk
  vote_on s prop h := by
    rcases vote_on_cases config prop s with ⟨-, ho⟩ | ho | ⟨-, ho⟩
    · exact ho ▸ Outcome.leaves_undefined
    · exact ho ▸ Outcome.leaves_ok.mpr h
    · exact ho ▸ Outcome.leaves_ok.mpr (h.of_storage_eq rfl rfl rfl rfl)
  broadcast s prop h := h.of_storage_eq rfl rfl rfl rfl

/-! ## Delivery -/

omit [DecidableEq Hash] in
theorem Delivery.trimLaw {b b' : Block Hash Sig} (h : s.TrimLaw b) (hshort : s.Short)
    (hd : b.delivered = false) (hdel : Delivery s b b') : s.TrimLaw b' := by
  refine ⟨hdel.parents_delivered, fun hd' p hp => ?_, fun q hq => ?_,
    hdel.waiting h.parents (h.waiting hd) hshort⟩
  · cases hdel with
    | blocked => simp [hd] at hd'
    | unfetched => simp [hd] at hd'
    | delivered p' ps hph hps hqc =>
      have hpp : p' = p := Option.some.inj hp
      subst hpp
      exact Nat.mod_eq_of_lt (hshort p' (hps p' List.mem_cons_self))
  · cases hdel with
    | blocked => exact h.qc_ref q hq
    | unfetched => exact h.qc_ref q hq
    | delivered p' ps hph hps hqc =>
      have heq : b.qc.obj_hash = q := Option.some.inj hq
      exact ⟨heq.symm, heq ▸ hqc⟩

omit [DecidableEq Hash] in
/-- A waiting block does not get lower, and without parents it stays at height 0. -/
theorem Delivery.height_le {b b' : Block Hash Sig} (h : s.TrimLaw b) (hshort : s.Short)
    (hd : b.delivered = false) (hdel : Delivery s b b') :
    b.height ≤ b'.height ∧ (b'.parents = [] → b'.qc_ref = none ∧ b'.height = 0) := by
  have hw := h.waiting hd
  have hraised : ∀ p ps, b.parent_hashes = p :: ps → (∀ x ∈ p :: ps, s.delivered x = true) →
      b.height ≤ (s.height p + 1) % 2 ^ 32 := by
    intro p ps hph hps
    rw [Nat.mod_eq_of_lt (hshort p (hps p List.mem_cons_self))]
    cases hq : b.parents with
    | nil => exact (hw.height hq).le.trans (Nat.zero_le _)
    | cons q qs =>
      obtain ⟨hhead, hheight⟩ := hw.parent q (by rw [hq]; rfl)
      rw [hph] at hhead
      have hpq : p = q := Option.some.inj hhead
      rw [← hpq] at hheight
      omega
  have hlaw := hdel.trimLaw h hshort hd
  cases hdel with
  | blocked hlt =>
    have hw' := hlaw.waiting hd
    exact ⟨le_rfl, fun hnil => ⟨hw'.qc_ref, hw'.height hnil⟩⟩
  | unfetched p ps hph hps hqc => exact ⟨hraised p ps hph hps, fun hnil => by cases hnil⟩
  | delivered p ps hph hps hqc => exact ⟨hraised p ps hph hps, fun hnil => by cases hnil⟩

theorem Trimmed.on_deliver_blk (h : s.Trimmed) (hshort : s.Short) (blk : Hash) :
    (s.on_deliver_blk blk).Leaves Trimmed := by
  cases hb : s.storage blk with
  | none => simp [HotStuffCore.on_deliver_blk, hb]
  | some b =>
    cases hd : b.delivered with
    | true =>
      rw [on_deliver_blk_of_delivered hb hd, Outcome.leaves_ok]
      exact h
    | false =>
      intro s' hs'
      obtain ⟨hhqc, hvotes⟩ := on_deliver_blk_sameVotes s blk s' hs'
      obtain ⟨b', t, hdel, rfl, -⟩ := on_deliver_blk_leaves hb hd s' hs'
      have hg : Grows s { s.put blk b' with tails := t } :=
        (Grows.put hb hd hdel.toBlockData_eq).trans (SameShape.of_storage_eq rfl).grows
      have hlaw := h.law blk b hb
      obtain ⟨hup, hnil⟩ := hdel.height_le hlaw hshort hd
      refine h.write hg (fun x hx => storage_put_of_ne s b' hx) (storage_put_self s blk b')
        ((hdel.trimLaw hlaw hshort hd).mono hg rfl) (h.certs.frame hg hhqc hvotes) hnil ?_ rfl rfl
        rfl
      rw [height_eq hb]
      exact hup

/-! ## The other calls -/

theorem Trimmed.add_blk (h : s.Trimmed) (config : Config Hash Sig) (data : BlockData Hash Sig) :
    (s.call config (.add_blk data)).Leaves Trimmed := by
  cases hb : s.storage (config.get_hash data) with
  | some b =>
    rw [call_add_blk_of_isSome (by simp [hb]), Outcome.leaves_ok]
    exact h
  | none =>
    rw [call_add_blk_of_none hb, Outcome.leaves_ok]
    have hcerts : (s.put (config.get_hash data) (.unserialize data)).CertsOk :=
      h.certs.put fun qc hqc => by simp [Block.unserialize] at hqc
    refine h.write (Grows.put_new hb _) (fun x hx => storage_put_of_ne s _ hx)
      (storage_put_self s _ _) ?_ hcerts (fun _ => ⟨rfl, rfl⟩) ?_ rfl rfl rfl
    · exact ⟨fun p hp => by simp [Block.unserialize] at hp,
        fun hd => by simp [Block.unserialize] at hd, fun q hq => by simp [Block.unserialize] at hq,
        fun _ => ⟨rfl, fun _ => rfl, fun p hp => by simp [Block.unserialize] at hp⟩⟩
    · simp [HotStuffCore.height, hb]

theorem Trimmed.deliver_proposed (h : s.Trimmed) (config : Config Hash Sig) (hshort : s.Short)
    (cmds : List Hash) (p : Hash) (ps : List Hash) (extra : List UInt8)
    (hps : ∀ x ∈ p :: ps, s.delivered x = true) :
    ((s.store_proposed config cmds p ps extra).on_deliver_blk
      (config.get_hash (s.proposed cmds (p :: ps) extra))).Leaves Trimmed := by
  have hg := store_proposed_grows config s cmds p ps extra
  have hcerts : (s.store_proposed config cmds p ps extra).CertsOk :=
    store_proposed_certsOk h.certs cmds p ps extra
  cases hb : s.storage (config.get_hash (s.proposed cmds (p :: ps) extra)) with
  | some b =>
    have hsh := store_proposed_sameShape hb
    have hq := store_proposed_quiet config s cmds p ps extra
    have h1 : (s.store_proposed config cmds p ps extra).Trimmed :=
      h.frame hsh (fun x hx => (hq.decision x).trans hx) hcerts h.exec le_rfl h.lock h.hqc
    exact h1.on_deliver_blk (hshort.of_grows hg fun _ => delivered_of_store_proposed) _
  | none =>
    intro s' hs'
    obtain ⟨hhqc, hvotes⟩ := on_deliver_blk_sameVotes _ _ s' hs'
    have hgd := on_deliver_blk_grows _ _ s' hs'
    have hs1 := store_proposed_of_none hb
    generalize s.store_proposed config cmds p ps extra = s1 at hg hs1 hs' hcerts hhqc hvotes hgd
    have hb1 := congrArg (·.storage (config.get_hash (s.proposed cmds (p :: ps) extra))) hs1
    have hb1 := hb1.trans (storage_put_self s _ _)
    have hstored : (s.storage s.hqc.2.obj_hash).isSome := by
      rw [h.certs.hqc]
      exact h.certs.stored
    have hdo := on_deliver_blk_ok hb1 rfl (p := p) (t := ps) rfl
      (fun x hx => hg.delivered (hps x hx)) (hg.isSome hstored)
    rw [hdo] at hs'
    have heq := Option.some.inj hs'
    subst heq
    refine h.write (hg.trans hgd) (fun x hx => ?_) (storage_put_self s1 _ _)
      (TrimLaw.mono (s := s) ⟨hps, fun _ q hq => ?_, fun q hq => ?_, fun hd => by cases hd⟩
        (hg.trans hgd) rfl)
      (hcerts.frame hgd hhqc hvotes) (fun hnil => by cases hnil) ?_ ?_ ?_ ?_
    · refine (storage_put_of_ne s1 _ hx).trans ?_
      rw [hs1]
      exact storage_put_of_ne s _ hx
    · have hpq : p = q := Option.some.inj hq
      subst hpq
      have hpd := hps p List.mem_cons_self
      refine Eq.trans ?_ (Nat.mod_eq_of_lt (hshort p hpd))
      rw [← (hg.sameAt hpd).height]
    · have heq : s.hqc.2.obj_hash = q := Option.some.inj hq
      exact ⟨heq.symm, heq ▸ hstored⟩
    · simp [HotStuffCore.height, hb]
    · rw [hs1]
      rfl
    · rw [hs1]
      rfl
    · rw [hs1]
      rfl

omit [DecidableEq Hash] in
theorem height_update_hqc (s : HotStuffCore Hash Sig) (h : Hash) (qc : QuorumCert Hash Sig) :
    s.height s.hqc.1 ≤ s.height (s.update_hqc h qc).hqc.1 := by
  unfold update_hqc
  split
  · rename_i hlt
    exact hlt.le
  · exact le_rfl

theorem Trimmed.on_receive_vote (h : s.Trimmed) (config : Config Hash Sig)
    (vote : Vote Hash Sig) : (s.on_receive_vote config vote).Leaves Trimmed := by
  intro s' hs'
  have hcerts := on_receive_vote_certsOk config h.certs vote s' hs'
  have hsh := on_receive_vote_sameShape config s vote s' hs'
  have hq := on_receive_vote_quiet config s vote s' hs'
  have hdec : ∀ x, s.decision x = true → s'.decision x = true := fun x hx =>
    (hq.decision x).trans hx
  have hexec : s.delivered s'.b_exec = true := by
    rw [hq.b_exec]
    exact h.exec
  rcases on_receive_vote_cases config vote s with ho | ho | ⟨b, hb, hd, -, -, ho⟩
  · rw [ho] at hs'
    exact Option.some.inj hs' ▸ h
  · rw [ho] at hs'
    exact Option.some.inj hs' ▸ h
  · generalize s.on_receive_vote config vote = o at ho hs'
    cases ho with
    | mismatch =>
      have heq := Option.some.inj hs'
      subst heq
      exact h.frame hsh hdec hcerts hexec le_rfl h.lock h.hqc
    | collected =>
      have heq := Option.some.inj hs'
      subst heq
      exact h.frame hsh hdec hcerts hexec le_rfl h.lock h.hqc
    | computed qc' =>
      have heq := Option.some.inj hs'
      subst heq
      refine h.frame hsh hdec hcerts hexec le_rfl h.lock (h.hqc.trans ?_)
      rw [← (hsh _).height, ← (hsh _).height]
      exact height_update_hqc (s.put vote.blk_hash _) _ _

/-- The chains are shorter than 2^32, and a replica proposes on delivered blocks. -/
def Callable (s : HotStuffCore Hash Sig) : Call Hash Sig → Prop
  | .on_propose _ parents _ => s.Short ∧ ∀ p ∈ parents, s.delivered p = true
  | _ => s.Short

theorem Trimmed.call (h : s.Trimmed) (config : Config Hash Sig) {c : Call Hash Sig}
    (hc : s.Callable c) : (s.call config c).Leaves Trimmed := by
  have hk : Kept config fun s : HotStuffCore Hash Sig => s.Trimmed := kept_trimmed config
  cases c with
  | add_blk data => exact h.add_blk config data
  | on_deliver_blk blk => exact h.on_deliver_blk hc blk
  | on_propose cmds parents extra =>
    exact hk.on_propose h cmds parents extra fun p ps hps =>
      h.deliver_proposed config hc.1 cmds p ps extra (hps ▸ hc.2)
  | on_receive_proposal prop => exact hk.on_receive_proposal h prop
  | on_receive_vote vote => exact h.on_receive_vote config vote
  | set_vote_disabled f =>
    exact Outcome.leaves_ok.mpr (h.of_storage_eq rfl rfl rfl rfl)

/-! ## Blocks that name a parent -/

section Names

omit [DecidableEq Hash]

/-- What is newly delivered names a parent, and nothing becomes undecided. -/
theorem OverGenesis.grows (h : OverGenesis config s) (hg : Grows s s')
    (hdec : ∀ x, s.decision x = true → s'.decision x = true)
    (hnew : ∀ x b, s'.storage x = some b → b.delivered = true → s.delivered x = false →
      b.parent_hashes ≠ [] ∧ 0 < b.height) : OverGenesis config s' := by
  intro x b' hb' hd'
  cases hd : s.delivered x with
  | false => exact .inl (hnew x b' hb' hd' hd)
  | true =>
    obtain ⟨b, hb, hbd⟩ := exists_of_delivered hd
    obtain ⟨c, hc, hdata, hsh⟩ := hg x b hb
    rw [hb', Option.some.injEq] at hc
    subst hc
    have hheight : b'.height = b.height := congrArg (·.height) (hsh hbd)
    have hnames : b'.parent_hashes = b.parent_hashes := congrArg (·.parent_hashes) hdata
    rw [hheight, hnames]
    refine (h x b hb hbd).imp_right fun ⟨hgen, hzero, hdecided⟩ => ⟨hgen, hzero, ?_⟩
    rw [← decision_eq hb']
    exact hdec x ((decision_eq hb).trans hdecided)

theorem OverGenesis.of_sameShape (h : OverGenesis config s) (hsh : SameShape s s')
    (hdec : ∀ x, s.decision x = true → s'.decision x = true) : OverGenesis config s' := by
  refine h.grows hsh.grows hdec fun x b hb hd hnd => ?_
  rw [← (hsh x).delivered, delivered_eq hb, hd] at hnd
  cases hnd

end Names

theorem OverGenesis.on_deliver_blk (h : OverGenesis config s) (hshort : s.Short) (blk : Hash) :
    (s.on_deliver_blk blk).Leaves (OverGenesis config) := by
  intro s' hs'
  have hq := on_deliver_blk_quiet s blk s' hs'
  refine h.grows hq.grows (fun x hx => (hq.decision x).trans hx) fun x b' hb' hd' hnd => ?_
  cases hb : s.storage blk with
  | none => simp [HotStuffCore.on_deliver_blk, hb, Outcome.state?] at hs'
  | some b =>
    cases hd : b.delivered with
    | true =>
      rw [on_deliver_blk_of_delivered hb hd] at hs'
      have heq := Option.some.inj hs'
      subst heq
      rw [delivered_eq hb', hd'] at hnd
      cases hnd
    | false =>
      obtain ⟨c, t, hdel, rfl, -⟩ := on_deliver_blk_leaves hb hd s' hs'
      by_cases hx : x = blk
      · subst hx
        have heq := Option.some.inj ((storage_put_self s x c).symm.trans hb')
        subst heq
        cases hdel with
        | blocked => simp [hd] at hd'
        | unfetched => simp [hd] at hd'
        | delivered p ps hph hps hqc =>
          refine ⟨by rw [hph]; exact List.cons_ne_nil p ps, ?_⟩
          have hlt := hshort p (hps p List.mem_cons_self)
          exact (Nat.succ_pos _).trans_eq (Nat.mod_eq_of_lt hlt).symm
      · have hb'' : s.storage x = some b' := (storage_put_of_ne s c hx).symm.trans hb'
        rw [delivered_eq hb'', hd'] at hnd
        cases hnd

theorem kept_overGenesis (config : Config Hash Sig) :
    Kept config (OverGenesis config : HotStuffCore Hash Sig → Prop) where
  update s nblk h hd s' hs' := by
    obtain ⟨b, hb, -⟩ := exists_of_delivered hd
    have hu := update_leaves config hb s' hs'
    exact h.of_sameShape hu.shape hu.decision
  vote_on s prop h s' hs' := by
    have hq := vote_on_quiet config s prop s' hs'
    exact h.of_sameShape (vote_on_sameShape config s prop s' hs') fun x hx =>
      (hq.decision x).trans hx
  broadcast s prop h := h

theorem OverGenesis.call (h : OverGenesis config s) {c : Call Hash Sig} (hc : s.Callable c) :
    (s.call config c).Leaves (OverGenesis config) := by
  have hk := kept_overGenesis config
  cases c with
  | add_blk data =>
    cases hb : s.storage (config.get_hash data) with
    | some b =>
      rw [call_add_blk_of_isSome (by simp [hb]), Outcome.leaves_ok]
      exact h
    | none =>
      rw [call_add_blk_of_none hb, Outcome.leaves_ok]
      have hq : Quiet s (s.put (config.get_hash data) (.unserialize data)) := Quiet.put_new hb rfl
      refine h.grows hq.grows (fun x hx => (hq.decision x).trans hx) fun x b hbx hd hnd => ?_
      by_cases hx : x = config.get_hash data
      · subst hx
        rw [storage_put_self, Option.some.injEq] at hbx
        simp [← hbx, Block.unserialize] at hd
      · rw [storage_put_of_ne s _ hx] at hbx
        rw [delivered_eq hbx, hd] at hnd
        cases hnd
  | on_deliver_blk blk => exact h.on_deliver_blk hc blk
  | on_propose cmds parents extra =>
    refine hk.on_propose h cmds parents extra fun p ps hps => ?_
    have hq := store_proposed_quiet config s cmds p ps extra
    have hold : ∀ x, (s.store_proposed config cmds p ps extra).delivered x = true →
        s.delivered x = true := fun _ => delivered_of_store_proposed
    have h1 : OverGenesis config (s.store_proposed config cmds p ps extra) := by
      refine h.grows hq.grows (fun x hx => (hq.decision x).trans hx) fun x b hb hd hnd => ?_
      rw [hold x ((delivered_eq hb).trans hd)] at hnd
      cases hnd
    exact h1.on_deliver_blk (hc.1.of_grows hq.grows hold) _
  | on_receive_proposal prop => exact hk.on_receive_proposal h prop
  | on_receive_vote vote =>
    intro s' hs'
    have hq := on_receive_vote_quiet config s vote s' hs'
    exact h.of_sameShape (on_receive_vote_sameShape config s vote s' hs') fun x hx =>
      (hq.decision x).trans hx
  | set_vote_disabled f => exact Outcome.leaves_ok.mpr h

/-! ## Pruned blocks -/

theorem OverGenesis.trim (h : OverGenesis config s) {x : Hash} {b : Block Hash Sig}
    (hb : s.storage x = some b) (ps : List Hash) : OverGenesis config (s.trim x b ps) := by
  intro y c hc hd
  by_cases hy : y = x
  · subst hy
    have heq := Option.some.inj ((storage_trim_self s y b ps).symm.trans hc)
    subst heq
    exact h y b hb hd
  · exact h y c ((storage_trim_of_ne s b ps hy).symm.trans hc) hd

theorem OverGenesis.release (h : OverGenesis config s) (x : Hash) :
    OverGenesis config (s.release x) :=
  fun y c hc hd => h y c (storage_of_release hc).2 hd

theorem OverGenesis.prune {get_cnt : RefCount Hash Sig} (h : OverGenesis config s)
    {held : List Hash} {fuel staleness : ℕ}
    (hs : s.prune get_cnt held fuel staleness = some s') : OverGenesis config s' := by
  unfold HotStuffCore.prune at hs
  split at hs
  · exact Option.some.inj hs ▸ h
  · rename_i start hstart
    refine prune_loop_keeps (P := fun s _ => OverGenesis config s) (fun s blk rest hs => ?_) ?_ hs
    · rcases prune_turn_cases get_cnt (start :: held) blk rest s with
        ⟨-, ht⟩ | ⟨-, -, ht⟩ | ⟨b, p, hb, -, ht⟩
      · exact ht ▸ hs
      · exact ht ▸ hs.release blk
      · exact ht ▸ hs.trim hb _
    · cases hb : s.storage start with
      | none =>
        intro x b hx hd
        refine h x b ?_ hd
        have hne : x ≠ start := by
          rintro rfl
          rw [storage_modify_self, hb] at hx
          cases hx
        exact (storage_modify_of_ne s _ hne).symm.trans hx
      | some b =>
        rw [modify_eq_put hb]
        exact h.trim hb b.parents

theorem Trimmed.trim (h : s.Trimmed) {x : Hash} {b : Block Hash Sig} (hb : s.storage x = some b)
    (hd : b.delivered = true) (hlow : s.height x ≤ s.height s.b_exec) {ps : List Hash}
    (hps : ps <+: b.parents) : (s.trim x b ps).Trimmed := by
  have hlaw : ∀ {c : Block Hash Sig}, s.TrimLaw c → (s.trim x b ps).TrimLaw c := fun hc =>
    hc.keep (fun p _ => ⟨trim_delivered hb ps p, trim_height hb ps p⟩)
      (fun q _ hq => (trim_isSome hb ps q).trans hq) rfl
  refine ⟨fun y c hc => ?_, ?_, ?_, fun y hy => ?_, ?_, ?_, ?_⟩
  · by_cases hyx : y = x
    · subst hyx
      have heq := Option.some.inj ((storage_trim_self s y b ps).symm.trans hc)
      exact heq ▸ hlaw ((h.law y b hb).trim hd hps)
    · exact hlaw (h.law y c ((storage_trim_of_ne s b ps hyx).symm.trans hc))
  · exact h.certs.put fun qc hqc => h.certs.self_qc x b qc hb hqc
  · rintro ⟨y, hdec, hpar, hq⟩
    by_cases hyx : y = x
    · subst hyx
      rw [qc_ref_eq (storage_trim_self s y b ps)] at hq
      cases hq
    · refine h.undecided ⟨y, ?_, ?_, ?_⟩
      · simpa [HotStuffCore.decision, storage_trim_of_ne s b ps hyx] using hdec
      · simpa [HotStuffCore.parents, storage_trim_of_ne s b ps hyx] using hpar
      · simpa [HotStuffCore.qc_ref, storage_trim_of_ne s b ps hyx] using hq
  · rw [trim_height hb, trim_height hb] at hy
    have hyx : y ≠ x := by
      rintro rfl
      exact absurd hlow (Nat.not_le_of_lt hy)
    rw [trim_parents, Function.update_of_ne hyx]
    exact h.high y hy
  · rw [trim_delivered hb]
    exact h.exec
  · rw [trim_height hb, trim_height hb]
    exact h.lock
  · rw [trim_height hb, trim_height hb]
    exact h.hqc

/-- A block that nothing refers to can go. -/
theorem Trimmed.release (h : s.Trimmed) {x : Hash} (hx : s.Unreferred x) :
    (s.release x).Trimmed := by
  have hexec := storage_release_of_ne s hx.exec.symm
  have hhqc := storage_release_of_ne s hx.hqc.symm
  refine ⟨fun y c hc => ?_, ⟨h.certs.hqc, ?_, fun y c qc hc => ?_⟩, ?_, fun y hy => ?_, ?_, ?_, ?_⟩
  · have hcs := (storage_of_release hc).2
    refine (h.law y c hcs).keep (fun p hp => ?_) (fun q hq hs => ?_) rfl
    · have hpx : p ≠ x := by
        rintro rfl
        exact hx.parents y (by rw [parents_eq hcs]; exact hp)
      have hst := storage_release_of_ne s hpx
      exact ⟨by simp [HotStuffCore.delivered, hst], release_height_of_ne s hpx⟩
    · have hqx : q ≠ x := by
        rintro rfl
        exact hx.qc_ref y (by rw [qc_ref_eq hcs]; exact hq)
      rw [storage_release_of_ne s hqx]
      exact hs
  · exact hhqc ▸ h.certs.stored
  · exact h.certs.self_qc y c qc (storage_of_release hc).2
  · rintro ⟨y, hdec, hpar, hq⟩
    have hyx : y ≠ x := by
      rintro rfl
      simp [HotStuffCore.qc_ref, HotStuffCore.release] at hq
    have hst := storage_release_of_ne s hyx
    refine h.undecided ⟨y, ?_, ?_, ?_⟩
    · simpa [HotStuffCore.decision, hst] using hdec
    · simpa [HotStuffCore.parents, hst] using hpar
    · simpa [HotStuffCore.qc_ref, hst] using hq
  · have hyx : y ≠ x := by
      rintro rfl
      simp [HotStuffCore.height, HotStuffCore.release] at hy
    have hst := storage_release_of_ne s hyx
    rw [release_height_of_ne s hyx] at hy
    have hpar := h.high y (by rwa [← release_height_of_ne s hx.exec.symm])
    simpa [HotStuffCore.parents, hst] using hpar
  · have hdel := h.exec
    rw [HotStuffCore.delivered, ← hexec] at hdel
    exact hdel
  · have hlock := h.lock
    rw [← release_height_of_ne s hx.exec.symm, ← release_height_of_ne s hx.lock.symm] at hlock
    exact hlock
  · have hle := h.hqc
    rw [← release_height_of_ne s hx.exec.symm, ← release_height_of_ne s hx.hqc.symm] at hle
    exact hle

end Calls

end HotStuffCore

end general_hotstuff
