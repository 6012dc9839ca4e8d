-- What holds at one correct replica when the others do as they please: every certificate
-- that it has taken over is genuine, its lock is as high as all that its votes guard, and
-- what it has committed is guarded by a certified block.
import GeneralHotStuff.Network

namespace general_hotstuff

open quorums (ReplicaID)

variable {Hash Sig : Type}

/-- A vote for `g` guards the block that `g` would commit if it were certified: three steps need
two links by certificate and by first parent, two steps need one. -/
def Guards (config : Config Hash Sig) (g b : Hash) : Prop :=
  if config.two_step then config.QcOf g b ∧ config.Parent g b
  else ∃ b1, config.QcOf g b1 ∧ config.Parent g b1 ∧ config.QcOf b1 b ∧ config.Parent b1 b

/-- Genesis or a certified block. -/
def Rooted (config : Config Hash Sig) (correct : ReplicaID → Prop)
    (votes : List (ReplicaID × Hash)) (h : Hash) : Prop :=
  h = config.b0 ∨ Certified config correct votes h

theorem Rooted.mono {config : Config Hash Sig} {correct : ReplicaID → Prop}
    {votes votes' : List (ReplicaID × Hash)} {h : Hash} (hr : Rooted config correct votes h)
    (hsub : ∀ v ∈ votes, v ∈ votes') : Rooted config correct votes' h :=
  hr.imp_right (Certified.mono · hsub)

/-- Genesis, or a block that a certified one guards. -/
def Secured (config : Config Hash Sig) (correct : ReplicaID → Prop)
    (votes : List (ReplicaID × Hash)) (h : Hash) : Prop :=
  h = config.b0 ∨ ∃ g, Certified config correct votes g ∧ Guards config g h

theorem Secured.mono {config : Config Hash Sig} {correct : ReplicaID → Prop}
    {votes votes' : List (ReplicaID × Hash)} {h : Hash} (hs : Secured config correct votes h)
    (hsub : ∀ v ∈ votes, v ∈ votes') : Secured config correct votes' h :=
  hs.imp_right fun ⟨g, hg, hb⟩ => ⟨g, hg.mono hsub, hb⟩

namespace HotStuffCore

/-! ## The stored blocks against their content -/

/-- `b` is reached from `a` along the first parents in the storage. -/
def above (s : HotStuffCore Hash Sig) : Hash → Hash → Prop :=
  Relation.ReflTransGen fun x y => (s.parents x).head? = some y

section Content

variable {config : Config Hash Sig} {s : HotStuffCore Hash Sig}

/-- Parents are delivered, and those of delivered blocks are the ones that the hash stands for. -/
structure Chained (config : Config Hash Sig) (s : HotStuffCore Hash Sig) : Prop where
  delivered : ∀ x p, (s.parents x).head? = some p → s.delivered p = true
  parent : ∀ x p, s.delivered x = true → (s.parents x).head? = some p → config.Parent x p

theorem Chained.above_of_above (h : Chained config s) {x y : Hash} (hd : s.delivered x = true)
    (hxy : s.above x y) : config.Above x y ∧ s.delivered y = true := by
  induction hxy with
  | refl => exact ⟨.refl, hd⟩
  | tail _ hp ih => exact ⟨ih.1.tail (h.parent _ _ ih.2 hp), h.delivered _ _ hp⟩

/-- Chains of delivered blocks stay. -/
theorem Chained.above_of_grows {s' : HotStuffCore Hash Sig} (h : Chained config s)
    (hg : Grows s s') {x y : Hash} (hd : s.delivered x = true) (hxy : s.above x y) :
    s'.above x y := by
  induction hxy with
  | refl => exact .refl
  | tail hxy hp ih =>
    have hyd := (h.above_of_above hd hxy).2
    exact ih.tail ((hg.sameAt hyd).parents ▸ hp)

theorem BlocksOk.parent_of_delivered (hok : BlocksOk config s) {x p : Hash}
    (hd : s.delivered x = true) (hp : (s.parents x).head? = some p) : config.Parent x p := by
  obtain ⟨b, hb, hbd⟩ := exists_of_delivered hd
  have hx : x ≠ config.b0 := by
    intro hx
    rw [hx, hok.b0_parents] at hp
    cases hp
  have hlaw := hok.law x b hx hb
  obtain ⟨q, qs, hph, hps, -⟩ := hlaw.linked hbd
  rw [parents_eq hb, hps] at hp
  exact ⟨b.toBlockData, hlaw.hash, by rw [hph]; exact hp⟩

theorem BlocksOk.parents_of_parent (hok : BlocksOk config s) (hc : config.CollisionFree)
    {x p : Hash} (hd : s.delivered x = true) (hp : config.Parent x p) :
    (s.parents x).head? = some p := by
  obtain ⟨b, hb, hbd⟩ := exists_of_delivered hd
  have hx : x ≠ config.b0 := fun hx => hc.not_parent_b0 (hx ▸ hp)
  obtain ⟨q, qs, hph, hps, -⟩ := (hok.law x b hx hb).linked hbd
  have hq : (s.parents x).head? = some q := by rw [parents_eq hb, hps]; rfl
  rw [hq, hc.parent_unique (hok.parent_of_delivered hd hq) hp]

theorem BlocksOk.qcOf_of_delivered (hok : BlocksOk config s) {x q : Hash}
    (hx : x ≠ config.b0) (hd : s.delivered x = true) (hq : s.qc_ref x = some q) :
    config.QcOf x q := by
  obtain ⟨b, hb, hbd⟩ := exists_of_delivered hd
  rw [qc_ref_eq hb, (hok.qc_ref_delivered hb hbd).1, Option.some.injEq] at hq
  exact ⟨b.toBlockData, (hok.law x b hx hb).hash, hq⟩

theorem BlocksOk.qc_ref_of_qcOf (hok : BlocksOk config s) (hc : config.CollisionFree)
    {x q : Hash} (hx : x ≠ config.b0) (hd : s.delivered x = true) (hq : config.QcOf x q) :
    s.qc_ref x = some q := by
  obtain ⟨b, hb, hbd⟩ := exists_of_delivered hd
  have href := (hok.qc_ref_delivered hb hbd).1
  rw [← qc_ref_eq hb] at href
  rw [href, hc.qcOf_unique (hok.qcOf_of_delivered hx hd href) hq]

/-- A child that refers to its first parent by certificate. -/
theorem BlocksOk.child (hok : BlocksOk config s) (hc : config.CollisionFree) {x y : Hash}
    (hd : s.delivered x = true) (hq : config.QcOf x y) (hp : config.Parent x y) :
    s.qc_ref x = some y ∧ s.delivered y = true ∧ s.height x = s.height y + 1 := by
  have hne : x ≠ config.b0 := fun heq => hc.not_parent_b0 (heq ▸ hp)
  have hhead := hok.parents_of_parent hc hd hp
  exact ⟨hok.qc_ref_of_qcOf hc hne hd hq, hok.parent_delivered hhead, hok.height_parent hd hhead⟩

/-- The height that a replica computes is the length of the chain down to genesis. -/
theorem BlocksOk.depth_of_delivered (hok : BlocksOk config s) {x : Hash}
    (hd : s.delivered x = true) : config.Depth x (s.height x) := by
  generalize hn : s.height x = n
  induction n using Nat.strong_induction_on generalizing x with
  | _ n ih =>
    by_cases hx : x = config.b0
    · rw [hx, hok.b0_height] at hn
      rw [hx, ← hn]
      exact .genesis
    · obtain ⟨b, hb, hbd⟩ := exists_of_delivered hd
      obtain ⟨p, ps, -, hps, -⟩ := (hok.law x b hx hb).linked hbd
      have hp : (s.parents x).head? = some p := by rw [parents_eq hb, hps]; rfl
      have hheight := hok.height_parent hd hp
      have hpd := ih (s.height p) (by omega) (hok.parent_delivered hp) rfl
      rw [← hn, hheight]
      exact .next (hok.parent_of_delivered hd hp) hpd

theorem BlocksOk.depth_eq (hok : BlocksOk config s) (hc : config.CollisionFree) {x : Hash}
    (hd : s.delivered x = true) : config.depth x = s.height x :=
  hc.depth_eq (hok.depth_of_delivered hd)

theorem BlocksOk.chained (hok : BlocksOk config s) : Chained config s :=
  ⟨fun _ _ hp => hok.parent_delivered hp, fun _ _ hd hp => hok.parent_of_delivered hd hp⟩

/-- From a delivered block the chain in the storage is the chain by content. -/
theorem BlocksOk.above_of_above (hok : BlocksOk config s) {x y : Hash}
    (hd : s.delivered x = true) (h : s.above x y) : config.Above x y ∧ s.delivered y = true :=
  hok.chained.above_of_above hd h

/-- First parents of the blocks in `P` are in `P`, too, and lower. -/
def Falling (s : HotStuffCore Hash Sig) (P : Hash → Prop) : Prop :=
  ∀ x p, P x → (s.parents x).head? = some p → P p ∧ s.height p < s.height x

theorem Falling.above_le {P : Hash → Prop} (h : s.Falling P) {x y : Hash} (hx : P x)
    (hxy : s.above x y) : P y ∧ s.height y ≤ s.height x := by
  induction hxy with
  | refl => exact ⟨hx, le_rfl⟩
  | tail _ hp ih =>
    obtain ⟨hpP, hlt⟩ := h _ _ ih.1 hp
    exact ⟨hpP, hlt.le.trans ih.2⟩

/-- The walk down to the height of a block on the chain ends at this block. -/
theorem Falling.walk_ends {P : Hash → Prop} (h : s.Falling P) {e x last : Hash} {fuel : ℕ}
    {passed : List Hash} (hx : P x) (hxe : s.above x e)
    (hw : s.walk (s.height e) fuel x = some (passed, last)) : last = e := by
  induction fuel generalizing x passed with
  | zero => simp [walk] at hw
  | succ fuel ih =>
    rcases Relation.ReflTransGen.cases_head hxe with rfl | ⟨p, hp, hpe⟩
    · simp only [walk, Nat.lt_irrefl, if_false, Option.some.injEq, Prod.mk.injEq] at hw
      exact hw.2.symm
    · obtain ⟨hpP, hlow⟩ := h x p hx hp
      have hlt : s.height e < s.height x := ((h.above_le hpP hpe).2).trans_lt hlow
      simp only [walk, if_pos hlt, hp, Option.bind_some, Option.map_eq_some_iff] at hw
      obtain ⟨⟨passed', last'⟩, hw', heq⟩ := hw
      obtain ⟨-, rfl⟩ := Prod.mk.inj heq
      exact ih hpP hpe hw'

theorem BlocksOk.falling (hok : BlocksOk config s) : s.Falling (s.delivered · = true) :=
  fun _ _ hd hp => ⟨hok.parent_delivered hp, by rw [hok.height_parent hd hp]; omega⟩

theorem BlocksOk.height_le_of_above (hok : BlocksOk config s) {x y : Hash}
    (hd : s.delivered x = true) (h : s.above x y) : s.height y ≤ s.height x :=
  (hok.falling.above_le hd h).2

/-- A walk goes along the chain. -/
theorem above_of_walk {bound fuel : ℕ} {x last : Hash} {passed : List Hash}
    (hw : s.walk bound fuel x = some (passed, last)) : s.above x last := by
  induction fuel generalizing x passed with
  | zero => simp [walk] at hw
  | succ fuel ih =>
    by_cases hlt : bound < s.height x
    · simp only [walk, if_pos hlt, Option.bind_eq_some_iff, Option.map_eq_some_iff] at hw
      obtain ⟨p, hp, ⟨passed', last'⟩, hw', heq⟩ := hw
      obtain ⟨-, rfl⟩ := Prod.mk.inj heq
      exact .head hp (ih hw')
    · simp only [walk, if_neg hlt, Option.some.injEq, Prod.mk.injEq] at hw
      rw [hw.2]
      exact .refl

/-- The end of a chain reaches all of it. -/
theorem above_of_chain {l : List Hash} {e : Hash}
    (hl : List.IsChain (fun a b => (s.parents b).head? = some a) l) (he : l.getLast? = some e) :
    ∀ x ∈ l, s.above e x := by
  induction l with
  | nil => simp
  | cons a l ih =>
    cases l with
    | nil =>
      rw [List.getLast?_singleton, Option.some.injEq] at he
      intro x hx
      rw [List.mem_singleton.mp hx, he]
      exact .refl
    | cons b l =>
      rw [List.isChain_cons_cons] at hl
      rw [List.getLast?_cons_cons] at he
      intro x hx
      rcases List.mem_cons.mp hx with rfl | hx
      · exact (ih hl.2 he b List.mem_cons_self).tail hl.1
      · exact ih hl.2 he x hx

/-- The decided blocks are on the chain of `b_exec`. -/
theorem LogOk.above_of_decided (h : LogOk config s) {x : Hash} (hx : s.decision x = true) :
    s.above s.b_exec x :=
  above_of_chain h.chain h.last x (List.mem_cons.mpr ((h.decided x).mp hx))

/-- The parent of a decided block is decided. -/
theorem LogOk.decided_parent (hok : Grounded config s) (h : LogOk config s) {x p : Hash}
    (hx : s.decision x = true) (hp : (s.parents x).head? = some p) : s.decision p = true := by
  rcases (h.decided x).mp hx with rfl | hmem
  · rw [hok.b0_parents] at hp
    cases hp
  · obtain ⟨below, above, hsplit⟩ := List.append_of_mem hmem
    have hchain := h.chain
    rw [hsplit, ← List.cons_append, List.isChain_append] at hchain
    obtain ⟨z, hz⟩ : ∃ z, (config.b0 :: below).getLast? = some z :=
      ⟨_, List.getLast?_eq_some_getLast (List.cons_ne_nil _ _)⟩
    have hzx := hchain.2.2 z hz x rfl
    rw [hp, Option.some.injEq] at hzx
    refine (h.decided p).mpr (List.mem_cons.mp ?_)
    rw [hzx, hsplit]
    exact List.mem_append.mpr (.inl (List.mem_of_getLast? hz))

theorem LogOk.decided_of_above (hok : Grounded config s) (h : LogOk config s) {x : Hash}
    (hx : s.above s.b_exec x) : s.decision x = true := by
  induction hx with
  | refl => exact (h.decided _).mpr (List.mem_cons.mp (List.mem_of_getLast? h.last))
  | tail _ hp ih => exact h.decided_parent hok ih hp

theorem LogOk.decided_le (hok : BlocksOk config s) (h : LogOk config s) {x : Hash}
    (hx : s.decision x = true) : s.height x ≤ s.height s.b_exec :=
  hok.height_le_of_above (h.exec_delivered hok.grounded) (h.above_of_decided hx)

end Content

/-! ## The invariant -/

/-- What a waiting block is like, and the certificate in it. -/
structure Parsed (config : Config Hash Sig) (correct : ReplicaID → Prop)
    (votes : List (ReplicaID × Hash)) (b : Block Hash Sig) : Prop where
  parents : b.parents = []
  qc_ref : b.qc_ref = none
  height : b.height = 0
  parsed : b.qc.Parsed
  unforged : Unforged config correct votes b.qc

/-- The stored blocks in a world where `votes` have been sent. -/
structure StoredOk (config : Config Hash Sig) (correct : ReplicaID → Prop)
    (votes : List (ReplicaID × Hash)) (s : HotStuffCore Hash Sig) : Prop where
  waiting : ∀ h b, s.storage h = some b → b.delivered = false → Parsed config correct votes b
  rooted : ∀ h b, s.storage h = some b → b.delivered = true →
    Rooted config correct votes b.qc.obj_hash
  voted : ∀ h b, h ≠ config.b0 → s.storage h = some b → ∀ i ∈ b.voted,
    i < config.nreplicas ∧ (correct i → (i, h) ∈ votes)

structure NodeOk (config : Config Hash Sig) (correct : ReplicaID → Prop) (r : ReplicaID)
    (votes : List (ReplicaID × Hash)) (s : HotStuffCore Hash Sig) : Prop where
  blocks : BlocksOk config s
  certs : s.CertsOk
  log : LogOk config s
  stored : StoredOk config correct votes s
  id : s.id = r
  hqc_delivered : s.delivered s.hqc.1 = true
  hqc : Rooted config correct votes s.hqc.1
  lock_delivered : s.delivered s.b_lock = true
  lock : Rooted config correct votes s.b_lock
  exec : s.height s.b_exec ≤ s.height s.b_lock
  cast : ∀ x, (r, x) ∈ votes → s.delivered x = true ∧ s.height x ≤ s.vheight
  guard : ∀ g b, (r, g) ∈ votes → Guards config g b → config.depth b ≤ s.height s.b_lock
  secured : Secured config correct votes s.b_exec

section Invariant

variable {config : Config Hash Sig} {correct : ReplicaID → Prop} {r : ReplicaID}
  {votes votes' : List (ReplicaID × Hash)} {s s' : HotStuffCore Hash Sig}

theorem Parsed.mono {b : Block Hash Sig} (h : Parsed config correct votes b)
    (hsub : ∀ v ∈ votes, v ∈ votes') : Parsed config correct votes' b :=
  ⟨h.parents, h.qc_ref, h.height, h.parsed, h.unforged.mono hsub⟩

theorem StoredOk.mono (h : StoredOk config correct votes s) (hsub : ∀ v ∈ votes, v ∈ votes') :
    StoredOk config correct votes' s where
  waiting x b hb hd := (h.waiting x b hb hd).mono hsub
  rooted x b hb hd := (h.rooted x b hb hd).mono hsub
  voted x b hx hb i hi :=
    ⟨(h.voted x b hx hb i hi).1, fun hc => hsub _ ((h.voted x b hx hb i hi).2 hc)⟩

/-- The others may vote. -/
theorem NodeOk.mono (h : NodeOk config correct r votes s) (hsub : ∀ v ∈ votes, v ∈ votes')
    (hown : ∀ x, (r, x) ∈ votes' → (r, x) ∈ votes) : NodeOk config correct r votes' s where
  blocks := h.blocks
  certs := h.certs
  log := h.log
  stored := h.stored.mono hsub
  id := h.id
  hqc_delivered := h.hqc_delivered
  hqc := h.hqc.mono hsub
  lock_delivered := h.lock_delivered
  lock := h.lock.mono hsub
  exec := h.exec
  cast x hx := h.cast x (hown x hx)
  guard g b hg := h.guard g b (hown g hg)
  secured := h.secured.mono hsub

/-- A call that leaves the lock, the log and the votes alone. -/
theorem NodeOk.frame (h : NodeOk config correct r votes s) (hblocks : BlocksOk config s')
    (hcerts : s'.CertsOk) (hlog : LogOk config s') (hg : Grows s s') (hid : s'.id = s.id)
    (hlock : s'.b_lock = s.b_lock) (hexec : s'.b_exec = s.b_exec)
    (hvheight : s.vheight ≤ s'.vheight) (hhqcd : s'.delivered s'.hqc.1 = true)
    (hhqc : Rooted config correct votes s'.hqc.1) (hstored : StoredOk config correct votes s') :
    NodeOk config correct r votes s' where
  blocks := hblocks
  certs := hcerts
  log := hlog
  stored := hstored
  id := hid.trans h.id
  hqc_delivered := hhqcd
  hqc := hhqc
  lock_delivered := by
    rw [hlock]
    exact hg.delivered h.lock_delivered
  lock := by
    rw [hlock]
    exact h.lock
  exec := by
    have hed := h.log.exec_delivered h.blocks.grounded
    rw [hlock, hexec, (hg.sameAt hed).height, (hg.sameAt h.lock_delivered).height]
    exact h.exec
  cast x hx := by
    obtain ⟨hd, hle⟩ := h.cast x hx
    rw [(hg.sameAt hd).height]
    exact ⟨hg.delivered hd, hle.trans hvheight⟩
  guard g b hgv hgb := by
    rw [hlock, (hg.sameAt h.lock_delivered).height]
    exact h.guard g b hgv hgb
  secured := by
    rw [hexec]
    exact h.secured

/-! ## Reading the invariant -/

theorem NodeOk.delivered_of_qc_ref (h : NodeOk config correct r votes s) {x q : Hash}
    (hq : s.qc_ref x = some q) : s.delivered x = true := by
  cases hb : s.storage x with
  | none => simp [HotStuffCore.qc_ref, hb] at hq
  | some b =>
    rw [qc_ref_eq hb] at hq
    cases hd : b.delivered with
    | true => rw [delivered_eq hb, hd]
    | false =>
      rw [(h.stored.waiting x b hb hd).qc_ref] at hq
      cases hq

theorem NodeOk.rooted_of_qc_ref (h : NodeOk config correct r votes s) {x q : Hash}
    (hq : s.qc_ref x = some q) : Rooted config correct votes q := by
  obtain ⟨b, hb, hd⟩ := exists_of_delivered (h.delivered_of_qc_ref hq)
  rw [qc_ref_eq hb, (h.blocks.qc_ref_delivered hb hd).1, Option.some.injEq] at hq
  exact hq ▸ h.stored.rooted x b hb hd

theorem NodeOk.delivered_of_height (h : NodeOk config correct r votes s) {x : Hash}
    (hx : 0 < s.height x) : s.delivered x = true := by
  cases hb : s.storage x with
  | none => simp [HotStuffCore.height, hb] at hx
  | some b =>
    rw [height_eq hb] at hx
    cases hd : b.delivered with
    | true => rw [delivered_eq hb, hd]
    | false =>
      rw [(h.stored.waiting x b hb hd).height] at hx
      cases hx

theorem NodeOk.delivered_of_parents (h : NodeOk config correct r votes s) {x p : Hash}
    (hp : (s.parents x).head? = some p) : s.delivered x = true := by
  cases hb : s.storage x with
  | none => simp [HotStuffCore.parents, hb] at hp
  | some b =>
    rw [parents_eq hb] at hp
    cases hd : b.delivered with
    | true => rw [delivered_eq hb, hd]
    | false =>
      rw [(h.stored.waiting x b hb hd).parents] at hp
      cases hp

theorem on_init_nodeOk [DecidableEq Hash] (config : Config Hash Sig)
    (correct : ReplicaID → Prop) (r : ReplicaID) :
    NodeOk config correct r [] (on_init config r) := by
  have honly : ∀ h b, (on_init config r).storage h = some b →
      h = config.b0 ∧ b = genesis config := by
    intro h b hb
    by_cases hh : h = config.b0
    · simp only [on_init, hh, Function.update_self, Option.some.injEq] at hb
      exact ⟨hh, hb.symm⟩
    · simp [on_init, hh] at hb
  have hstored : StoredOk config correct [] (on_init config r) := by
    refine ⟨fun h b hb hd => ?_, fun h b hb _ => ?_, fun h b hne hb => ?_⟩
    · rw [(honly h b hb).2] at hd
      cases hd
    · rw [(honly h b hb).2]
      exact .inl rfl
    · exact absurd (honly h b hb).1 hne
  have hblocks := on_init_blocksOk config r
  exact {
    blocks := hblocks
    certs := on_init_certsOk config r
    log := on_init_logOk config r
    stored := hstored
    id := rfl
    hqc_delivered := hblocks.b0_delivered
    hqc := .inl rfl
    lock_delivered := hblocks.b0_delivered
    lock := .inl rfl
    exec := le_rfl
    cast := by simp
    guard := by simp
    secured := .inl rfl }

end Invariant

end HotStuffCore

end general_hotstuff
