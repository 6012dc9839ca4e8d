-- The delivered blocks form a DAG whose tips are `tails`, and a delivery that throws only
-- touches the block that it is for, so that it can be tried again.
import GeneralHotStuff.BlockLinks
import GeneralHotStuff.Replay
import GeneralHotStuff.Transitions

/-! ## Tips -/

namespace tips

variable {α : Type*}

/-- A member that no member lists. -/
def Tip (D : α → Prop) (lists : α → α → Prop) (x : α) : Prop := D x ∧ ∀ y, D y → ¬lists y x

/-- A new member is a tip, and what it lists is none any more. -/
theorem tip_insert {D D' : α → Prop} {lists lists' : α → α → Prop} {x : α} (hx : ¬D x)
    (hD : ∀ z, D' z ↔ z = x ∨ D z) (hsame : ∀ y, D y → lists' y = lists y)
    (hclosed : ∀ y z, D y → lists y z → D z) (hnew : ∀ z, lists' x z → D z) (z : α) :
    Tip D' lists' z ↔ z = x ∨ Tip D lists z ∧ ¬lists' x z := by
  unfold Tip
  rw [hD]
  constructor
  · rintro ⟨rfl | hz, hno⟩
    · exact .inl rfl
    · refine .inr ⟨⟨hz, ?_⟩, hno x ((hD x).mpr (.inl rfl))⟩
      intro y hy
      rw [← hsame y hy]
      exact hno y ((hD y).mpr (.inr hy))
  · rintro (rfl | ⟨⟨hz, hno⟩, hzx⟩)
    · refine ⟨.inl rfl, ?_⟩
      intro y hy hlists
      rcases (hD y).mp hy with rfl | hy
      · exact hx (hnew y hlists)
      · rw [hsame y hy] at hlists
        exact hx (hclosed y z hy hlists)
    · refine ⟨.inr hz, ?_⟩
      intro y hy
      rcases (hD y).mp hy with rfl | hy
      · exact hzx
      · rw [hsame y hy]
        exact hno y hy

end tips

namespace general_hotstuff

open quorums (ReplicaID)
open tips transitions

namespace HotStuffCore

variable {Hash Sig : Type}

/-! ## The DAG -/

/-- `tails` are the delivered blocks that no delivered block lists as a parent. -/
def TailsOk (s : HotStuffCore Hash Sig) : Prop :=
  ∀ x, x ∈ s.tails ↔ Tip (s.delivered · = true) (fun y x => x ∈ s.parents y) x

/-- A delivered block has the parents and the height that its wire fields say, and refers to the
block of its certificate. -/
structure Placed (config : Config Hash Sig) (s : HotStuffCore Hash Sig) (x : Hash)
    (b : Block Hash Sig) : Prop where
  hash : config.get_hash b.toBlockData = x
  parents : b.parents = b.parent_hashes
  delivered : ∀ p ∈ b.parents, s.delivered p = true
  height : ∃ p, b.parents.head? = some p ∧ b.height = s.height p + 1
  qc_ref : b.qc_ref = some b.qc.obj_hash ∧ (s.storage b.qc.obj_hash).isSome

structure BlockDag (config : Config Hash Sig) (s : HotStuffCore Hash Sig) : Prop where
  placed : ∀ x b, x ≠ config.b0 → s.storage x = some b → b.delivered = true →
    Placed config s x b
  tails : s.TailsOk

variable {config : Config Hash Sig} {s s' : HotStuffCore Hash Sig}

theorem BlocksOk.placed (h : BlocksOk config s) {x : Hash} {b : Block Hash Sig}
    (hx : x ≠ config.b0) (hb : s.storage x = some b) (hd : b.delivered = true) :
    Placed config s x b := by
  have hlaw := h.law x b hx hb
  obtain ⟨p, ps, hph, hps, hheight, hq, hqs⟩ := hlaw.linked hd
  refine ⟨hlaw.hash, hps.trans hph.symm, hlaw.parents, ⟨p, ?_, hheight⟩, hq, hqs⟩
  rw [hps]
  rfl

/-- The parents of every block are delivered. -/
theorem BlocksOk.parents_delivered (h : BlocksOk config s) {x y : Hash} (hx : x ∈ s.parents y) :
    s.delivered x = true := by
  cases hb : s.storage y with
  | none => simp [HotStuffCore.parents, hb] at hx
  | some b =>
    by_cases hy : y = config.b0
    · simp [hy, h.b0_parents] at hx
    · rw [parents_eq hb] at hx
      exact (h.law y b hy hb).parents x hx

/-! ## What leaves the tails alone -/

/-- The blocks keep their shape and the tails are the same. -/
structure SameDag (s s' : HotStuffCore Hash Sig) : Prop where
  shape : SameShape s s'
  tails : s'.tails = s.tails

theorem TailsOk.congr (h : s.TailsOk) (htails : s'.tails = s.tails)
    (hdel : ∀ x, s'.delivered x = s.delivered x)
    (hpar : ∀ x, s.delivered x = true → s'.parents x = s.parents x) : s'.TailsOk := by
  intro x
  rw [htails, h x]
  unfold Tip
  simp only [hdel]
  refine and_congr_right fun _ => forall₂_congr ?_
  intro y hy
  rw [hpar y hy]

theorem SameDag.tailsOk (h : SameDag s s') (ht : s.TailsOk) : s'.TailsOk :=
  ht.congr h.tails (fun x => (h.shape x).delivered) fun x _ => (h.shape x).parents

variable [DecidableEq Hash]

theorem update_sameDag (config : Config Hash Sig) (s : HotStuffCore Hash Sig) (nblk : Hash) :
    (s.update config nblk).Leaves (SameDag s) := by
  cases hb : s.storage nblk with
  | none => simp [update, hb]
  | some b =>
    refine (update_leaves config hb).mono ?_
    intro s' hu
    obtain ⟨exec, storage, out, hframe⟩ := hu.frame
    have htails : s'.tails = (s.touched config nblk b).tails := by rw [hframe]
    exact ⟨hu.shape, htails⟩

theorem vote_on_sameDag (config : Config Hash Sig) (s : HotStuffCore Hash Sig)
    (prop : Proposal Hash) : (s.vote_on config prop).Leaves (SameDag s) := by
  rcases vote_on_cases config prop s with ⟨-, hv⟩ | hv | ⟨-, hv⟩
  · exact hv ▸ Outcome.leaves_undefined
  · exact hv ▸ Outcome.leaves_ok.mpr ⟨.refl s, rfl⟩
  · exact hv ▸ Outcome.leaves_ok.mpr ⟨.of_storage_eq rfl, rfl⟩

theorem kept_tailsOk (config : Config Hash Sig) :
    Kept config fun s : HotStuffCore Hash Sig => s.TailsOk where
  update s nblk h _ := (update_sameDag config s nblk).mono fun _ hsame => hsame.tailsOk h
  vote_on s prop h := (vote_on_sameDag config s prop).mono fun _ hsame => hsame.tailsOk h
  broadcast _ _ h := SameDag.tailsOk ⟨.of_storage_eq rfl, rfl⟩ h

theorem on_receive_vote_sameDag (config : Config Hash Sig) (s : HotStuffCore Hash Sig)
    (vote : Vote Hash Sig) : (s.on_receive_vote config vote).Leaves (SameDag s) := by
  intro s' hs'
  refine ⟨on_receive_vote_sameShape config s vote s' hs', ?_⟩
  rcases on_receive_vote_cases config vote s with hv | hv | ⟨b, hb, -, -, -, hv⟩
  · rw [hv] at hs'
    exact Option.some.inj hs' ▸ rfl
  · rw [hv] at hs'
    exact Option.some.inj hs' ▸ rfl
  · generalize s.on_receive_vote config vote = o at hv hs'
    cases hv with
    | mismatch => exact Option.some.inj hs' ▸ rfl
    | collected => exact Option.some.inj hs' ▸ rfl
    | computed => exact Option.some.inj hs' ▸ rfl

/-! ## Delivery -/

theorem delivered_put {x : Hash} {b : Block Hash Sig} (z : Hash) :
    (s.put x b).delivered z = if z = x then b.delivered else s.delivered z := by
  split
  · rename_i hz
    rw [hz]
    exact delivered_eq (storage_put_self s x b)
  · rename_i hz
    unfold delivered
    rw [storage_put_of_ne s b hz]

theorem parents_put {x : Hash} {b : Block Hash Sig} (z : Hash) :
    (s.put x b).parents z = if z = x then b.parents else s.parents z := by
  split
  · rename_i hz
    rw [hz]
    exact parents_eq (storage_put_self s x b)
  · rename_i hz
    unfold parents
    rw [storage_put_of_ne s b hz]

/-- A block that is not delivered does not count. -/
theorem TailsOk.put (h : s.TailsOk) {x : Hash} {b : Block Hash Sig} (hx : s.delivered x = false)
    (hb : b.delivered = false) : (s.put x b).TailsOk := by
  refine h.congr rfl ?_ ?_
  · intro z
    rw [delivered_put]
    split
    · rename_i hz
      rw [hb, hz, hx]
    · rfl
  · intro z hz
    have hne : z ≠ x := by
      rintro rfl
      rw [hx] at hz
      cases hz
    rw [parents_put, if_neg hne]

/-- Not all of what the block names is there. -/
def Missing (s : HotStuffCore Hash Sig) (b : Block Hash Sig) : Prop :=
  (∃ p ∈ b.parent_hashes, s.delivered p = false) ∨ s.storage b.qc.obj_hash = none

/-- An undelivered block is delivered when it names a parent and all it names is there. Otherwise
nothing but the block is written. -/
theorem on_deliver_blk_cases {blk : Hash} {b : Block Hash Sig} (hb : s.storage blk = some b)
    (hd : b.delivered = false) :
    (∃ b' what, s.Missing b ∧ b'.delivered = false ∧ b'.toBlockData = b.toBlockData ∧
      s.on_deliver_blk blk = .throw (s.put blk b') what) ∨
    s.on_deliver_blk blk = .undefined ∨
    ∃ p ps, b.parent_hashes = p :: ps ∧ (∀ x ∈ p :: ps, s.delivered x = true) ∧
      (s.storage b.qc.obj_hash).isSome := by
  unfold on_deliver_blk
  simp only [hb, modify_eq_put hb, put_modify]
  rw [if_neg (by simp [hd])]
  by_cases hall : ∀ p ∈ b.parent_hashes, s.delivered p = true
  · rw [List.takeWhile_eq_self_iff.mpr hall, if_neg (lt_irrefl _)]
    cases hp : b.parent_hashes with
    | nil => exact .inr (.inl rfl)
    | cons p ps =>
      cases hq : s.storage b.qc.obj_hash with
      | none =>
        let b' : Block Hash Sig :=
          { b with parents := p :: ps, height := (s.height p + 1) % 2 ^ 32 }
        exact .inl ⟨b', .qc_not_fetched, .inr hq, hd, rfl, rfl⟩
      | some c => exact .inr (.inr ⟨p, ps, rfl, hp ▸ hall, rfl⟩)
  · push Not at hall
    obtain ⟨p, hp, hpd⟩ := hall
    have hlt : (b.parent_hashes.takeWhile s.delivered).length < b.parent_hashes.length := by
      by_contra hle
      have heq := takeWhile_eq_of_length hle
      exact hpd (List.takeWhile_eq_self_iff.mp heq p hp)
    let b' : Block Hash Sig := { b with parents := b.parent_hashes.takeWhile s.delivered }
    rw [if_pos hlt]
    exact .inl ⟨b', .block_not_delivered, .inl ⟨p, hp, by simpa using hpd⟩, hd, rfl, rfl⟩

/-- A block that joins the delivered ones joins the tails, and its parents leave them. -/
theorem TailsOk.deliver (h : s.TailsOk) (hok : BlocksOk config s) {x : Hash}
    {b : Block Hash Sig} (hx : s.delivered x = false) (hb : b.delivered = true)
    (hps : ∀ p ∈ b.parents, s.delivered p = true) :
    TailsOk { s.put x b with tails := insert x (s.tails \ b.parents.toFinset) } := by
  have hdel : ∀ z, (s.put x b).delivered z = true ↔ z = x ∨ s.delivered z = true := by
    intro z
    rw [delivered_put, hb]
    by_cases hz : z = x
    · simp [hz]
    · simp [hz]
  have hpar : ∀ y, s.delivered y = true → (s.put x b).parents y = s.parents y := by
    intro y hy
    have hyx : y ≠ x := by
      rintro rfl
      rw [hx] at hy
      cases hy
    rw [parents_put, if_neg hyx]
  have hxpar : (s.put x b).parents x = b.parents := parents_eq (storage_put_self s x b)
  intro z
  have htip : Tip ((s.put x b).delivered · = true) (fun y x' => x' ∈ (s.put x b).parents y) z ↔
      z = x ∨ Tip (s.delivered · = true) (fun y x => x ∈ s.parents y) z ∧
        ¬z ∈ (s.put x b).parents x :=
    tip_insert (by simp [hx]) hdel (fun y hy => by rw [hpar y hy])
      (fun y z _ hz => hok.parents_delivered hz) (fun z hz => hps z (hxpar ▸ hz)) z
  rw [hxpar] at htip
  rw [Finset.mem_insert, Finset.mem_sdiff, List.mem_toFinset, h z]
  exact htip.symm

theorem TailsOk.on_deliver_blk (h : s.TailsOk) (hok : BlocksOk config s) (blk : Hash) :
    (s.on_deliver_blk blk).Leaves TailsOk := by
  cases hb : s.storage blk with
  | none => simp [HotStuffCore.on_deliver_blk, hb]
  | some b =>
    cases hd : b.delivered with
    | true =>
      rw [on_deliver_blk_of_delivered hb hd, Outcome.leaves_ok]
      exact h
    | false =>
      have hblk : s.delivered blk = false := (delivered_eq hb).trans hd
      rcases on_deliver_blk_cases hb hd with ⟨b', what, -, hd', -, ho⟩ | ho | ⟨p, ps, hp, hps, hq⟩
      · rw [ho, Outcome.leaves_throw]
        exact h.put hblk hd'
      · rw [ho]
        exact Outcome.leaves_undefined
      · rw [on_deliver_blk_ok hb hd hp hps hq, Outcome.leaves_ok]
        exact h.deliver hok hblk rfl hps

/-! ## Proposing -/

/-- An undelivered block under the hash of the proposal joins the tails. -/
theorem TailsOk.join {s1 : HotStuffCore Hash Sig} (h : s.TailsOk) (hok : BlocksOk config s)
    (hcerts : s.CertsOk) (hg : Grows s s1) {x p : Hash} {ps : List Hash} {b : Block Hash Sig}
    (hps : ∀ y ∈ p :: ps, s.delivered y = true) (hx : s.delivered x = false)
    (hd : b.delivered = false) (hp : b.parent_hashes = p :: ps) (hobj : b.qc.obj_hash = s.hqc.1)
    (hs1 : s1 = { s.put x b with tails := s.tails \ (p :: ps).toFinset }) :
    (s1.on_deliver_blk x).Leaves TailsOk := by
  have hb : s1.storage x = some b := by
    rw [hs1]
    exact storage_put_self s x b
  have hq : (s1.storage b.qc.obj_hash).isSome := by
    rw [hobj]
    exact hg.isSome hcerts.stored
  rw [on_deliver_blk_ok hb hd hp (fun y hy => hg.delivered (hps y hy)) hq, Outcome.leaves_ok]
  generalize hb' : ({ b with
    parents := p :: ps
    height := (s1.height p + 1) % 2 ^ 32
    qc_ref := some b.qc.obj_hash
    delivered := true } : Block Hash Sig) = b'
  have hpar : b'.parents = p :: ps := hb' ▸ rfl
  refine (h.deliver hok (b := b') hx (hb' ▸ rfl) (hpar ▸ hps)).congr ?_ ?_ ?_
  · rw [hs1, hpar]
    exact congrArg (insert x) sdiff_idem
  · intro z
    refine (delivered_put z).trans (Eq.trans ?_ (delivered_put z).symm)
    by_cases hz : z = x
    · rw [if_pos hz, if_pos hz]
    · rw [if_neg hz, if_neg hz, hs1]
      exact (delivered_put z).trans (if_neg hz)
  · intro z _
    refine (parents_put z).trans (Eq.trans ?_ (parents_put z).symm)
    by_cases hz : z = x
    · rw [if_pos hz, if_pos hz]
    · rw [if_neg hz, if_neg hz, hs1]
      exact (parents_put z).trans (if_neg hz)

omit [DecidableEq Hash] in
theorem TailsOk.not_parent (h : s.TailsOk) {x y : Hash} (hx : s.delivered x = true)
    (hy : y ∈ s.parents x) : y ∉ s.tails := by
  intro hmem
  exact ((h y).mp hmem).2 x hx hy

/-- `on_propose` on delivered parents delivers its block, or has it delivered already: then its
parents were no tails. -/
theorem TailsOk.deliver_proposed (h : s.TailsOk) (hok : BlocksOk config s) (hcerts : s.CertsOk)
    (hc : config.CollisionFree) (cmds : List Hash) (p : Hash) (ps : List Hash)
    (extra : List UInt8) (hps : ∀ x ∈ p :: ps, s.delivered x = true) :
    ((s.store_proposed config cmds p ps extra).on_deliver_blk
      (config.get_hash (s.proposed cmds (p :: ps) extra))).Leaves TailsOk := by
  have hg := store_proposed_grows config s cmds p ps extra
  generalize hx : config.get_hash (s.proposed cmds (p :: ps) extra) = x
  cases hb : s.storage x with
  | none =>
    have hnew : s.delivered x = false := by simp [delivered, hb]
    have hs1 := store_proposed_of_none (hx.symm ▸ hb)
    rw [hx] at hs1
    exact h.join hok hcerts hg hps hnew rfl rfl hcerts.hqc hs1
  | some b =>
    have hs1 := store_proposed_of_some (hx.symm ▸ hb)
    rw [hx] at hs1
    have hne : x ≠ config.b0 := by
      intro heq
      have hnil := hc.genesis _ (hx.trans heq)
      simp [proposed] at hnil
    -- the hash gives away the wire fields
    obtain ⟨hph, hobj⟩ := hc.content b.toBlockData (s.proposed cmds (p :: ps) extra)
      ((hok.law x b hne hb).hash.trans hx.symm)
    have hdx : s.delivered x = b.delivered := delivered_eq hb
    cases hd : b.delivered with
    | false =>
      exact h.join hok hcerts hg hps (hdx.trans hd) (b := with_empty_qc config x b) hd hph
        (hobj.trans hcerts.hqc) hs1
    | true =>
      have hb1 : (s.store_proposed config cmds p ps extra).storage x =
          some (with_empty_qc config x b) := by
        rw [hs1]
        exact storage_put_self s x _
      rw [on_deliver_blk_of_delivered hb1 hd, Outcome.leaves_ok]
      refine SameDag.tailsOk ⟨store_proposed_sameShape (hx.symm ▸ hb), ?_⟩ h
      have hpar : s.parents x = p :: ps := by
        rw [parents_eq hb, (hok.placed hne hb hd).parents, hph]
        rfl
      rw [hs1]
      refine sdiff_eq_left.mpr (Finset.disjoint_right.mpr fun y hy => ?_)
      rw [List.mem_toFinset, ← hpar] at hy
      exact h.not_parent (hdx.trans hd) hy

/-! ## Runs -/

theorem call_tailsOk (hc : config.CollisionFree) (h : Sound config s) (ht : s.TailsOk)
    {c : Call Hash Sig} (hp : s.Proper c) : (s.call config c).Leaves TailsOk := by
  have hk := kept_tailsOk config
  cases c with
  | add_blk data =>
    cases hb : s.storage (config.get_hash data) with
    | none =>
      rw [call_add_blk_of_none hb, Outcome.leaves_ok]
      have hnew : s.delivered (config.get_hash data) = false := by simp [delivered, hb]
      exact ht.put hnew rfl
    | some b =>
      rw [call_add_blk_of_isSome (by simp [hb]), Outcome.leaves_ok]
      exact ht
  | on_deliver_blk blk => exact ht.on_deliver_blk h.blocks blk
  | on_propose cmds parents extra =>
    apply hk.on_propose ht
    intro p ps hps
    exact ht.deliver_proposed h.blocks h.certs hc cmds p ps extra (hps ▸ hp.2)
  | on_receive_proposal prop => exact hk.on_receive_proposal ht prop
  | on_receive_vote vote =>
    exact (on_receive_vote_sameDag config s vote).mono fun _ hsame => hsame.tailsOk ht
  | set_vote_disabled f => exact Outcome.leaves_ok.mpr (ht.congr rfl (fun _ => rfl) fun _ _ => rfl)

theorem on_init_tailsOk (config : Config Hash Sig) (id : ReplicaID) :
    (on_init config id).TailsOk := by
  have hdel : ∀ x, (on_init config id).delivered x = true ↔ x = config.b0 := by
    intro x
    by_cases hx : x = config.b0
    · simp [delivered, on_init, hx, genesis]
    · simp [delivered, on_init, hx]
  have hpar : (on_init config id).parents config.b0 = [] := by
    simp [parents, on_init, genesis]
  intro x
  unfold Tip
  simp only [hdel, forall_eq, hpar]
  simp [on_init]

theorem Run.tailsOk (hc : config.CollisionFree) {id : ReplicaID} (h : Run config id Proper s) :
    s.TailsOk := by
  induction h with
  | init => exact on_init_tailsOk config id
  | step hr hp hs ih => exact call_tailsOk hc hr.sound ih hp _ hs

/-- A state that the replica can come to later. -/
abbrev Later (config : Config Hash Sig) : HotStuffCore Hash Sig → HotStuffCore Hash Sig → Prop :=
  Runs (fun s c => (s.call config c).state?) Anything

theorem Later.grows (h : Later config s s') : Grows s s' :=
  h.keeps (Grows.refl s) fun t c _ hg _ ht => hg.trans (call_grows config t c _ ht)

/-- A block is delivered once all it names is there. -/
theorem delivered_once_all_is_there {blk : Hash} {b : Block Hash Sig}
    (hb : s.storage blk = some b) (hne : b.parent_hashes ≠ [])
    (hps : ∀ p ∈ b.parent_hashes, s.delivered p = true)
    (hq : (s.storage b.qc.obj_hash).isSome) :
    ∃ s', s.on_deliver_blk blk = .ok s' ∧ s'.delivered blk = true := by
  have hok : ∃ s', s.on_deliver_blk blk = .ok s' := by
    cases hd : b.delivered with
    | true => exact ⟨s, on_deliver_blk_of_delivered hb hd⟩
    | false =>
      obtain ⟨p, ps, hp⟩ := List.exists_cons_of_ne_nil hne
      exact ⟨_, on_deliver_blk_ok hb hd hp (hp ▸ hps) hq⟩
  obtain ⟨s', hs'⟩ := hok
  exact ⟨s', hs', delivered_of_on_deliver_blk hs'⟩

/-- Whatever a replica is called with, its delivered blocks form a DAG with the tips in `tails`. A
delivery that throws leaves them alone, and it succeeds later once what the block names is
there. -/
theorem delivered_blocks_form_a_dag (hc : config.CollisionFree) {id : ReplicaID}
    (h : Run config id Proper s) :
    BlockDag config s ∧
    ∀ blk s' what, s.on_deliver_blk blk = .throw s' what →
      s'.tails = s.tails ∧ (∀ x, s'.delivered x = s.delivered x) ∧
      (∀ x, s.delivered x = true → s'.storage x = s.storage x) ∧
      ∃ b, s.storage blk = some b ∧ s.Missing b ∧
        ∀ t, Later config s' t → (∀ p ∈ b.parent_hashes, t.delivered p = true) →
          (t.storage b.qc.obj_hash).isSome →
          ∃ t', t.on_deliver_blk blk = .ok t' ∧ t'.delivered blk = true := by
  have hsound := h.sound
  refine ⟨⟨fun x b hx hb hd => hsound.blocks.placed hx hb hd, h.tailsOk hc⟩, ?_⟩
  intro blk s' what hthrow
  cases hb : s.storage blk with
  | none => simp [on_deliver_blk, hb] at hthrow
  | some b =>
    cases hd : b.delivered with
    | true =>
      rw [on_deliver_blk_of_delivered hb hd] at hthrow
      cases hthrow
    | false =>
      have hblk : s.delivered blk = false := (delivered_eq hb).trans hd
      rcases on_deliver_blk_cases hb hd with ⟨b', what', hmissing, hd', hdata, ho⟩ | ho |
        ⟨p, ps, hp, hps, hq⟩
      · rw [ho] at hthrow
        cases hthrow
        refine ⟨rfl, ?_, ?_, b, rfl, hmissing, ?_⟩
        · intro x
          rw [delivered_put]
          split
          · rename_i hx
            rw [hx, hd', hblk]
          · rfl
        · intro x hx
          apply storage_put_of_ne
          rintro rfl
          rw [hblk] at hx
          cases hx
        · intro t ht hps hq
          obtain ⟨c, hc', hcdata, -⟩ := ht.grows blk b' (storage_put_self s blk b')
          have heq : c.toBlockData = b.toBlockData := hcdata.trans hdata
          have hne := hsound.clean.names blk b (hsound.blocks.ne_b0 hb hd) hb
          rw [← heq] at hps hq hne
          exact delivered_once_all_is_there hc' hne hps hq
      · rw [ho] at hthrow
        cases hthrow
      · rw [on_deliver_blk_ok hb hd hp hps hq] at hthrow
        cases hthrow

/-- Blocks with parents arrive, and stored ones are delivered. -/
def Arriving (s : HotStuffCore Hash Sig) : Call Hash Sig → Prop
  | .add_blk data => data.parent_hashes ≠ []
  | .on_deliver_blk blk => (s.storage blk).isSome
  | _ => False

instance (s : HotStuffCore Hash Sig) : ∀ c, Decidable (s.Arriving c)
  | .add_blk data => inferInstanceAs (Decidable (data.parent_hashes ≠ []))
  | .on_deliver_blk blk => inferInstanceAs (Decidable ((s.storage blk).isSome = true))
  | .on_propose _ _ _ => .isFalse not_false
  | .on_receive_proposal _ => .isFalse not_false
  | .on_receive_vote _ => .isFalse not_false
  | .set_vote_disabled _ => .isFalse not_false

omit [DecidableEq Hash] in
theorem Arriving.proper {c : Call Hash Sig} (hshort : s.Short) (h : s.Arriving c) : s.Proper c := by
  cases c with
  | add_blk data => exact ⟨hshort, h⟩
  | on_deliver_blk blk => exact ⟨hshort, h⟩
  | _ => cases h

/-- The third block of a chain comes before the second one. -/
def out_of_order : List (Call ℕ (ReplicaID × ℕ)) :=
  [.add_blk (chain_block 0), .on_deliver_blk (chain_code 1), .add_blk (chain_block 2)]

/-- The third block cannot be delivered before the second one, but after it. -/
theorem a_block_before_its_parent_is_delivered_later :
    ∃ s s' t t' : HotStuffCore ℕ (ReplicaID × ℕ), Run (coded_replicas false) 0 Proper s ∧
      s.delivered (chain_code 1) = true ∧ BlockDag (coded_replicas false) s ∧
      s.on_deliver_blk (chain_code 3) = .throw s' .block_not_delivered ∧ s'.tails = s.tails ∧
      Later (coded_replicas false) s' t ∧ t.on_deliver_blk (chain_code 3) = .ok t' ∧
      t'.delivered (chain_code 3) = true := by
  obtain ⟨s, hs⟩ := Option.isSome_iff_exists.mp (show ((on_init (coded_replicas false) 0).play
    (coded_replicas false) Arriving out_of_order).isSome by decide +kernel)
  have hstate : ((on_init (coded_replicas false) 0).play (coded_replicas false) Arriving
      out_of_order).map (fun s => (s.delivered (chain_code 1),
        (s.storage (chain_code 3)).map fun b => (b.parent_hashes, b.qc.obj_hash))) =
      some (true, some ([chain_code 2], chain_code 2)) := by
    decide +kernel
  have hlater : ((on_init (coded_replicas false) 0).play (coded_replicas false) Arriving
      out_of_order).bind (fun s => match s.on_deliver_blk (chain_code 3) with
        | .throw s' what => (transitions.play (fun s c => (s.call (coded_replicas false) c).state?)
            Anything s' [.add_blk (chain_block 1), .on_deliver_blk (chain_code 2)]).map fun t =>
              (what, t.delivered (chain_code 2), (t.storage (chain_code 2)).isSome)
        | _ => none) = some (.block_not_delivered, true, true) := by
    decide +kernel
  rw [hs, Option.map_some, Option.some.injEq, Prod.mk.injEq, Option.map_eq_some_iff] at hstate
  obtain ⟨hone, b, hb, hnames⟩ := hstate
  obtain ⟨hparents, hobj⟩ := Prod.mk.inj hnames
  have hrun := (Run.play_short (fun _ _ => Arriving.proper) hs (by decide)).1
  obtain ⟨hdag, hthrows⟩ := delivered_blocks_form_a_dag (coded_collisionFree false) hrun
  rw [hs, Option.bind_some] at hlater
  split at hlater
  · rename_i s' what hthrow
    simp only [Prod.mk.injEq, Option.map_eq_some_iff] at hlater
    obtain ⟨t, ht, rfl, htwo, hstored⟩ := hlater
    obtain ⟨htails, -, -, b', hb', -, hretry⟩ := hthrows _ s' _ hthrow
    obtain rfl : b = b' := Option.some.inj (hb.symm.trans hb')
    obtain ⟨t', ht', hdelivered⟩ := hretry t (Runs.of_play ht)
      (hparents ▸ fun p hp => List.mem_singleton.mp hp ▸ htwo) (hobj ▸ hstored)
    exact ⟨s, s', t, t', hrun, hone, hdag, hthrow, htails, Runs.of_play ht, ht', hdelivered⟩
  · cases hlater

end HotStuffCore

end general_hotstuff
