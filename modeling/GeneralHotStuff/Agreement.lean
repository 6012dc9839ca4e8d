-- Agreement in the worlds that the correct replicas reach: one certified block for each
-- height, and, as long as every vote keeps to the lock, one chain of committed blocks.
import GeneralHotStuff.Breaches
import GeneralHotStuff.Replay

namespace general_hotstuff

open quorums (ReplicaID)

variable {Hash Sig : Type} {config : Config Hash Sig} {correct : ReplicaID → Prop}

namespace World

open HotStuffCore (Call NodeOk Casts InOrder)

variable {w : World Hash Sig}

/-! ## The invariant of a run -/

section Invariant

variable (hc : config.CollisionFree) (hi : config.Intersecting correct)

/-- Every correct replica keeps its invariant, every voter votes higher and higher, and what a block
that is voted for refers to was certified before. -/
structure Ok (w : World Hash Sig) : Prop where
  node : ∀ r, correct r → NodeOk config correct r w.votes (w.core r)
  rising : chained_votes.Rising (Config.setting hc hi) w.votes
  caused : chained_votes.Caused (Config.setting hc hi) config.QcOf w.votes

/-- Every vote is in order. -/
def Ordered (w : World Hash Sig) : Prop :=
  chained_votes.Guarded (Config.setting hc hi) (Guards config) w.votes

variable {hc hi}

theorem votes_after {r : ReplicaID} {s : HotStuffCore Hash Sig} {l : List Hash}
    (hs : s.votes_sent = (w.core r).votes_sent ++ l) :
    (w.after r s).votes = l.reverse.map (r, ·) ++ w.votes := by
  rw [after, hs, List.drop_left]

theorem Ok.after (h : w.Ok hc hi) {r : ReplicaID} {order : Hash → Prop} {s : HotStuffCore Hash Sig}
    (hcast : Casts config correct r w.votes order (w.core r) s) : (w.after r s).Ok hc hi := by
  cases hcast with
  | none hs hnode =>
    have hvotes : (w.after r s).votes = w.votes := votes_after (l := []) (by simpa using hs)
    refine ⟨fun r' hr' => ?_, hvotes ▸ h.rising, hvotes ▸ h.caused⟩
    rw [hvotes]
    by_cases heq : r' = r
    · subst heq
      simpa [World.after] using hnode
    · simpa [World.after, heq] using h.node r' hr'
  | vote x hs hnode hrise hcause ho =>
    have hvotes : (w.after r s).votes = (r, x) :: w.votes := votes_after hs
    refine ⟨fun r' hr' => ?_, ?_, ?_⟩
    · rw [hvotes]
      by_cases heq : r' = r
      · subst heq
        simpa [World.after] using hnode
      · have hmono : NodeOk config correct r' ((r, x) :: w.votes) (w.core r') :=
          (h.node r' hr').mono (fun _ => List.mem_cons_of_mem _) fun y hy => by
            simpa [heq] using hy
        simpa [World.after, heq] using hmono
    · rw [hvotes]
      refine List.pairwise_cons.mpr ⟨fun v hv heq => ?_, h.rising⟩
      obtain ⟨r', y⟩ := v
      subst heq
      exact hrise y hv
    · rw [hvotes]
      refine ⟨fun q hq => (hcause q hq).imp_left fun heq => ?_, h.caused⟩
      exact heq ▸ hc.depth_eq .genesis

theorem Ordered.after (h : w.Ordered hc hi) {r : ReplicaID}
    {order : Hash → Prop} {s : HotStuffCore Hash Sig}
    (hcast : Casts config correct r w.votes order (w.core r) s)
    (horder : ∀ x, order x → InOrder hc hi r w.votes x) : (w.after r s).Ordered hc hi := by
  cases hcast with
  | none hs _ =>
    rw [Ordered, votes_after (l := []) (by simpa using hs)]
    exact h
  | vote x hs _ _ _ ho =>
    rw [Ordered, votes_after hs]
    exact ⟨horder x ho, h⟩

/-! ## Agreement on the secured blocks -/

theorem certified_of_rooted {votes : List (ReplicaID × Hash)} {y : Hash} (hc : config.CollisionFree)
    (hr : Rooted config correct votes y) (hpos : 0 < config.depth y) :
    Certified config correct votes y := by
  refine hr.resolve_left fun heq => ?_
  rw [hc.depth_eq (heq ▸ .genesis : config.Depth y 0)] at hpos
  exact Nat.lt_irrefl 0 hpos

theorem Ok.paved (h : w.Ok hc hi) :
    chained_votes.Paved (Config.setting hc hi) (Guards config) w.votes := by
  intro g b hg hgb hpos
  obtain ⟨Q, hQ, hall⟩ := hg
  obtain ⟨r, hr, -, hcr⟩ := hi Q Q hQ hQ
  have hn := h.node r hcr
  obtain ⟨hd, -⟩ := hn.cast g (hall r hr hcr)
  have hstep : ∀ x y, (w.core r).delivered x = true → config.QcOf x y → config.Parent x y →
      (w.core r).delivered y = true ∧ Rooted config correct w.votes y ∧
        config.depth x = config.depth y + 1 := by
    intro x y hx hq hp
    obtain ⟨hqc, hyd, hheight⟩ := hn.blocks.child hc hx hq hp
    refine ⟨hyd, hn.rooted_of_qc_ref hqc, ?_⟩
    rw [hn.blocks.depth_eq hc hx, hn.blocks.depth_eq hc hyd, hheight]
  have hdepth : ∀ x, (w.core r).delivered x = true → ∃ n, config.Depth x n := fun x hx =>
    ⟨_, hn.blocks.depth_of_delivered hx⟩
  have hpos : 0 < config.depth b := hpos
  cases htwo : config.two_step with
  | true =>
    rw [Guards, if_pos htwo] at hgb
    obtain ⟨hbd, hbr, hgd⟩ := hstep g b hd hgb.1 hgb.2
    refine ⟨⟨.single hgb.2, hdepth g hd⟩, fun k hle hlt =>
      ⟨b, certified_of_rooted hc hbr hpos, ?_, .refl, hdepth b hbd⟩⟩
    have hlt : k < config.depth g := hlt
    have hle : config.depth b ≤ k := hle
    exact (by omega : config.depth b = k)
  | false =>
    rw [Guards, if_neg (by simp [htwo])] at hgb
    obtain ⟨b1, hq1, hp1, hq, hp⟩ := hgb
    obtain ⟨hd1, hr1, hg1⟩ := hstep g b1 hd hq1 hp1
    obtain ⟨hbd, hbr, h1b⟩ := hstep b1 b hd1 hq hp
    refine ⟨⟨.head hp1 (.single hp), hdepth g hd⟩, fun k hle hlt => ?_⟩
    have hlt : k < config.depth g := hlt
    have hle : config.depth b ≤ k := hle
    by_cases hk : k = config.depth b
    · exact ⟨b, certified_of_rooted hc hbr hpos, hk.symm, .refl, hdepth b hbd⟩
    · exact ⟨b1, certified_of_rooted hc hr1 (by omega), (by omega : config.depth b1 = k),
        .single hp,
        hdepth b1 hd1⟩

/-- A certified block extends the secured blocks that are not higher than it. -/
theorem Ok.above_of_secured (h : w.Ok hc hi) (ho : w.Ordered hc hi) {g b x : Hash}
    (hg : Certified config correct w.votes g) (hgb : Guards config g b)
    (hpos : 0 < config.depth b) (hx : Certified config correct w.votes x)
    (hle : config.depth b ≤ config.depth x) : config.Above x b :=
  (chained_votes.agreement h.rising ho h.paved hgb hpos hg hx hle).1

theorem Ok.linear (h : w.Ok hc hi) (ho : w.Ordered hc hi) : Linear config correct w.votes := by
  intro b b' n n' hb hn hb' hn'
  by_cases hb0 : b = config.b0
  · exact .inr (hb0 ▸ hn'.above_b0)
  by_cases hb0' : b' = config.b0
  · exact .inl (hb0' ▸ hn.above_b0)
  obtain ⟨g, hg, hgb⟩ := hb.resolve_left hb0
  obtain ⟨g', hg', hgb'⟩ := hb'.resolve_left hb0'
  have hpos := hc.depth_pos hn hb0
  have hpos' := hc.depth_pos hn' hb0'
  have hguard : ∀ {g b : Hash}, Certified config correct w.votes g → Guards config g b →
      0 < config.depth b → config.Above g b ∧ config.depth b ≤ config.depth g := by
    intro g b hg hgb hpos
    obtain ⟨⟨habove, m, hm⟩, -⟩ := h.paved g b hg hgb hpos
    obtain ⟨k, hk, hle, -⟩ := hc.depth_of_above habove hm
    exact ⟨habove, by rw [hc.depth_eq hm, hc.depth_eq hk]; exact hle⟩
  obtain ⟨habove, hle⟩ := hguard hg hgb hpos
  obtain ⟨habove', hle'⟩ := hguard hg' hgb' hpos'
  -- the certified block that guards the higher one extends both
  rcases Nat.le_total (config.depth b) (config.depth b') with hbb | hbb
  · exact hc.above_linear (h.above_of_secured ho hg hgb hpos hg' (hbb.trans hle')) habove'
  · exact hc.above_linear habove (h.above_of_secured ho hg' hgb' hpos' hg (hbb.trans hle))

theorem above_of_log {r : ReplicaID} {votes : List (ReplicaID × Hash)} {s : HotStuffCore Hash Sig}
    (h : NodeOk config correct r votes s) {x : Hash} (hx : x ∈ s.log) :
    config.Above s.b_exec x :=
  (h.blocks.above_of_above (h.log.exec_delivered h.blocks.grounded)
    (HotStuffCore.above_of_chain h.log.chain h.log.last x (List.mem_cons_of_mem _ hx))).1

/-- The logs of two correct replicas lie on one chain. -/
theorem Ok.logs_linear (h : w.Ok hc hi) (ho : w.Ordered hc hi) {r r' : ReplicaID} (hr : correct r)
    (hr' : correct r') {x y : Hash} (hx : x ∈ (w.core r).log) (hy : y ∈ (w.core r').log) :
    config.Above x y ∨ config.Above y x := by
  have hn := h.node r hr
  have hn' := h.node r' hr'
  have habove := above_of_log hn hx
  have habove' := above_of_log hn' hy
  have hdepth := hn.blocks.depth_of_delivered (hn.log.exec_delivered hn.blocks.grounded)
  have hdepth' := hn'.blocks.depth_of_delivered (hn'.log.exec_delivered hn'.blocks.grounded)
  rcases h.linear ho _ _ _ _ hn.secured hdepth hn'.secured hdepth' with hee | hee
  · exact hc.above_linear habove (hee.trans habove')
  · exact hc.above_linear (hee.trans habove) habove'

/-! ## Runs -/

variable [DecidableEq Hash] {ok : World Hash Sig → ReplicaID → Call Hash Sig → Prop}

theorem Run.keeps_ok (hw : Run config correct ok w) : w.Ok hc hi := by
  induction hw with
  | start =>
    exact ⟨fun r _ => HotStuffCore.on_init_nodeOk config correct r, List.Pairwise.nil, trivial⟩
  | step hw hr hshort he hok hs ih => exact ih.after ((ih.node _ hr).call hc hi hshort he _ hs)

/-- When every call keeps to the lock, every vote is in order. -/
theorem Run.ordered (hw : Run config correct ok w)
    (hsafe : ∀ (w : World Hash Sig) (r : ReplicaID) c, Run config correct ok w → correct r →
      w.Enabled config correct r c → ok w r c → (w.core r).SafeCall c) : w.Ordered hc hi := by
  induction hw with
  | start => trivial
  | step hw hr hshort he hsat hs ih =>
    have hok : Ok hc hi _ := hw.keeps_ok
    have hcast := (hok.node _ hr).call hc hi hshort he _ hs
    exact ih.after hcast fun x ho => ho (hsafe _ _ _ hw hr he hsat)

end Invariant

/-! ## Blocks that extend the block of their certificate -/

variable [DecidableEq Hash]

/-- The steps deliver only blocks that extend the block of their certificate. -/
def Extending (config : Config Hash Sig) (w : World Hash Sig) (r : ReplicaID) :
    Call Hash Sig → Prop
  | .on_deliver_blk blk => ∀ b, (w.core r).storage blk = some b → config.Extends b.toBlockData
  | .on_propose cmds parents extra => config.Extends ((w.core r).proposed cmds parents extra)
  | _ => True

theorem Run.delivered_extend (hc : config.CollisionFree) (hi : config.Intersecting correct)
    (hw : Run config correct (Extending config) w) {r : ReplicaID} (hr : correct r) {x p q : Hash}
    (hx : (w.core r).delivered x = true) (hp : config.Parent x p) (hq : config.QcOf x q) :
    config.Above p q := by
  induction hw generalizing r x p q with
  | start =>
    by_cases hne : x = config.b0
    · exact absurd (hne ▸ hp) hc.not_parent_b0
    · simp [World.start, HotStuffCore.on_init, HotStuffCore.delivered, hne] at hx
  | @step w r' c s hw hr' hshort he hext hs ih =>
    by_cases heq : r = r'
    swap
    · exact ih hr (by simpa [World.after, heq] using hx) hp hq
    subst heq
    have hok : Ok hc hi w := hw.keeps_ok
    have hblocks := (hok.node r hr).blocks
    have hx : s.delivered x = true := by simpa [World.after] using hx
    rcases HotStuffCore.call_delivered config (w.core r) c s hs x hx with
      hold | rfl | ⟨cmds, parents, extra, rfl, rfl⟩
    · exact ih hr hold hp hq
    · obtain ⟨b, hb, -⟩ := he
      have hne : x ≠ config.b0 := fun heq => hc.not_parent_b0 (heq ▸ hp)
      have hhash := (hblocks.law x b hne hb).hash
      exact hc.above_of_extends (hext b hb) (hhash.symm ▸ hp) (hhash.symm ▸ hq)
    · exact hc.above_of_extends hext hp hq

/-- A block that extends the block of its certificate gets safe votes only. -/
theorem Run.safeCall (hc : config.CollisionFree) (hi : config.Intersecting correct)
    (hw : Run config correct (Extending config) w) {r : ReplicaID} (hr : correct r)
    {c : Call Hash Sig} (he : w.Enabled config correct r c) (hext : w.Extending config r c) :
    (w.core r).SafeCall c := by
  have hok : Ok hc hi w := hw.keeps_ok
  have hn := hok.node r hr
  cases c with
  | on_propose cmds parents extra =>
    intro p hp
    have habove := hext p hp
    have hqc : ((w.core r).proposed cmds parents extra).qc.obj_hash = (w.core r).hqc.1 :=
      hn.certs.hqc
    rw [hqc] at habove
    exact .inr (.inr (.inr (.inl
      (hn.blocks.above_of_content hc (he p (List.mem_of_head? hp)) habove))))
  | on_receive_proposal prop =>
    intro p q hp hq
    have hparent := hn.blocks.parent_of_delivered he.2 hp
    have hne : prop.blk ≠ config.b0 := fun heq => hc.not_parent_b0 (heq ▸ hparent)
    have habove := hw.delivered_extend hc hi hr he.2 hparent
      (hn.blocks.qcOf_of_delivered hne he.2 hq)
    exact .inr (.inr (.inr (.inl
      (hn.blocks.above_of_content hc (hn.blocks.parent_delivered hp) habove))))
  | add_blk data => trivial
  | on_deliver_blk blk => trivial
  | on_receive_vote vote => trivial
  | set_vote_disabled f => trivial

/-! ## A straight run -/

/-- The certificate is on the first parent wherever a block is delivered or voted for. -/
def Direct (w : World Hash Sig) (r : ReplicaID) : Call Hash Sig → Prop
  | .on_deliver_blk blk =>
    ∀ b ∈ (w.core r).storage blk, b.parent_hashes.head? = some b.qc.obj_hash
  | .on_receive_proposal prop => ((w.core r).parents prop.blk).head? = (w.core r).qc_ref prop.blk
  | .on_propose _ _ _ => False
  | _ => True

instance (w : World Hash Sig) (r : ReplicaID) : ∀ c, Decidable (w.Direct r c)
  | .on_deliver_blk blk => inferInstanceAs (Decidable
      (∀ b ∈ (w.core r).storage blk, b.parent_hashes.head? = some b.qc.obj_hash))
  | .on_receive_proposal prop => inferInstanceAs (Decidable
      (((w.core r).parents prop.blk).head? = (w.core r).qc_ref prop.blk))
  | .on_propose _ _ _ => inferInstanceAs (Decidable False)
  | .add_blk _ => inferInstanceAs (Decidable True)
  | .on_receive_vote _ => inferInstanceAs (Decidable True)
  | .set_vote_disabled _ => inferInstanceAs (Decidable True)

omit [DecidableEq Hash] in
theorem Direct.safeCall {r : ReplicaID} {c : Call Hash Sig} (h : w.Direct r c) :
    (w.core r).SafeCall c := by
  cases c with
  | on_receive_proposal prop =>
    intro p q hp hq
    rw [Direct, hp, hq, Option.some.injEq] at h
    exact .inr (.inr (.inr (.inl (h ▸ .refl))))
  | on_propose cmds parents extra => exact h.elim
  | add_blk data => trivial
  | on_deliver_blk blk => trivial
  | on_receive_vote vote => trivial
  | set_vote_disabled f => trivial

omit [DecidableEq Hash] in
theorem Direct.extending {r : ReplicaID} {c : Call Hash Sig} (h : w.Direct r c) :
    w.Extending config r c := by
  cases c with
  | on_deliver_blk blk =>
    intro b hb p hp
    rw [h b hb, Option.some.injEq] at hp
    exact hp ▸ .refl
  | on_propose cmds parents extra => exact h.elim
  | add_blk data => trivial
  | on_receive_proposal prop => trivial
  | on_receive_vote vote => trivial
  | set_vote_disabled f => trivial

theorem Run.mono {ok ok' : World Hash Sig → ReplicaID → Call Hash Sig → Prop}
    (hok : ∀ w r c, ok w r c → ok' w r c) (hw : Run config correct ok w) :
    Run config correct ok' w := by
  induction hw with
  | start => exact .start
  | step _ hr hshort he hsat hs ih => exact ih.step hr hshort he (hok _ _ _ hsat) hs

/-- The straight run ends with these commits. -/
theorem straight_run_ends (two_step : Bool) :
    ∃ w, Run (coded_replicas two_step) (· < 3) Direct w ∧ (∀ r, (w.core r).Short) ∧
      (w.core 0).b_exec = chain_code (if two_step then 2 else 1) ∧
      (w.core 1).b_exec = chain_code (if two_step then 3 else 2) := by
  have hend : ((start (coded_replicas two_step)).play (coded_replicas two_step) (· < 3) Direct
      straight_run).map (fun w => decide
        ((w.core 0).b_exec = chain_code (if two_step then 2 else 1) ∧
          (w.core 1).b_exec = chain_code (if two_step then 3 else 2))) = some true := by
    cases two_step with
    | false => decide +kernel
    | true => decide +kernel
  obtain ⟨w, hw, hcheck⟩ := Option.map_eq_some_iff.mp hend
  obtain ⟨hrun, hshort⟩ := Run.play hw (by decide)
  exact ⟨w, hrun, hshort, of_decide_eq_true hcheck⟩

/-- In either build the straight run leaves two logs. -/
theorem straight_run_logs (two_step : Bool) :
    ∃ w, Run (coded_replicas two_step) (· < 3) Direct w ∧ (∀ r, (w.core r).Short) ∧
      chain_code (if two_step then 2 else 1) ∈ (w.core 0).log ∧
      chain_code (if two_step then 3 else 2) ∈ (w.core 1).log := by
  obtain ⟨w, hrun, hshort, hexec, hexec'⟩ := straight_run_ends two_step
  have hok : Ok (coded_collisionFree two_step) (coded_intersecting two_step) w := hrun.keeps_ok
  have hne : ∀ i, (coded_replicas two_step).b0 ≠ chain_code (i + 1) := fun i heq => by
    have hparents := (coded_collisionFree two_step).genesis (chain_block i) heq.symm
    cases hparents
  have hmem : ∀ r i, r < 3 → (w.core r).b_exec = chain_code (i + 1) →
      chain_code (i + 1) ∈ (w.core r).log := fun r i hr heq =>
    heq ▸ (hok.node r hr).log.b_exec_mem (heq ▸ (hne i).symm)
  refine ⟨w, hrun, hshort, ?_, ?_⟩
  · cases two_step with
    | false => exact hmem 0 0 (by decide) hexec
    | true => exact hmem 0 1 (by decide) hexec
  · cases two_step with
    | false => exact hmem 1 1 (by decide) hexec'
    | true => exact hmem 1 2 (by decide) hexec'

/-! ## One certified block for each height -/

/-- Two certified blocks have a correct voter in common, and they are one block when correct
replicas find them equally high. -/
theorem at_most_one_block_of_each_height_is_certified (hc : config.CollisionFree)
    (hi : config.Intersecting correct)
    {ok : World Hash Sig → ReplicaID → Call Hash Sig → Prop} (hw : Run config correct ok w)
    {x y : Hash} (hx : Certified config correct w.votes x)
    (hy : Certified config correct w.votes y) :
    (∃ r, correct r ∧ (w.core r).delivered x = true ∧ (w.core r).delivered y = true) ∧
      ∀ r r', correct r → correct r' → (w.core r).delivered x = true →
        (w.core r').delivered y = true → (w.core r).height x = (w.core r').height y → x = y := by
  have hok : Ok hc hi w := hw.keeps_ok
  refine ⟨?_, fun r r' hr hr' hxd hyd hheight => ?_⟩
  · obtain ⟨P, hP, hall⟩ := hx
    obtain ⟨Q, hQ, hall'⟩ := hy
    obtain ⟨r, hrP, hrQ, hr⟩ := hi P Q hP hQ
    exact ⟨r, hr, ((hok.node r hr).cast x (hall r hrP hr)).1,
      ((hok.node r hr).cast y (hall' r hrQ hr)).1⟩
  · have hdepth := (hok.node r hr).blocks.depth_eq hc hxd
    have hdepth' := (hok.node r' hr').blocks.depth_eq hc hyd
    exact hok.rising.certified_unique hx hy (hdepth.trans (hheight.trans hdepth'.symm))

theorem two_blocks_of_the_straight_run_are_certified :
    ∃ w, Run (coded_replicas false) (· < 3) Direct w ∧
      (∃ r, r < 3 ∧ (w.core r).delivered (chain_code 1) = true ∧
        (w.core r).delivered (chain_code 2) = true) ∧
      ∀ r r', r < 3 → r' < 3 → (w.core r).delivered (chain_code 1) = true →
        (w.core r').delivered (chain_code 2) = true →
          (w.core r).height (chain_code 1) = (w.core r').height (chain_code 2) →
            chain_code 1 = chain_code 2 := by
  have hend : ((start (coded_replicas false)).play (coded_replicas false) (· < 3) Direct
      straight_run).map (fun w => decide (∀ i ∈ ({1, 2} : Finset ReplicaID),
        (i, chain_code 1) ∈ w.votes ∧ (i, chain_code 2) ∈ w.votes)) = some true := by
    decide +kernel
  obtain ⟨w, hw, hcheck⟩ := Option.map_eq_some_iff.mp hend
  have hvotes := of_decide_eq_true hcheck
  have hrun := (Run.play hw (by decide)).1
  have hquorum : (coded_replicas false).Quorum {1, 2, 3} := ⟨by decide, by decide⟩
  have hmem : ∀ i ∈ ({1, 2, 3} : Finset ReplicaID), i < 3 → i ∈ ({1, 2} : Finset ReplicaID) := by
    decide
  exact ⟨w, hrun, at_most_one_block_of_each_height_is_certified (coded_collisionFree false)
    (coded_intersecting false) hrun ⟨_, hquorum, fun i hi hc => (hvotes i (hmem i hi hc)).1⟩
    ⟨_, hquorum, fun i hi hc => (hvotes i (hmem i hi hc)).2⟩⟩

/-! ## Links of certified blocks -/

/-- A certified block is higher than the block that its certificate is on, at whatever correct
replicas the two are delivered. -/
theorem certificates_of_certified_blocks_lead_down (hc : config.CollisionFree)
    (hi : config.Intersecting correct)
    {ok : World Hash Sig → ReplicaID → Call Hash Sig → Prop} (hw : Run config correct ok w)
    {x q : Hash} (hx : Certified config correct w.votes x) (hne : x ≠ config.b0)
    (hq : config.QcOf x q) :
    (∃ r, correct r ∧ (w.core r).delivered q = true) ∧
      ∀ r r', correct r → correct r' → (w.core r).delivered q = true →
        (w.core r').delivered x = true → (w.core r).height q < (w.core r').height x := by
  have hok : Ok hc hi w := hw.keeps_ok
  obtain ⟨Q, hQ, hall⟩ := id hx
  obtain ⟨c, hcQ, -, hcc⟩ := hi Q Q hQ hQ
  have hn := hok.node c hcc
  have hxd := (hn.cast x (hall c hcQ hcc)).1
  refine ⟨?_, fun r r' hr hr' hqd hxd' => ?_⟩
  · rcases hn.rooted_of_qc_ref (hn.blocks.qc_ref_of_qcOf hc hne hxd hq) with rfl | ⟨P, hP, hall'⟩
    · exact ⟨c, hcc, hn.blocks.b0_delivered⟩
    · obtain ⟨d, hdP, -, hdc⟩ := hi P P hP hP
      exact ⟨d, hdc, ((hok.node d hdc).cast q (hall' d hdP hdc)).1⟩
  · have hpos := hc.depth_pos (hn.blocks.depth_of_delivered hxd) hne
    have hlt : config.depth q < config.depth x := hok.caused.descends hok.rising hx hpos hq
    rw [(hok.node r hr).blocks.depth_eq hc hqd, (hok.node r' hr').blocks.depth_eq hc hxd'] at hlt
    exact hlt

theorem a_certificate_of_the_straight_run_leads_down :
    ∃ w, Run (coded_replicas false) (· < 3) Direct w ∧
      (∃ r, r < 3 ∧ (w.core r).delivered (chain_code 1) = true) ∧
      ∀ r r', r < 3 → r' < 3 → (w.core r).delivered (chain_code 1) = true →
        (w.core r').delivered (chain_code 2) = true →
          (w.core r).height (chain_code 1) < (w.core r').height (chain_code 2) := by
  have hend : ((start (coded_replicas false)).play (coded_replicas false) (· < 3) Direct
      straight_run).map (fun w => decide (∀ i ∈ ({1, 2} : Finset ReplicaID),
        (i, chain_code 2) ∈ w.votes)) = some true := by
    decide +kernel
  obtain ⟨w, hw, hcheck⟩ := Option.map_eq_some_iff.mp hend
  have hvotes := of_decide_eq_true hcheck
  have hrun := (Run.play hw (by decide)).1
  have hquorum : (coded_replicas false).Quorum {1, 2, 3} := ⟨by decide, by decide⟩
  have hmem : ∀ i ∈ ({1, 2, 3} : Finset ReplicaID), i < 3 → i ∈ ({1, 2} : Finset ReplicaID) := by
    decide
  have hne : chain_code 2 ≠ (coded_replicas false).b0 := by decide +kernel
  have hqc : (coded_replicas false).QcOf (chain_code 2) (chain_code 1) :=
    ⟨chain_block 1, rfl, by decide +kernel⟩
  exact ⟨w, hrun, certificates_of_certified_blocks_lead_down (coded_collisionFree false)
    (coded_intersecting false) hrun ⟨_, hquorum, fun i hi hc => hvotes i (hmem i hi hc)⟩ hne hqc⟩

/-! ## One chain of committed blocks -/

/-- As long as the correct replicas vote safely, what they commit lies on one chain. -/
theorem safe_votes_keep_the_commits_on_one_chain (hc : config.CollisionFree)
    (hi : config.Intersecting correct)
    (hw : Run config correct (fun w r c => (w.core r).SafeCall c) w) {r r' : ReplicaID}
    (hr : correct r) (hr' : correct r') {x y : Hash} (hx : x ∈ (w.core r).log)
    (hy : y ∈ (w.core r').log) : config.Above x y ∨ config.Above y x := by
  have hok : Ok hc hi w := hw.keeps_ok
  exact hok.logs_linear (hw.ordered fun _ _ _ _ _ _ hsafe => hsafe) hr hr' hx hy

theorem the_straight_run_commits_one_chain :
    ∃ w, Run (coded_replicas false) (· < 3) (fun w r c => (w.core r).SafeCall c) w ∧
      chain_code 1 ∈ (w.core 0).log ∧ chain_code 2 ∈ (w.core 1).log ∧
      ((coded_replicas false).Above (chain_code 1) (chain_code 2) ∨
        (coded_replicas false).Above (chain_code 2) (chain_code 1)) := by
  obtain ⟨w, hrun, -, hx, hy⟩ := straight_run_logs false
  have hsafe := hrun.mono fun _ _ _ h => Direct.safeCall h
  exact ⟨w, hsafe, hx, hy, safe_votes_keep_the_commits_on_one_chain (coded_collisionFree false)
    (coded_intersecting false) hsafe (by decide) (by decide) hx hy⟩

/-- Blocks of a fork from genesis, each with the certificate of genesis. -/
def fork_code : ℕ → ℕ
  | 0 => 0
  | i + 1 => block_code (coded_block (fork_code i) 0 1)

/-- The first block is on the fork, with a certificate on block 2 of the chain. Those above it have
their certificate on the parent. -/
def late_block : ℕ → BlockData ℕ (ReplicaID × ℕ)
  | 0 => coded_block (fork_code 3) (chain_code 2) 1
  | i + 1 => coded_block (block_code (late_block i)) (block_code (late_block i)) 1

/-- Replica 0 commits block 1 of the chain. Replicas 1 and 2, locked on it, vote for the late
blocks by the liveness condition, and replica 1 commits the first of them. -/
def forked_run : List (ReplicaID × Call ℕ (ReplicaID × ℕ)) :=
  [0, 1, 2].flatMap (fun i => proposed_by_3 (chain_block i) [1, 2]) ++
    [0, 1, 2].flatMap (fun i => arrives (chain_block i) [0]) ++
    proposed_by_3 (chain_block 3) [0] ++
    [0, 1, 2].flatMap (fun i => arrives (coded_block (fork_code i) 0 1) [1, 2]) ++
    [0, 1, 2].flatMap (fun i => proposed_by_3 (late_block i) [1, 2]) ++
    proposed_by_3 (late_block 3) [1]

theorem a_late_certificate_forks_the_commits :
    ∃ w, Run (coded_replicas false) (· < 3) (fun _ _ _ => True) w ∧
      ∃ x ∈ (w.core 0).log, ∃ y ∈ (w.core 1).log,
        ¬ (coded_replicas false).Above x y ∧ ¬ (coded_replicas false).Above y x := by
  have hend : ((start (coded_replicas false)).play (coded_replicas false) (· < 3)
      (fun _ _ _ => True) forked_run).map (fun w => decide
        ((w.core 0).b_exec = chain_code 1 ∧ (w.core 1).b_exec = block_code (late_block 0))) =
          some true := by
    decide +kernel
  obtain ⟨w, hw, hcheck⟩ := Option.map_eq_some_iff.mp hend
  obtain ⟨hexec, hexec'⟩ := of_decide_eq_true hcheck
  have hrun := (Run.play hw (by decide)).1
  have hc := coded_collisionFree false
  have hok : Ok hc (coded_intersecting false) w := hrun.keeps_ok
  have hne : ∀ data : BlockData ℕ (ReplicaID × ℕ), data.parent_hashes ≠ [] →
      block_code data ≠ (coded_replicas false).b0 := fun data hp heq => hp (hc.genesis data heq)
  have hmem := (hok.node 0 (by decide)).log.b_exec_mem
    (hexec ▸ hne (chain_block 0) (List.cons_ne_nil _ _))
  have hmem' := (hok.node 1 (by decide)).log.b_exec_mem
    (hexec' ▸ hne (late_block 0) (List.cons_ne_nil _ _))
  rw [hexec] at hmem
  rw [hexec'] at hmem'
  -- the two blocks have different blocks below them at height 1
  have hchain : (coded_replicas false).Depth (chain_code 1) 1 :=
    .next ⟨chain_block 0, rfl, rfl⟩ .genesis
  have hfork : ∀ i, (coded_replicas false).Parent (fork_code (i + 1)) (fork_code i) := fun i =>
    ⟨coded_block (fork_code i) 0 1, rfl, rfl⟩
  have hlate : (coded_replicas false).Parent (block_code (late_block 0)) (fork_code 3) :=
    ⟨late_block 0, rfl, rfl⟩
  have hdepth : (coded_replicas false).Depth (fork_code 1) 1 := .next (hfork 0) .genesis
  have hdepth' : (coded_replicas false).Depth (block_code (late_block 0)) 4 :=
    .next hlate (.next (hfork 2) (.next (hfork 1) hdepth))
  have hbelow : (coded_replicas false).Above (block_code (late_block 0)) (fork_code 1) :=
    .head hlate (.head (hfork 2) (.single (hfork 1)))
  have hdiff : chain_code 1 ≠ fork_code 1 := by decide +kernel
  refine ⟨w, hrun, _, hmem, _, hmem', fun habove => ?_, fun habove => ?_⟩
  · obtain ⟨n, hn, hle, -⟩ := hc.depth_of_above habove hchain
    have := hc.depth_unique hn hdepth'
    omega
  · rcases hc.above_linear habove hbelow with h | h
    · obtain ⟨n, hn, -, hlt⟩ := hc.depth_of_above h hchain
      have := hc.depth_unique hn hdepth
      have := hlt hdiff
      omega
    · obtain ⟨n, hn, -, hlt⟩ := hc.depth_of_above h hdepth
      have := hc.depth_unique hn hchain
      have := hlt hdiff.symm
      omega

/-! ## The two-step build -/

/-- When every block extends the block of its certificate, what correct replicas commit lies on
one chain, and none of them finds safety breached or comes to the message of that exception. -/
theorem extending_blocks_keep_the_commits_on_one_chain (hc : config.CollisionFree)
    (hi : config.Intersecting correct) (hw : Run config correct (Extending config) w) :
    (∀ r r' x y, correct r → correct r' → x ∈ (w.core r).log → y ∈ (w.core r').log →
      config.Above x y ∨ config.Above y x) ∧
    (∀ r c s, correct r → (w.core r).Short → w.Enabled config correct r c →
      (w.core r).call config c ≠ .throw s .safety_breached) ∧
    ∀ r c, correct r → (w.core r).Short → w.Enabled config correct r c →
      (∀ blk, c ≠ .on_deliver_blk blk) → ((w.core r).call config c).Defined := by
  have hok : Ok hc hi w := hw.keeps_ok
  have hordered : w.Ordered hc hi := hw.ordered fun _ _ _ hw hr he hext =>
    hw.safeCall hc hi hr he hext
  exact ⟨fun r r' x y hr hr' hx hy => hok.logs_linear hordered hr hr' hx hy,
    fun r c s hr hshort he => (hok.node r hr).call_spares hc (hok.linear hordered) hshort he s,
    fun r c hr hshort he hne => (hok.node r hr).call_defined hc hshort he hne⟩

theorem the_straight_run_of_the_two_step_build_agrees :
    ∃ w, Run (coded_replicas true) (· < 3) (Extending (coded_replicas true)) w ∧
      chain_code 2 ∈ (w.core 0).log ∧ chain_code 3 ∈ (w.core 1).log ∧
      ((∀ r r' x y, r < 3 → r' < 3 → x ∈ (w.core r).log → y ∈ (w.core r').log →
        (coded_replicas true).Above x y ∨ (coded_replicas true).Above y x) ∧
      (∀ r c s, r < 3 → (w.core r).Short → w.Enabled (coded_replicas true) (· < 3) r c →
        (w.core r).call (coded_replicas true) c ≠ .throw s .safety_breached) ∧
      ∀ r c, r < 3 → (w.core r).Short → w.Enabled (coded_replicas true) (· < 3) r c →
        (∀ blk, c ≠ .on_deliver_blk blk) → ((w.core r).call (coded_replicas true) c).Defined) := by
  obtain ⟨w, hrun, -, hx, hy⟩ := straight_run_logs true
  have hext : Run (coded_replicas true) (· < 3) (Extending (coded_replicas true)) w :=
    hrun.mono fun _ _ _ h => Direct.extending h
  exact ⟨w, hext, hx, hy, extending_blocks_keep_the_commits_on_one_chain (coded_collisionFree true)
    (coded_intersecting true) hext⟩

end World

end general_hotstuff
