-- Which faulty replicas the generalized build withstands: those that hold less than what
-- two quorums of its formula have in common. Any others can have two blocks of one height
-- certified.
import GeneralHotStuff.QuorumOverlap
import GeneralHotStuff.MspLaws
import GeneralHotStuff.Agreement

namespace general_hotstuff

open quorums (ReplicaID Theta evalFomula leaves)

/-! ## The access structure of a replica -/

namespace quorums

/-- The formula of `quorums.json` and its span program. -/
structure AccessStructure (p : ℕ) where
  thetaOperatorFormula : Theta
  msp : Msp p

namespace AccessStructure

variable {p : ℕ}

def initialize_with (p : ℕ) (t : Theta) : Option (AccessStructure p) :=
  (create p t).map fun msp => ⟨t, msp⟩

/-- `with_msp` is the build with `GENERALIZED_QUORUMS_WITH_MSP`. -/
def isAuthorizedGroup (with_msp : Bool) (s : AccessStructure p) (reps : Finset ReplicaID) :
    Option Bool :=
  if with_msp then s.msp.isAuthorizedGroup reps else some (evalFomula s.thetaOperatorFormula reps)

/-- With fewer children than `p` in every node both builds decide the formula. -/
theorem initialize_with_spec [Fact p.Prime] {t : Theta} (ht : t.AllNodes fun k n => 1 ≤ k ∧ n < p) :
    ∃ s, initialize_with p t = some s ∧
      ∀ with_msp A, s.isAuthorizedGroup with_msp A = some (evalFomula t A) := by
  obtain ⟨msp, hmsp, -⟩ := create_spec (p := p) (ht.mono fun _ _ h => h.1)
  refine ⟨⟨t, msp⟩, by simp [initialize_with, hmsp], fun with_msp A => ?_⟩
  have hauth := isAuthorized_create (p := p) (ht.mono fun _ _ h => h.1) A
  rw [hmsp, Option.bind_some, evalResidues_of_lt A (ht.mono fun _ _ h => h.2)] at hauth
  unfold isAuthorizedGroup
  split
  · exact hauth
  · rfl

end AccessStructure

end quorums

variable {Hash Sig : Type} {config : Config Hash Sig}

/-! ## Formulas that keep quorums together -/

/-- Quorums are the sets of configured replicas that satisfy the formula. -/
theorem Config.quorum_iff {t : Theta} (hrule : config.rule = .generalized (evalFomula t))
    {Q : Finset ReplicaID} :
    config.Quorum Q ↔ (∀ i ∈ Q, i < config.nreplicas) ∧ evalFomula t Q = true := by
  simp [Config.Quorum, hrule, QuorumRule.isQuorum]

/-- Replicas that do not satisfy the overlap formula may be faulty. -/
theorem Config.intersecting_of_formula {t : Theta}
    (hrule : config.rule = .generalized (evalFomula t)) {correct : ReplicaID → Prop}
    {faulty : Finset ReplicaID} (hfaulty : evalFomula t.overlap faulty = false)
    (hcorrect : ∀ i < config.nreplicas, i ∉ faulty → correct i) :
    config.Intersecting correct := by
  intro P Q hP hQ
  rw [Config.quorum_iff hrule] at hP hQ
  by_contra hnone
  have hsub : P ∩ Q ⊆ faulty := by
    intro i hi
    obtain ⟨hiP, hiQ⟩ := Finset.mem_inter.mp hi
    by_contra hif
    exact hnone ⟨i, hiP, hiQ, hcorrect i (hP.1 i hiP) hif⟩
  have hover := quorums.evalFomula_mono t.overlap hsub (quorums.evalFomula_overlap t hP.2 hQ.2)
  simp [hfaulty] at hover

/-! ## Votes on a block of height one -/

namespace World

open HotStuffCore (Call)

variable [DecidableEq Hash] {correct : ReplicaID → Prop} {w : World Hash Sig}

/-- A block on genesis, as anyone can make it. -/
structure First (config : Config Hash Sig) (correct : ReplicaID → Prop)
    (data : BlockData Hash Sig) : Prop where
  parents : data.parent_hashes = [config.b0]
  qc : data.qc.obj_hash = config.b0
  parsed : data.qc.Parsed
  unforged : Unforged config correct [] data.qc
  fresh : config.get_hash data ≠ config.b0

/-- The block once it is delivered. -/
def First.block (config : Config Hash Sig) (data : BlockData Hash Sig) : Block Hash Sig :=
  { data with
    parents := [config.b0]
    qc_ref := some config.b0
    self_qc := none
    height := 1
    delivered := true
    decision := false
    voted := ∅ }

/-- A replica that has this block besides genesis. -/
def holding (config : Config Hash Sig) (r : ReplicaID) (h : Hash) (b : Block Hash Sig) :
    HotStuffCore Hash Sig :=
  { HotStuffCore.on_init config r with
    storage := Function.update (HotStuffCore.on_init config r).storage h (some b) }

/-- The replica that has delivered the block. -/
def First.delivered (config : Config Hash Sig) (data : BlockData Hash Sig) (r : ReplicaID) :
    HotStuffCore Hash Sig :=
  { holding config r (config.get_hash data) (First.block config data) with
    tails := {config.get_hash data} }

theorem First.add_blk {data : BlockData Hash Sig} (hdata : First config correct data)
    (r : ReplicaID) : (HotStuffCore.on_init config r).call config (.add_blk data) =
      .ok (holding config r (config.get_hash data) (.unserialize data)) := by
  simp [HotStuffCore.call, HotStuffCore.on_init, EntityStorage.add_blk, holding, hdata.fresh]

theorem First.on_deliver_blk {data : BlockData Hash Sig} (hdata : First config correct data)
    (r : ReplicaID) :
    (holding config r (config.get_hash data) (.unserialize data)).call config
        (.on_deliver_blk (config.get_hash data)) =
      .ok (First.delivered config data r) := by
  simp [HotStuffCore.call, HotStuffCore.on_deliver_blk, HotStuffCore.on_init, First.delivered,
    holding, Block.unserialize, First.block, hdata.parents, HotStuffCore.delivered,
    hdata.fresh.symm, HotStuffCore.genesis, HotStuffCore.modify, EntityStorage.modify,
    HotStuffCore.height, hdata.qc]

/-- Genesis is decided, so that `update` does nothing. -/
theorem First.update {data : BlockData Hash Sig} (hdata : First config correct data)
    (r : ReplicaID) : (First.delivered config data r).update config (config.get_hash data) =
      .ok (First.delivered config data r) := by
  have hnone : (First.delivered config data r).undecided_ref (config.get_hash data) = none := by
    simp [First.delivered, holding, HotStuffCore.undecided_ref, HotStuffCore.qc_ref, First.block,
      HotStuffCore.decision, HotStuffCore.on_init, hdata.fresh.symm, HotStuffCore.genesis,
      Option.filter_some]
  have hblk : (First.delivered config data r).storage (config.get_hash data) =
      some (First.block config data) := by
    simp [First.delivered, holding]
  simp only [HotStuffCore.update, hblk, HotStuffCore.update_two_step,
    HotStuffCore.update_three_step, hnone, ite_self]

theorem First.opinion {data : BlockData Hash Sig} (hdata : First config correct data)
    (r : ReplicaID) :
    (First.delivered config data r).opinion (config.get_hash data) = some true := by
  simp [First.delivered, holding, First.block, HotStuffCore.opinion, HotStuffCore.on_init,
    HotStuffCore.height, HotStuffCore.qc_ref, HotStuffCore.walk, HotStuffCore.parents,
    HotStuffCore.genesis, hdata.fresh.symm]

theorem First.on_receive_proposal {data : BlockData Hash Sig} (hdata : First config correct data)
    (r : ReplicaID) :
    (First.delivered config data r).call config
        (.on_receive_proposal ⟨r + 1, config.get_hash data⟩) =
      .ok { First.delivered config data r with
        vheight := 1
        out := [.do_vote (r + 1) ⟨r, config.get_hash data,
          ⟨config.get_hash data, config.sign r (config.get_hash data)⟩⟩] } := by
  have hdelivered : (First.delivered config data r).delivered (config.get_hash data) = true := by
    simp [First.delivered, holding, HotStuffCore.delivered, First.block]
  have hid : ¬ r + 1 = (First.delivered config data r).id := by
    simp [First.delivered, holding, HotStuffCore.on_init]
  simp only [HotStuffCore.call, HotStuffCore.on_receive_proposal, hid, if_false, hdelivered,
    if_true, hdata.update, Outcome.andThen, HotStuffCore.vote_on, hdata.opinion]
  simp [First.delivered, holding, HotStuffCore.on_init, HotStuffCore.height, First.block]

/-- Whatever block comes in, its chain is short. -/
theorem short_of_storage {s : HotStuffCore Hash Sig} {r : ReplicaID} {h : Hash}
    {b : Block Hash Sig}
    (hs : s.storage = Function.update (HotStuffCore.on_init config r).storage h (some b))
    (hb : b.height ≤ 1) : s.Short := by
  intro x _
  have hle : s.height x ≤ 1 := by
    unfold HotStuffCore.height
    rw [hs]
    by_cases hx : x = h
    · simp [hx, hb]
    · rw [Function.update_of_ne hx]
      by_cases hx0 : x = config.b0
      · simp [hx0, HotStuffCore.on_init, HotStuffCore.genesis]
      · simp [HotStuffCore.on_init, hx0]
  omega

/-- A replica that has only genesis votes for the block. -/
theorem First.vote {data : BlockData Hash Sig} (hdata : First config correct data)
    {ok : World Hash Sig → ReplicaID → Call Hash Sig → Prop} (hok : ∀ w r c, ok w r c)
    (hw : Run config correct ok w) {r : ReplicaID} (hr : correct r)
    (hinit : w.core r = .on_init config r) :
    ∃ w', Run config correct ok w' ∧ w'.votes = (r, config.get_hash data) :: w.votes ∧
      ∀ r' ≠ r, w'.core r' = w.core r' := by
  have hstep : ∀ (w : World Hash Sig) (s s' : HotStuffCore Hash Sig) (c : Call Hash Sig),
      s.call config c = .ok s' → Run config correct ok w → w.core r = s → s.Short →
        w.Enabled config correct r c → Run config correct ok (w.after r s') := by
    intro w s s' c hc hw hs hshort he
    refine hw.step hr (hs ▸ hshort) he (hok w r c) ?_
    rw [hs, hc]
    rfl
  have hw1 := hstep w _ _ _ (hdata.add_blk r) hw hinit (HotStuffCore.on_init_short config r)
    ⟨hdata.parsed, hdata.unforged.mono (by simp)⟩
  have hcore : ∀ (w : World Hash Sig) s, (w.after r s).core r = s := by
    simp [World.after]
  have hw2 := hstep _ _ _ _ (hdata.on_deliver_blk r) hw1 (hcore _ _)
    (short_of_storage rfl (Nat.zero_le 1)) <| by
      refine ⟨.unserialize data, ?_, ?_, ?_, ?_⟩
      · simp [hcore, holding]
      · simp [Block.verify, Block.unserialize, hdata.qc]
      · simp [hcore, holding, Block.unserialize, hdata.qc, HotStuffCore.on_init, hdata.fresh.symm]
      · simp [hcore, holding, Block.unserialize, hdata.parents, HotStuffCore.on_init,
          HotStuffCore.delivered, hdata.fresh.symm, HotStuffCore.genesis]
  have hw3 := hstep _ _ _ _ (hdata.on_receive_proposal r) hw2 (hcore _ _)
    (short_of_storage rfl le_rfl) <| by
      refine ⟨Nat.succ_ne_self r, ?_⟩
      simp [hcore, First.delivered, holding, HotStuffCore.delivered, First.block]
  refine ⟨_, hw3, ?_, ?_⟩
  · simp [World.after, hinit, HotStuffCore.votes_sent, First.delivered, holding,
      HotStuffCore.on_init, Output.voted]
  · intro r' hr'
    simp [World.after, hr']

/-- Replicas that have only genesis vote for the block one after the other. -/
theorem First.votes {data : BlockData Hash Sig} (hdata : First config correct data)
    {ok : World Hash Sig → ReplicaID → Call Hash Sig → Prop} (hok : ∀ w r c, ok w r c)
    {rs : List ReplicaID} (hrs : rs.Nodup) (hw : Run config correct ok w)
    (hcorrect : ∀ r ∈ rs, correct r) (hinit : ∀ r ∈ rs, w.core r = .on_init config r) :
    ∃ w', Run config correct ok w' ∧ (∀ r ∈ rs, (r, config.get_hash data) ∈ w'.votes) ∧
      (∀ v ∈ w.votes, v ∈ w'.votes) ∧ ∀ r ∉ rs, w'.core r = w.core r := by
  induction rs generalizing w with
  | nil => exact ⟨w, hw, by simp, by simp, by simp⟩
  | cons r rs ih =>
    rw [List.nodup_cons] at hrs
    obtain ⟨w1, hw1, hvotes, hcore⟩ := hdata.vote hok hw (hcorrect r (by simp)) (hinit r (by simp))
    obtain ⟨w', hw', hall, hold, hsame⟩ := ih hrs.2 hw1
      (fun r' hr' => hcorrect r' (List.mem_cons_of_mem _ hr')) fun r' hr' => by
        rw [hcore r' (fun heq => hrs.1 (heq ▸ hr')), hinit r' (List.mem_cons_of_mem _ hr')]
    refine ⟨w', hw', ?_, ?_, ?_⟩
    · intro r' hr'
      rcases List.mem_cons.mp hr' with rfl | hr'
      · exact hold _ (by simp [hvotes])
      · exact hall r' hr'
    · intro v hv
      exact hold v (by simp [hvotes, hv])
    · intro r' hr'
      rw [List.mem_cons, not_or] at hr'
      rw [hsame r' hr'.2, hcore r' hr'.1]

end World

/-! ## What the formula withstands -/

/-- Correct replicas agree in the world: one certified block for each height, one chain of committed
blocks, and no call that finds safety breached or comes to the message of that exception. -/
structure World.Consistent [DecidableEq Hash] (config : Config Hash Sig)
    (correct : ReplicaID → Prop) (w : World Hash Sig) : Prop where
  certified : ∀ x y n, config.Depth x n → config.Depth y n →
    Certified config correct w.votes x → Certified config correct w.votes y → x = y
  chain : ∀ r r' x y, correct r → correct r' → x ∈ (w.core r).log → y ∈ (w.core r').log →
    config.Above x y ∨ config.Above y x
  spared : ∀ r c s, correct r → (w.core r).Short → w.Enabled config correct r c →
    (w.core r).call config c ≠ .throw s .safety_breached
  defined : ∀ r c, correct r → (w.core r).Short → w.Enabled config correct r c →
    (∀ blk, c ≠ .on_deliver_blk blk) → ((w.core r).call config c).Defined

/-- Blocks that extend the block of their certificate leave no room for disagreement. -/
theorem World.Run.consistent [DecidableEq Hash] {correct : ReplicaID → Prop}
    (hc : config.CollisionFree) (hi : config.Intersecting correct) {w : World Hash Sig}
    (hw : Run config correct (Extending config) w) : w.Consistent config correct := by
  have hok : Ok hc hi w := hw.keeps_ok
  have hordered : w.Ordered hc hi := hw.ordered fun _ _ _ hw hr he hext =>
    hw.safeCall hc hi hr he hext
  refine ⟨fun x y n hx hy hcx hcy => ?_, fun r r' x y hr hr' hx hy => ?_,
    fun r c s hr hshort he => ?_, fun r c hr hshort he hne => ?_⟩
  · exact hok.rising.certified_unique hcx hcy ((hc.depth_eq hx).trans (hc.depth_eq hy).symm)
  · exact hok.logs_linear hordered hr hr' hx hy
  · exact (hok.node r hr).call_spares hc (hok.linear hordered) hshort he s
  · exact (hok.node r hr).call_defined hc hshort he hne

/-- The replicas decide quorums by the formula `t`, in one of the two builds. -/
def Config.UsesFormula (config : Config Hash Sig) (with_msp : Bool) (p : ℕ) (t : Theta) : Prop :=
  ∃ s f, quorums.AccessStructure.initialize_with p t = some s ∧ config.rule = .generalized f ∧
    ∀ A, s.isAuthorizedGroup with_msp A = some (f A)

theorem Config.UsesFormula.rule {with_msp : Bool} {p : ℕ} (hp : p.Prime) {t : Theta}
    (ht : t.AllNodes fun k n => 1 ≤ k ∧ n < p) (h : config.UsesFormula with_msp p t) :
    config.rule = .generalized (evalFomula t) := by
  have : Fact p.Prime := ⟨hp⟩
  obtain ⟨s, f, hs, hrule, hf⟩ := h
  obtain ⟨s', hs', heval⟩ := quorums.AccessStructure.initialize_with_spec ht
  rw [hs, Option.some.injEq] at hs'
  rw [hrule]
  congr 1
  funext A
  have := hf A
  rw [hs', heval, Option.some.injEq] at this
  exact this.symm

namespace World

variable [DecidableEq Hash]

/-- Two quorums that meet among faulty replicas only certify two blocks. -/
theorem certified_fork {F P Q : Finset ReplicaID} (hP : config.Quorum P) (hQ : config.Quorum Q)
    (hPQ : P ∩ Q ⊆ F) {data data' : BlockData Hash Sig}
    (hdata : First config (· ∉ F) data) (hdata' : First config (· ∉ F) data') :
    ∃ w, Run config (· ∉ F) (fun _ _ _ => True) w ∧
      Certified config (· ∉ F) w.votes (config.get_hash data) ∧
      Certified config (· ∉ F) w.votes (config.get_hash data') := by
  have hstart : Run config (· ∉ F) (fun _ _ _ => True) (start config) := .start
  obtain ⟨w1, hw1, hvotes1, -, hsame⟩ := hdata.votes (fun _ _ _ => trivial)
    (P \ F).nodup_toList hstart (by simp) fun _ _ => rfl
  obtain ⟨w, hw, hvotes, hold, -⟩ := hdata'.votes (fun _ _ _ => trivial) (Q \ F).nodup_toList hw1
    (by simp) fun r hr => by
      rw [Finset.mem_toList, Finset.mem_sdiff] at hr
      refine hsame r fun hr' => hr.2 (hPQ ?_)
      rw [Finset.mem_toList, Finset.mem_sdiff] at hr'
      exact Finset.mem_inter.mpr ⟨hr'.1, hr.1⟩
  refine ⟨w, hw, ⟨P, hP, fun i hi hif => hold _ (hvotes1 i ?_)⟩, Q, hQ, fun i hi hif =>
    hvotes i ?_⟩
  · simp [hi, hif]
  · simp [hi, hif]

/-- The certified blocks of every height are unique, whatever the faulty replicas do, exactly when
no two quorums meet among these only. -/
theorem certified_unique_iff (hc : config.CollisionFree) {F : Finset ReplicaID}
    {data data' : BlockData Hash Sig} (hdata : First config (· ∉ F) data)
    (hdata' : First config (· ∉ F) data') (hne : config.get_hash data ≠ config.get_hash data') :
    (∀ w, Run config (· ∉ F) (fun _ _ _ => True) w → ∀ x y n, config.Depth x n →
      config.Depth y n → Certified config (· ∉ F) w.votes x →
        Certified config (· ∉ F) w.votes y → x = y) ↔
    ∀ P Q, config.Quorum P → config.Quorum Q → ¬ P ∩ Q ⊆ F := by
  constructor
  · intro hunique P Q hP hQ hPQ
    obtain ⟨w, hw, hx, hy⟩ := certified_fork hP hQ hPQ hdata hdata'
    have hdepth : ∀ {data : BlockData Hash Sig}, First config (· ∉ F) data →
        config.Depth (config.get_hash data) 1 := fun {data} hdata =>
      .next ⟨data, rfl, by simp [hdata.parents]⟩ .genesis
    exact hne (hunique w hw _ _ 1 (hdepth hdata) (hdepth hdata') hx hy)
  · intro hover w hw x y n hx hy hcx hcy
    have hi : config.Intersecting (· ∉ F) := fun P Q hP hQ => by
      obtain ⟨i, hi, hif⟩ := Finset.not_subset.mp (hover P Q hP hQ)
      exact ⟨i, (Finset.mem_inter.mp hi).1, (Finset.mem_inter.mp hi).2, hif⟩
    have hok : Ok hc hi w := hw.keeps_ok
    refine hok.rising.certified_unique hcx hcy ?_
    exact (hc.depth_eq hx).trans (hc.depth_eq hy).symm

/-- In the generalized build the certified blocks of every height are unique, whatever the faulty
replicas do, exactly when these do not satisfy the overlap formula. -/
theorem certified_blocks_are_unique_iff_no_overlap {p : ℕ} (hp : p.Prime) {t : Theta}
    (ht : t.AllNodes fun k n => 1 ≤ k ∧ k ≤ n ∧ n < p) (hnodup : (leaves t).Nodup)
    {with_msp : Bool} (huses : config.UsesFormula with_msp p t)
    (hleaves : ∀ i ∈ leaves t, i < config.nreplicas) (hc : config.CollisionFree)
    {F : Finset ReplicaID} {data data' : BlockData Hash Sig}
    (hdata : First config (· ∉ F) data) (hdata' : First config (· ∉ F) data')
    (hne : config.get_hash data ≠ config.get_hash data') :
    (∀ w, Run config (· ∉ F) (fun _ _ _ => True) w → ∀ x y n, config.Depth x n →
      config.Depth y n → Certified config (· ∉ F) w.votes x →
        Certified config (· ∉ F) w.votes y → x = y) ↔
    evalFomula t.overlap F = false := by
  have hrule := huses.rule hp (ht.mono fun _ _ h => ⟨h.1, h.2.2⟩)
  rw [certified_unique_iff hc hdata hdata' hne, ← Bool.not_eq_true,
    quorums.overlap_iff (ht.mono fun _ _ h => h.2.1) hnodup]
  constructor
  · rintro hnone ⟨P, hP, Q, hQ, hevalP, hevalQ, hPQ⟩
    have hquorum : ∀ A ⊆ (leaves t).toFinset, evalFomula t A = true → config.Quorum A :=
      fun A hA heval => (Config.quorum_iff hrule).mpr
        ⟨fun i hi => hleaves i (List.mem_toFinset.mp (hA hi)), heval⟩
    exact hnone P Q (hquorum P hP hevalP) (hquorum Q hQ hevalQ) hPQ
  · intro hnone P Q hP hQ hPQ
    refine hnone ((quorums.overlap_iff (ht.mono fun _ _ h => h.2.1) hnodup F).mp ?_)
    exact quorums.evalFomula_mono t.overlap hPQ (quorums.evalFomula_overlap t
      ((Config.quorum_iff hrule).mp hP).2 ((Config.quorum_iff hrule).mp hQ).2)

/-- Three of four replicas. -/
def three_of_four : Theta := .mk 3 [0, 1, 2, 3] []

theorem three_of_four_bounded :
    three_of_four.AllNodes fun k n => 1 ≤ k ∧ k ≤ n ∧ n < 5 ∧ 2 * (n : ℤ) < 3 * k :=
  .mk (by simp) (by simp)

/-- Replicas that decide quorums by a formula, with a coding of blocks for a hash. -/
def formula_replicas (two_step : Bool) (t : Theta) (n : ℕ) (hn : n ≤ 2 ^ 16) :
    Config ℕ (ReplicaID × ℕ) :=
  { coded_replicas two_step with
    rule := .generalized (evalFomula t)
    nreplicas := n
    nreplicas_le := hn }

section FormulaReplicas

variable (two_step : Bool) (t : Theta) (n : ℕ) (hn : n ≤ 2 ^ 16)

theorem formula_replicas_uses {p : ℕ} (hp : p.Prime) (ht : t.AllNodes fun k n => 1 ≤ k ∧ n < p)
    (with_msp : Bool) : (formula_replicas two_step t n hn).UsesFormula with_msp p t := by
  have : Fact p.Prime := ⟨hp⟩
  obtain ⟨s, hs, hf⟩ := quorums.AccessStructure.initialize_with_spec ht
  exact ⟨s, evalFomula t, hs, rfl, hf with_msp⟩

theorem formula_collisionFree : (formula_replicas two_step t n hn).CollisionFree :=
  ⟨(coded_collisionFree two_step).content, (coded_collisionFree two_step).genesis⟩

theorem first_coded_block (correct : ReplicaID → Prop) (cmd : ℕ) :
    First (formula_replicas two_step t n hn) correct (coded_block 0 0 cmd) where
  parents := rfl
  qc := rfl
  parsed := by simp [QuorumCert.Parsed, QuorumCert.signers, coded_block,
    QuorumCert.create_quorum_cert]
  unforged := by simp [Unforged, formula_replicas, coded_replicas, coded_block,
    QuorumCert.create_quorum_cert]
  fresh h := by simpa [coded_block] using (formula_collisionFree two_step t n hn).genesis _ h

/-- Two first blocks with different commands. -/
theorem first_coded_blocks_ne : (formula_replicas two_step t n hn).get_hash (coded_block 0 0 0) ≠
    (formula_replicas two_step t n hn).get_hash (coded_block 0 0 1) := by
  intro h
  have := Encodable.encode_injective (α := List ℕ × ℕ × List ℕ) h
  simp [coded_block] at this

end FormulaReplicas

/-- Four replicas, of which three are a quorum. -/
def four_replicas (two_step : Bool) : Config ℕ (ReplicaID × ℕ) :=
  formula_replicas two_step three_of_four 4 (by decide)

theorem one_of_four_faulty_replicas_cannot_fork :
    evalFomula three_of_four.overlap {3} = false ∧
    ((∀ w, Run (four_replicas false) (· ∉ ({3} : Finset ReplicaID)) (fun _ _ _ => True) w →
      ∀ x y n, (four_replicas false).Depth x n → (four_replicas false).Depth y n →
        Certified (four_replicas false) (· ∉ ({3} : Finset ReplicaID)) w.votes x →
          Certified (four_replicas false) (· ∉ ({3} : Finset ReplicaID)) w.votes y → x = y) ↔
    evalFomula three_of_four.overlap {3} = false) := by
  have hbound := three_of_four_bounded.mono fun _ _ h => (⟨h.1, h.2.2.1⟩ : _ ∧ _)
  refine ⟨by decide, certified_blocks_are_unique_iff_no_overlap (by decide)
    (three_of_four_bounded.mono fun _ _ h => ⟨h.1, h.2.1, h.2.2.1⟩) (by decide)
    (formula_replicas_uses false _ _ _ (by decide) hbound true) (by decide)
    (formula_collisionFree false _ _ _) (first_coded_block false _ _ _ _ 0)
    (first_coded_block false _ _ _ _ 1) (first_coded_blocks_ne false _ _ _)⟩

/-! ## Two thirds of the children -/

/-- When every node asks for more than two thirds of its children and the replicas that are not
faulty satisfy the formula, correct replicas agree in every run of blocks that extend the block of
their certificate. -/
theorem two_thirds_of_the_children_are_enough {p : ℕ} (hp : p.Prime) {t : Theta}
    (ht : t.AllNodes fun k n => 1 ≤ k ∧ n < p ∧ 2 * (n : ℤ) < 3 * k) {with_msp : Bool}
    (huses : config.UsesFormula with_msp p t) (hleaves : ∀ i ∈ leaves t, i < config.nreplicas)
    (hc : config.CollisionFree) {F : Finset ReplicaID}
    (hlive : evalFomula t (Finset.range config.nreplicas \ F) = true) {w : World Hash Sig}
    (hw : Run config (· ∉ F) (Extending config) w) : w.Consistent config (· ∉ F) := by
  have hrule := huses.rule hp (ht.mono fun _ _ h => ⟨h.1, h.2.1⟩)
  have hblock : evalFomula t.blocking F = false := by
    refine (quorums.evalFomula_blocking t fun rid hrid => ?_).mp hlive
    simp [hleaves rid hrid]
  have hover := quorums.overlap_of_two_thirds (ht.mono fun _ _ h => h.2.2) hblock
  exact hw.consistent hc (Config.intersecting_of_formula hrule hover fun _ _ h => h)

theorem three_of_four_replicas_stay_on_one_chain :
    ∃ w, Run (four_replicas true) (· ∉ ({3} : Finset ReplicaID))
        (Extending (four_replicas true)) w ∧
      (w.core 0).b_exec = chain_code 2 ∧ (w.core 1).b_exec = chain_code 3 ∧
      w.Consistent (four_replicas true) (· ∉ ({3} : Finset ReplicaID)) := by
  have hend : ((start (four_replicas true)).play (four_replicas true)
      (· ∉ ({3} : Finset ReplicaID)) Direct straight_run).map (fun w => decide
        ((w.core 0).b_exec = chain_code 2 ∧ (w.core 1).b_exec = chain_code 3)) = some true := by
    decide +kernel
  obtain ⟨w, hw, hcheck⟩ := Option.map_eq_some_iff.mp hend
  obtain ⟨hexec, hexec'⟩ := of_decide_eq_true hcheck
  have hext : Run (four_replicas true) (· ∉ ({3} : Finset ReplicaID))
      (Extending (four_replicas true)) w :=
    (Run.play hw (by decide)).1.mono fun _ _ _ h => Direct.extending h
  have hbound := three_of_four_bounded.mono fun _ _ h => (⟨h.1, h.2.2.1⟩ : _ ∧ _)
  exact ⟨w, hext, hexec, hexec', two_thirds_of_the_children_are_enough (by decide)
    (three_of_four_bounded.mono fun _ _ h => ⟨h.1, h.2.2⟩)
    (formula_replicas_uses true _ _ _ (by decide) hbound true) (by decide)
    (formula_collisionFree true _ _ _) (by decide) hext⟩

end World

end general_hotstuff
