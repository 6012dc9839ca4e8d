-- A list of calls replayed against the world, which yields a run when each call can occur,
-- and replicas with a coding of blocks for a hash to replay them on.
import Mathlib.Data.Finset.Powerset
import Mathlib.Logic.Equiv.List
import GeneralHotStuff.Network

namespace general_hotstuff

open quorums (ReplicaID)

variable {Hash Sig : Type}

/-! ## Heights -/

namespace HotStuffCore

/-- A call delivers at most one block, one higher than a block that was there. -/
theorem call_heights [DecidableEq Hash] (config : Config Hash Sig) {s : HotStuffCore Hash Sig}
    (hok : BlocksOk config s) (hshort : s.Short) (c : Call Hash Sig) {n : ℕ}
    (hn : ∀ h, s.delivered h = true → s.height h ≤ n) :
    (s.call config c).Leaves fun s' => ∀ h, s'.delivered h = true → s'.height h ≤ n + 1 := by
  intro s' hs' h hd
  have hg := call_grows config s c s' hs'
  have hok' := call_blocksOk config hok hshort c s' hs'
  have hold : ∀ x, s.delivered x = true → s'.height x ≤ n := by
    intro x hx
    rw [(hg.sameAt hx).height]
    exact hn x hx
  by_cases hx : s.delivered h = true
  · exact (hold h hx).trans (Nat.le_succ n)
  have hne : h ≠ config.b0 := fun heq => hx (heq ▸ hok.b0_delivered)
  obtain ⟨b, hb, hbd⟩ := exists_of_delivered hd
  obtain ⟨p, ps, -, hps, -⟩ := (hok'.law h b hne hb).linked hbd
  have hp : (s'.parents h).head? = some p := by rw [parents_eq hb, hps]; rfl
  have hheight := hok'.height_parent hd hp
  have hpd := hok'.parent_delivered hp
  have hpold : s.delivered p = true := by
    by_contra hpn
    have hnew := (call_delivered config s c s' hs' h hd).resolve_left hx
    have hpnew := (call_delivered config s c s' hs' p hpd).resolve_left hpn
    have heq : p = h := by
      rcases hnew with rfl | ⟨cmds, parents, extra, rfl, rfl⟩
      · rcases hpnew with hc | ⟨_, _, _, hc, -⟩
        · cases hc
          rfl
        · cases hc
      · rcases hpnew with hc | ⟨_, _, _, hc, rfl⟩
        · cases hc
        · cases hc
          rfl
    rw [heq] at hheight
    omega
  have := hold p hpold
  omega

/-- Chains are no longer than `n`. -/
def Low (config : Config Hash Sig) (n : ℕ) (s : HotStuffCore Hash Sig) : Prop :=
  BlocksOk config s ∧ ∀ h, s.delivered h = true → s.height h ≤ n

section

variable [DecidableEq Hash] {config : Config Hash Sig} {n : ℕ} {s s' : HotStuffCore Hash Sig}

theorem low_init (config : Config Hash Sig) (id : ReplicaID) :
    (on_init config id).Low config 0 := by
  have hok := on_init_blocksOk config id
  refine ⟨hok, fun h hd => ?_⟩
  have hh : h = config.b0 := by
    by_contra hne
    simp [on_init, delivered, hne] at hd
  rw [hh]
  exact hok.b0_height.le

omit [DecidableEq Hash] in
theorem Low.short (h : s.Low config n) (hn : n + 1 < 2 ^ 32) : s.Short := fun x hx =>
  Nat.lt_of_le_of_lt (Nat.succ_le_succ (h.2 x hx)) hn

theorem Low.call (h : s.Low config n) (hn : n + 1 < 2 ^ 32) (c : Call Hash Sig)
    (hs : (s.call config c).state? = some s') : s'.Low config (n + 1) :=
  ⟨call_blocksOk config h.1 (h.short hn) c s' hs, call_heights config h.1 (h.short hn) c h.2 s' hs⟩

theorem Run.play_low {id : ReplicaID} {ok ok' : HotStuffCore Hash Sig → Call Hash Sig → Prop}
    [∀ s c, Decidable (ok s c)] (hok : ∀ s c, s.Short → ok s c → ok' s c)
    {cs : List (Call Hash Sig)} (hrun : Run config id ok' s) (h : s.Low config n)
    (hn : n + cs.length + 1 < 2 ^ 32) (hcs : s.play config ok cs = some s') :
    Run config id ok' s' ∧ s'.Short := by
  induction cs generalizing s n with
  | nil =>
    obtain rfl := Option.some.inj hcs
    exact ⟨hrun, h.short hn⟩
  | cons c cs ih =>
    rw [List.length_cons] at hn
    rw [HotStuffCore.play] at hcs
    split at hcs
    · rename_i hc
      obtain ⟨s1, hs1, hcs⟩ := Option.bind_eq_some_iff.mp hcs
      have hshort : s.Short := h.short (by omega)
      exact ih (hrun.step (hok s c hshort hc) hs1) (h.call (by omega) c hs1) (by omega) hcs
    · cases hcs

/-- All chains are short before each of fewer than 2^32 calls. -/
theorem Run.play_short {id : ReplicaID} {ok ok' : HotStuffCore Hash Sig → Call Hash Sig → Prop}
    [∀ s c, Decidable (ok s c)] (hok : ∀ s c, s.Short → ok s c → ok' s c)
    {cs : List (Call Hash Sig)} (hcs : (on_init config id).play config ok cs = some s)
    (hlen : cs.length + 1 < 2 ^ 32) : Run config id ok' s ∧ s.Short :=
  Run.play_low hok .init (low_init config id) (by omega) hcs

end

end HotStuffCore

/-! ## Deciding what can occur -/

section Decidable

variable (config : Config Hash Sig) (correct : ReplicaID → Prop) [DecidablePred correct]

instance [DecidableEq Hash] (votes : List (ReplicaID × Hash)) (h : Hash) :
    Decidable (Certified config correct votes h) :=
  decidable_of_iff (∃ Q ∈ (Finset.range config.nreplicas).powerset,
      config.rule.isQuorum Q = true ∧ ∀ i ∈ Q, correct i → (i, h) ∈ votes) <| by
    simp only [Certified, Config.Quorum, Finset.mem_powerset, Finset.subset_iff, Finset.mem_range,
      and_assoc]

instance [DecidableEq Hash] (votes : List (ReplicaID × Hash)) (qc : QuorumCert Hash Sig) :
    Decidable (Unforged config correct votes qc) :=
  match hs : config.scheme with
  | .secp256k1 => decidable_of_iff (∀ p ∈ qc.sigs, correct p.1 →
      config.sigVerify p.1 qc.obj_hash p.2 = true → (p.1, qc.obj_hash) ∈ votes) <| by
    rw [Unforged, hs]
  | .bls => decidable_of_iff (config.threshVerify qc.obj_hash qc.threshSig = true →
      Certified config correct votes qc.obj_hash) <| by
    rw [Unforged, hs]

instance (qc : QuorumCert Hash Sig) : Decidable qc.Parsed :=
  inferInstanceAs (Decidable (∀ rid ∈ qc.signers, ∃ i < qc.rids.length,
    qc.rids[i]? = some true ∧ QuorumCert.rid_of_bit i = rid))

instance [DecidableEq Hash] (w : World Hash Sig) (r : ReplicaID) :
    ∀ c, Decidable (w.Enabled config correct r c)
  | .add_blk data =>
    inferInstanceAs (Decidable (data.qc.Parsed ∧ Unforged config correct w.votes data.qc))
  | .on_deliver_blk blk =>
    inferInstanceAs (Decidable (∃ b ∈ (w.core r).storage blk, b.verify config = some true ∧
      ((w.core r).storage b.qc.obj_hash).isSome = true ∧
      ∀ p ∈ b.parent_hashes, (w.core r).delivered p = true))
  | .on_propose _ parents _ =>
    inferInstanceAs (Decidable (∀ p ∈ parents, (w.core r).delivered p = true))
  | .on_receive_proposal prop =>
    inferInstanceAs (Decidable (prop.proposer ≠ r ∧ (w.core r).delivered prop.blk = true))
  | .on_receive_vote vote =>
    inferInstanceAs (Decidable (HotStuffCore.Verified config vote ∧
      (correct vote.voter → (vote.voter, vote.blk_hash) ∈ w.votes)))
  | .set_vote_disabled _ => inferInstanceAs (Decidable True)

end Decidable

/-! ## Replays -/

namespace World

open HotStuffCore (Call BlocksOk)

variable [DecidableEq Hash] {config : Config Hash Sig} {correct : ReplicaID → Prop}

/-- The calls one after the other, as long as each can occur and satisfies `ok`. -/
def play (config : Config Hash Sig) (correct : ReplicaID → Prop) [DecidablePred correct]
    (ok : World Hash Sig → ReplicaID → Call Hash Sig → Prop) [∀ w r c, Decidable (ok w r c)]
    (w : World Hash Sig) : List (ReplicaID × Call Hash Sig) → Option (World Hash Sig)
  | [] => some w
  | (r, c) :: cs =>
    if correct r ∧ w.Enabled config correct r c ∧ ok w r c then
      ((w.core r).call config c).state?.bind fun s => play config correct ok (w.after r s) cs
    else none

/-- After `n` steps the chains are no longer than `n`. -/
def Low (config : Config Hash Sig) (n : ℕ) (w : World Hash Sig) : Prop :=
  ∀ r, BlocksOk config (w.core r) ∧ ∀ h, (w.core r).delivered h = true → (w.core r).height h ≤ n

theorem low_start (config : Config Hash Sig) : (start config).Low config 0 :=
  HotStuffCore.low_init config

omit [DecidableEq Hash] in
theorem Low.short {n : ℕ} {w : World Hash Sig} (h : w.Low config n) (hn : n + 1 < 2 ^ 32)
    (r : ReplicaID) : (w.core r).Short :=
  HotStuffCore.Low.short (h r) hn

theorem Low.after {n : ℕ} {w : World Hash Sig} (h : w.Low config n) (hn : n + 1 < 2 ^ 32)
    {r : ReplicaID} {c : Call Hash Sig} {s : HotStuffCore Hash Sig}
    (hs : ((w.core r).call config c).state? = some s) : (w.after r s).Low config (n + 1) := by
  intro r'
  by_cases heq : r' = r
  · subst heq
    simpa [World.after, HotStuffCore.Low] using HotStuffCore.Low.call (h r') hn c hs
  · simpa [World.after, heq] using ⟨(h r').1, fun x hx => ((h r').2 x hx).trans (Nat.le_succ n)⟩

theorem Run.play_low [DecidablePred correct]
    {ok : World Hash Sig → ReplicaID → Call Hash Sig → Prop} [∀ w r c, Decidable (ok w r c)]
    {cs : List (ReplicaID × Call Hash Sig)} {n : ℕ} {w w' : World Hash Sig}
    (hrun : Run config correct ok w) (h : w.Low config n) (hn : n + cs.length + 1 < 2 ^ 32)
    (hcs : w.play config correct ok cs = some w') :
    Run config correct ok w' ∧ ∀ r, (w'.core r).Short := by
  induction cs generalizing w n with
  | nil =>
    obtain rfl := Option.some.inj hcs
    exact ⟨hrun, h.short hn⟩
  | cons rc cs ih =>
    obtain ⟨r, c⟩ := rc
    rw [List.length_cons] at hn
    rw [World.play] at hcs
    split at hcs
    · rename_i hocc
      obtain ⟨hr, he, hok⟩ := hocc
      obtain ⟨s, hs, hcs⟩ := Option.bind_eq_some_iff.mp hcs
      have hshort := h.short (by omega) r
      exact ih (hrun.step hr hshort he hok hs) (h.after (by omega) hs) (by omega) hcs
    · cases hcs

/-- A replay of fewer than 2^32 calls is a run. -/
theorem Run.play [DecidablePred correct] {ok : World Hash Sig → ReplicaID → Call Hash Sig → Prop}
    [∀ w r c, Decidable (ok w r c)] {cs : List (ReplicaID × Call Hash Sig)} {w : World Hash Sig}
    (hcs : (World.start config).play config correct ok cs = some w)
    (hlen : cs.length + 1 < 2 ^ 32) : Run config correct ok w ∧ ∀ r, (w.core r).Short :=
  Run.play_low .start (low_start config) (by omega) hcs

end World

/-! ## Replicas to replay on -/

/-- A block by number: its parents, the block of its certificate and its commands. -/
def block_code (data : BlockData ℕ (ReplicaID × ℕ)) : ℕ :=
  Encodable.encode (data.parent_hashes, data.qc.obj_hash, data.cmds)

/-- Four replicas of the threshold build, of which number 3 need not be correct. A signature names
its replica and what it signs. -/
def coded_replicas (two_step : Bool) : Config ℕ (ReplicaID × ℕ) :=
  { two_step := two_step
    scheme := .secp256k1
    rule := .threshold 3
    nreplicas := 4
    nreplicas_le := Config.four_le
    b0 := 0
    get_hash := block_code
    sign := fun rid h => (rid, h)
    sigVerify := fun rid h sig => sig = (rid, h)
    recover := fun sigs => sigs.head?.elim (0, 0) Prod.snd
    threshVerify := fun h sig => sig.any (·.2 = h) }

theorem coded_collisionFree (two_step : Bool) : (coded_replicas two_step).CollisionFree where
  content data data' h := by
    have heq := Encodable.encode_injective (α := List ℕ × ℕ × List ℕ) h
    rw [Prod.mk.injEq, Prod.mk.injEq] at heq
    exact ⟨heq.1, heq.2.1⟩
  genesis data h := by
    have hzero : Encodable.encode (([] : List ℕ), 0, ([] : List ℕ)) = 0 := by
      rw [Encodable.encode_prod_val, Encodable.encode_prod_val, Encodable.encode_list_nil]
      rfl
    have heq := Encodable.encode_injective (α := List ℕ × ℕ × List ℕ) (h.trans hzero.symm)
    rw [Prod.mk.injEq] at heq
    exact heq.1

theorem coded_intersecting (two_step : Bool) :
    (coded_replicas two_step).Intersecting (· < 3) := by
  have hmajority : quorums.on_init_nmajority 4 (quorums.start_nfaulty 4) = 3 := by decide
  have hfaulty : ({3} : Finset ReplicaID).card ≤ quorums.start_nfaulty 4 := by decide
  refine Config.intersecting_of_threshold (Nat.succ_pos 3)
    (congrArg QuorumRule.threshold hmajority.symm) hfaulty fun i hi hne => ?_
  have hi : i < 4 := hi
  have hne : i ≠ 3 := by simpa using hne
  exact Nat.lt_of_le_of_ne (Nat.le_of_lt_succ hi) hne

/-- The certificate with the signatures of replicas 1, 2 and 3. -/
def coded_qc (h : ℕ) : QuorumCert ℕ (ReplicaID × ℕ) :=
  { obj_hash := h
    rids := [false, true, true, true]
    sigs := [(1, 1, h), (2, 2, h), (3, 3, h)]
    threshSig := none }

/-- A block on `p` with a certificate on `q`. -/
def coded_block (p q cmd : ℕ) : BlockData ℕ (ReplicaID × ℕ) :=
  { parent_hashes := [p]
    cmds := [cmd]
    qc := if q = 0 then .create_quorum_cert (coded_replicas false) 0 else coded_qc q
    extra := [] }

open HotStuffCore (Call)

/-- The block arrives at each of the replicas and is delivered. -/
def arrives (data : BlockData ℕ (ReplicaID × ℕ)) (rs : List ReplicaID) :
    List (ReplicaID × Call ℕ (ReplicaID × ℕ)) :=
  rs.flatMap fun r => [(r, .add_blk data), (r, .on_deliver_blk (block_code data))]

/-- The block is proposed by replica 3, too. -/
def proposed_by_3 (data : BlockData ℕ (ReplicaID × ℕ)) (rs : List ReplicaID) :
    List (ReplicaID × Call ℕ (ReplicaID × ℕ)) :=
  arrives data rs ++ rs.map fun r => (r, .on_receive_proposal ⟨3, block_code data⟩)

/-- Block number `i` of a chain in which every certificate is on the parent. Genesis is number 0. -/
def chain_code : ℕ → ℕ
  | 0 => 0
  | i + 1 => block_code (coded_block (chain_code i) (chain_code i) 0)

/-- The block after number `i` of the chain. -/
def chain_block (i : ℕ) : BlockData ℕ (ReplicaID × ℕ) :=
  coded_block (chain_code i) (chain_code i) 0

/-- Replicas 1 and 2 vote for four blocks in a row, replica 0 gets the fourth and replica 1 the
fifth. -/
def straight_run : List (ReplicaID × Call ℕ (ReplicaID × ℕ)) :=
  [0, 1, 2, 3].flatMap (fun i => proposed_by_3 (chain_block i) [1, 2]) ++
    [0, 1, 2].flatMap (fun i => arrives (chain_block i) [0]) ++
    proposed_by_3 (chain_block 3) [0] ++ proposed_by_3 (chain_block 4) [1]

end general_hotstuff
