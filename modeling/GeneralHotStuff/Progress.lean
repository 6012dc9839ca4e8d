-- Progress. From any world that can be reached, a leader whose highest certificate is as high as
-- the locks of a quorum gets its blocks decided: three-step blocks three rounds later, two-step
-- blocks two.
import GeneralHotStuff.LeaderRounds

namespace general_hotstuff

open quorums (ReplicaID)

variable {Hash Sig : Type} {config : Config Hash Sig} {correct : ReplicaID → Prop}

namespace World

open HotStuffCore (NodeOk)

variable [DecidableEq Hash] {Q : Finset ReplicaID} {leader : ReplicaID} {w : World Hash Sig}

/-! ## Rounds in a row -/

/-- The blocks of the leader, the newest first, with the commands that it was given, the newest
last. The first block is on `p` and has its certificate on `q`, each other one is on the block
before it and has its certificate there. -/
inductive Proposed (config : Config Hash Sig) (p q : Hash) :
    List (List Hash) → List Hash → Prop where
  | none : Proposed config p q [] []
  | next {batches : List (List Hash)} {l : List Hash} (data : BlockData Hash Sig)
      (h : Proposed config p q batches l) (hparent : data.parent_hashes = [l.head?.getD p])
      (hqc : data.qc.obj_hash = l.head?.getD q) :
      Proposed config p q (batches ++ [data.cmds]) (config.get_hash data :: l)

theorem Leading.rounds {N : ℕ} {p : Hash} (hc : config.CollisionFree)
    (hi : config.Intersecting correct) (hsame : config.SameCertificates) (hsig : config.Signs)
    (hN : N + 1 < 2 ^ 32) (hQ : config.Quorum Q) (hcor : ∀ r ∈ Q, correct r) (hl : leader ∈ Q)
    (hw : Run config correct (Extending config) w)
    (h : Leading config correct Q leader N p w) (batches : List (List Hash))
    (hlow : config.depth p + batches.length ≤ N) :
    ∃ w' l, Later config correct Q leader w w' ∧
      Proposed config p (w.core leader).hqc.1 batches l ∧
      Leading config correct Q leader N (l.head?.getD p) w' ∧
      (w'.core leader).hqc.1 = l.head?.getD (w.core leader).hqc.1 ∧
      config.depth (l.head?.getD p) = config.depth p + batches.length ∧
      ∀ x ∈ l.head?, ∀ r ∈ Q, ∀ blk, (w'.core r).committable config x = some blk →
        (w'.core r).decision blk = true := by
  induction batches using List.reverseRecOn with
  | nil => exact ⟨w, [], .refl, .none, h, rfl, rfl, by simp⟩
  | append_singleton batches cmds ih =>
    rw [List.length_append, List.length_singleton] at hlow
    obtain ⟨w1, l, hl1, hprop, hlead, hhqc, hdepth, -⟩ := ih (by omega)
    have hw1 := hw.later hl1
    have hok : Ok hc hi w1 := hw1.keeps_ok
    obtain ⟨w2, hl2, hlead2, hhqc2, hdepth2, hdec⟩ := hlead.round hc hi hsame hsig hN hQ hcor hl hw1
      (by omega) cmds [] rfl
    refine ⟨w2, _, hl1.trans hl2, .next ((w1.core leader).proposed cmds _ []) hprop rfl ?_,
      hlead2, hhqc2, ?_, ?_⟩
    · exact (hok.node leader (hcor leader hl)).certs.hqc.trans hhqc
    · rw [List.length_append, List.length_singleton, ← Nat.add_assoc, ← hdepth, ← hdepth2]
      rfl
    · intro x hx
      exact Option.some.inj hx ▸ hdec

/-! ## What is decided -/

/-- How many blocks above it decide a block. -/
def lag (config : Config Hash Sig) : ℕ := if config.two_step then 2 else 3

section Decided

variable {p q : Hash} {batches : List (List Hash)} {l : List Hash}

omit [DecidableEq Hash] in
theorem Proposed.links (h : Proposed config p q batches l) :
    List.IsChain (fun a b => config.Parent a b ∧ config.QcOf a b) l := by
  induction h with
  | none => exact .nil
  | @next batches l data h hparent hqc ih =>
    cases l with
    | nil => exact .singleton _
    | cons y l =>
      refine .cons_cons ⟨⟨data, rfl, ?_⟩, data, rfl, hqc⟩ ih
      rw [hparent]
      rfl

omit [DecidableEq Hash] in
theorem Proposed.length (h : Proposed config p q batches l) : l.length = batches.length := by
  induction h with
  | none => rfl
  | next _ _ _ _ ih => simp [ih]

omit [DecidableEq Hash] in
theorem Proposed.depth {n : ℕ} (h : Proposed config p q batches l) (hp : config.Depth p n) :
    config.Depth (l.head?.getD p) (n + batches.length) := by
  induction h with
  | none => exact hp
  | @next batches l data h hparent hqc ih =>
    rw [List.length_append, List.length_singleton, ← Nat.add_assoc]
    exact .next ⟨data, rfl, by rw [hparent]; rfl⟩ ih

omit [DecidableEq Hash] in
/-- The block with the commands of one batch. -/
theorem Proposed.block {n i : ℕ} {cmds : List Hash} (h : Proposed config p q batches l)
    (hp : config.Depth p n) (hi : batches[i]? = some cmds) :
    ∃ above x below, l = above ++ x :: below ∧ above.length + i + 1 = batches.length ∧
      (∃ data, config.get_hash data = x ∧ data.cmds = cmds) ∧ config.Depth x (n + i + 1) := by
  induction h with
  | none => simp at hi
  | @next batches l data h hparent hqc ih =>
    by_cases hlt : i < batches.length
    · rw [List.getElem?_append_left hlt] at hi
      obtain ⟨above, x, below, rfl, hlen, hdata, hdepth⟩ := ih hi
      refine ⟨config.get_hash data :: above, x, below, rfl, ?_, hdata, hdepth⟩
      simp only [List.length_cons, List.length_append, List.length_nil]
      omega
    · rw [List.getElem?_append_right (by omega)] at hi
      obtain ⟨hzero, hcmds⟩ : i = batches.length ∧ data.cmds = cmds := by
        cases hsub : i - batches.length with
        | zero =>
          rw [hsub] at hi
          exact ⟨by omega, by simpa using hi⟩
        | succ k => simp [hsub] at hi
      refine ⟨[], config.get_hash data, l, rfl, by simp [hzero], ⟨data, rfl, hcmds⟩, ?_⟩
      rw [hzero]
      exact .next ⟨data, rfl, by rw [hparent]; rfl⟩ (h.depth hp)

variable {r : ReplicaID} {votes : List (ReplicaID × Hash)} {s : HotStuffCore Hash Sig}

/-- Blocks in a row, each certified in the next one, make the lowest of them the head. -/
theorem committable_of_links (hc : config.CollisionFree) (h : NodeOk config correct r votes s)
    {x u : Hash} {l : List Hash} (hx : s.delivered x = true)
    (hl : List.IsChain (fun a b => config.Parent a b ∧ config.QcOf a b) (x :: l))
    (hu : (x :: l)[lag config]? = some u) : s.committable config x = some u := by
  have hlink : ∀ {a b : Hash} {l : List Hash}, s.delivered a = true →
      List.IsChain (fun a b => config.Parent a b ∧ config.QcOf a b) (a :: b :: l) →
      s.qc_ref a = some b ∧ s.direct_ref a = some b ∧ s.delivered b = true ∧
        List.IsChain (fun a b => config.Parent a b ∧ config.QcOf a b) (b :: l) := by
    intro a b l ha hab
    obtain ⟨⟨hp, hq⟩, hrest⟩ := List.isChain_cons_cons.mp hab
    obtain ⟨href, hb, -⟩ := h.blocks.child hc ha hq hp
    exact ⟨href, HotStuffCore.direct_ref_eq_some.mpr
      ⟨href, h.blocks.parents_of_parent hc ha hp⟩, hb, hrest⟩
  unfold HotStuffCore.committable
  unfold lag at hu
  match l, hl, hu with
  | [], _, hu => split at hu <;> simp at hu
  | [y], _, hu => split at hu <;> simp at hu
  | y :: z :: l, hl, hu =>
    obtain ⟨hxy, -, hy, hl⟩ := hlink hx hl
    obtain ⟨-, hyz, hz, hl⟩ := hlink hy hl
    rw [hxy, Option.bind_some]
    split at hu
    · rename_i htwo
      rw [if_pos htwo, hyz]
      simpa using hu
    · rename_i hthree
      rw [if_neg hthree, hyz, Option.bind_some]
      cases l with
      | nil => simp at hu
      | cons v l =>
        rw [(hlink hz hl).2.1]
        simpa using hu

omit [DecidableEq Hash] in
theorem decided_below (hc : config.CollisionFree) (h : NodeOk config correct r votes s) {u : Hash}
    {l : List Hash} (hl : List.IsChain config.Parent (u :: l)) (hu : s.decision u = true) :
    ∀ y ∈ u :: l, s.decision y = true := by
  induction l generalizing u with
  | nil => simpa using hu
  | cons v l ih =>
    obtain ⟨hp, hrest⟩ := List.isChain_cons_cons.mp hl
    have hud : s.delivered u = true := by
      rcases (h.log.decided u).mp hu with heq | hmem
      · exact heq ▸ h.blocks.b0_delivered
      · exact h.log.delivered u hmem
    have hv := h.log.decided_parent h.blocks.grounded hu (h.blocks.parents_of_parent hc hud hp)
    intro y hy
    rcases List.mem_cons.mp hy with rfl | hy
    · exact hu
    · exact ih hrest hv y hy

end Decided

omit [DecidableEq Hash] in
/-- The replica has handed out the commands of a decided block. -/
theorem decisions_of_decided {r : ReplicaID} {votes : List (ReplicaID × Hash)}
    {s : HotStuffCore Hash Sig} (hc : config.CollisionFree) (hcmds : config.SameCommands)
    (h : NodeOk config correct r votes s) {data : BlockData Hash Sig} {n : ℕ}
    (hdec : s.decision (config.get_hash data) = true)
    (hn : config.Depth (config.get_hash data) (n + 1)) :
    ∀ cmd ∈ data.cmds, ∃ d ∈ s.decisions, d.cmd_hash = cmd ∧ d.cmd_height = n + 1 := by
  have hne : config.get_hash data ≠ config.b0 := by
    intro heq
    rw [heq] at hn
    have := hc.depth_unique hn .genesis
    omega
  have hmem := ((h.log.decided _).mp hdec).resolve_left hne
  have hd := h.log.delivered _ hmem
  obtain ⟨b, hb, -⟩ := HotStuffCore.exists_of_delivered hd
  have hbcmds : b.cmds = data.cmds :=
    hcmds b.toBlockData data (h.blocks.law _ b hne hb).hash
  have hheight : s.height (config.get_hash data) = n + 1 :=
    hc.depth_unique (h.blocks.depth_of_delivered hd) hn
  intro cmd hcmd
  obtain ⟨i, hi⟩ := List.mem_iff_getElem?.mp (hbcmds ▸ hcmd)
  refine ⟨⟨1, i, n + 1, cmd, config.get_hash data⟩, ?_, rfl, rfl⟩
  rw [h.log.decisions, List.mem_flatMap]
  refine ⟨_, hmem, ?_⟩
  unfold HotStuffCore.block_decisions
  rw [hb, hheight]
  exact List.mem_map.mpr ⟨(cmd, i), by simpa [List.mem_zipIdx_iff_getElem?] using hi, rfl⟩

/-- From any world that can be reached, a leader whose highest certificate is as high as the locks
of a quorum, and on whose highest block no one of the quorum has gone on, commits its blocks at all
of the quorum, but for the last ones, by the messages of the quorum alone. -/
theorem a_leader_as_high_as_the_locks_commits_its_blocks {N : ℕ} {p : Hash}
    (hc : config.CollisionFree) (hcmds : config.SameCommands) (hsame : config.SameCertificates)
    (hsig : config.Signs) (hi : config.Intersecting correct) (hQ : config.Quorum Q)
    (hcor : ∀ r ∈ Q, correct r) (hl : leader ∈ Q) (hN : N + 1 < 2 ^ 32)
    (hw : Run config correct (Extending config) w) (h : Leading config correct Q leader N p w)
    (batches : List (List Hash)) (hlow : config.depth p + batches.length ≤ N) :
    ∃ w', Later config correct Q leader w w' ∧ ∀ r ∈ Q, ∀ i cmds, batches[i]? = some cmds →
      i + lag config < batches.length → ∀ cmd ∈ cmds, ∃ d ∈ (w'.core r).decisions,
        d.cmd_hash = cmd ∧ d.cmd_height = config.depth p + i + 1 := by
  obtain ⟨w', l, hl', hprop, hlead, -, -, hdec⟩ :=
    h.rounds hc hi hsame hsig hN hQ hcor hl hw batches hlow
  have hok : Ok hc hi w := hw.keeps_ok
  have hok' : Ok hc hi w' := (hw.later hl').keeps_ok
  have hp := (hok.node leader (hcor leader hl)).blocks.depth_of_delivered
    (h.awaits leader hl).delivered
  rw [← hc.depth_eq hp] at hp
  refine ⟨w', hl', fun r hr i cmds hcmds' hlt => ?_⟩
  have hn := hok'.node r (hcor r hr)
  obtain ⟨above, x, below, hsplit, hlen, ⟨data, rfl, rfl⟩, hdepth⟩ := hprop.block hp hcmds'
  -- the block that many rounds below the newest one is the head, and `x` is not above it
  have hdrop : l.drop (lag config) =
      above.drop (lag config) ++ config.get_hash data :: below := by
    rw [hsplit, List.drop_append_of_le_length (by omega)]
  obtain ⟨u, rest, hu⟩ : ∃ u rest, l.drop (lag config) = u :: rest :=
    List.exists_cons_of_ne_nil (by simp [hdrop])
  obtain ⟨x0, l0, rfl⟩ : ∃ x0 l0, l = x0 :: l0 :=
    List.exists_cons_of_ne_nil (by simp [hsplit])
  have hhead : (x0 :: l0)[lag config]? = some u := by
    rw [← List.head?_drop, hu]
    rfl
  have hud := hdec x0 rfl r hr u
    (committable_of_links hc hn (hlead.awaits r hr).delivered hprop.links hhead)
  have hchain : List.IsChain config.Parent (u :: rest) := by
    rw [← hu]
    exact (hprop.links.drop _).imp fun _ _ hab => hab.1
  refine decisions_of_decided hc hcmds hn (decided_below hc hn hchain hud _ ?_) hdepth
  rw [← hu, hdrop]
  simp

/-- After `start` every replica can lead, with blocks on genesis. -/
theorem leading_start (hc : config.CollisionFree) (hscheme : config.scheme = .secp256k1)
    (Q : Finset ReplicaID) (leader : ReplicaID) (N : ℕ) :
    Leading config correct Q leader N config.b0 (start config) := by
  have hdelivered : ∀ r x, ((start config).core r).delivered x = true → x = config.b0 := by
    intro r x hx
    by_contra hne
    simp [start, HotStuffCore.on_init, HotStuffCore.delivered, hne] at hx
  have hdepth : config.depth config.b0 = 0 := hc.depth_eq .genesis
  refine ⟨fun r _ => ⟨?_, Nat.zero_le _, rfl, le_rfl, fun y hy => ?_⟩, fun x hx => ?_, .refl,
    ⟨?_, ?_, .inl rfl⟩⟩
  · exact (HotStuffCore.on_init_blocksOk config r).b0_delivered
  · rw [hdelivered r y hy, hdepth]
    exact Nat.zero_le N
  · rw [hdelivered leader x hx]
  · simp [start, HotStuffCore.on_init, QuorumCert.Parsed, QuorumCert.signers,
      QuorumCert.create_quorum_cert]
  · simp [start, HotStuffCore.on_init, Unforged, hscheme, QuorumCert.create_quorum_cert]

/-- A block by number, its certificate included. -/
def signed_code (data : BlockData ℕ (ReplicaID × ℕ)) : ℕ :=
  Encodable.encode (data.parent_hashes, data.qc.obj_hash, data.cmds, data.qc.rids, data.qc.sigs)

/-- The four replicas with a hash over the whole certificate. -/
def signed_replicas (two_step : Bool) : Config ℕ (ReplicaID × ℕ) :=
  { coded_replicas two_step with get_hash := signed_code }

theorem signed_code_injective {data data' : BlockData ℕ (ReplicaID × ℕ)}
    (h : signed_code data = signed_code data') :
    data.parent_hashes = data'.parent_hashes ∧ data.qc.obj_hash = data'.qc.obj_hash ∧
      data.cmds = data'.cmds ∧ data.qc.rids = data'.qc.rids ∧ data.qc.sigs = data'.qc.sigs := by
  have heq := Encodable.encode_injective h
  simpa only [Prod.mk.injEq] using heq

theorem signed_collisionFree (two_step : Bool) : (signed_replicas two_step).CollisionFree where
  content data data' h :=
    ⟨(signed_code_injective h).1, (signed_code_injective h).2.1⟩
  genesis data h := by
    have hzero : Encodable.encode (([] : List ℕ), 0, ([] : List ℕ), ([] : List Bool),
        ([] : List (ReplicaID × ReplicaID × ℕ))) = 0 := by
      simp only [Encodable.encode_prod_val, Encodable.encode_list_nil]
      rfl
    have heq := Encodable.encode_injective (h.trans hzero.symm)
    rw [Prod.mk.injEq] at heq
    exact heq.1

/-- Replica 0 leads with five blocks in a row, and the three correct replicas commit the first two
of them. -/
theorem five_blocks_of_replica_0_commit_the_first_two :
    ∃ w', Later (signed_replicas false) (· < 3) {0, 1, 2} 0 (start (signed_replicas false)) w' ∧
      ∀ r ∈ ({0, 1, 2} : Finset ReplicaID), ∀ i cmds,
        [[11], [12], [13], [14], [15]][i]? = some cmds →
        i + lag (signed_replicas false) < [[11], [12], [13], [14], [15]].length →
        ∀ cmd ∈ cmds, ∃ d ∈ (w'.core r).decisions, d.cmd_hash = cmd ∧
          d.cmd_height = (signed_replicas false).depth (signed_replicas false).b0 + i + 1 := by
  have hc := signed_collisionFree false
  have hi : (signed_replicas false).Intersecting (· < 3) := coded_intersecting false
  have hcmds : (signed_replicas false).SameCommands := fun _ _ h =>
    (signed_code_injective h).2.2.1
  have hverify : ∀ (qc qc' : QuorumCert ℕ (ReplicaID × ℕ)) i bits, qc.obj_hash = qc'.obj_hash →
      qc.sigs = qc'.sigs → qc.verifyBits (signed_replicas false) i bits =
        qc'.verifyBits (signed_replicas false) i bits := by
    intro qc qc' i bits hobj hsigs
    induction bits generalizing i with
    | nil => rfl
    | cons bit bits ih => cases bit <;> simp [QuorumCert.verifyBits, ih, hobj, hsigs]
  have hsame : (signed_replicas false).SameCertificates := by
    intro data data' h
    obtain ⟨-, hobj, -, hrids, hsigs⟩ := signed_code_injective h
    simp only [QuorumCert.verify, QuorumCert.signers, hrids, hsigs,
      hverify data.qc data'.qc 0 data'.qc.rids hobj hsigs]
    rfl
  have hsig : (signed_replicas false).Signs :=
    ⟨fun i _ h => by simp [signed_replicas, coded_replicas],
      fun hbls => by simp [signed_replicas, coded_replicas] at hbls⟩
  have hQ : (signed_replicas false).Quorum {0, 1, 2} := ⟨by decide, by decide⟩
  have hdepth : (signed_replicas false).depth (signed_replicas false).b0 = 0 :=
    hc.depth_eq .genesis
  exact a_leader_as_high_as_the_locks_commits_its_blocks hc hcmds hsame hsig hi hQ (by decide)
    (by decide) (by decide : 10 + 1 < 2 ^ 32) .start
    (leading_start hc rfl {0, 1, 2} 0 10) [[11], [12], [13], [14], [15]] (by simp [hdepth])

end World

end general_hotstuff
