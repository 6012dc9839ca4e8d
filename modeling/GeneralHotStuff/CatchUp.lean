-- A replica that has fallen behind gets the proposals that it has missed in some order.
-- `update` returns early on decided blocks, and yet the highest certificate, the lock and
-- the committed chain depend only on which proposals there were.
import GeneralHotStuff.LongChains
import GeneralHotStuff.Transitions

namespace general_hotstuff

open quorums (ReplicaID)

variable {Hash Sig : Type}

namespace HotStuffCore

/-! ## Catching up -/

/-- One proposal of another replica for each block but genesis. -/
structure Covers (config : Config Hash Sig) (s : HotStuffCore Hash Sig) (B : Finset Hash)
    (props : List (Proposal Hash)) : Prop where
  received : ∀ prop ∈ props, prop.proposer ≠ s.id
  nodup : (props.map (·.blk)).Nodup
  blocks : ∀ x, x ∈ props.map (·.blk) ↔ x ∈ B ∧ x ≠ config.b0

/-- The proposals one after the other, up to the first call that throws. -/
def receive_all [DecidableEq Hash] (config : Config Hash Sig) :
    List (Proposal Hash) → HotStuffCore Hash Sig → Outcome (HotStuffCore Hash Sig)
  | [], s => .ok s
  | prop :: props, s => (s.on_receive_proposal config prop).andThen (receive_all config props)

/-- Genesis, or the certificate of a block in `D` is on `q`. -/
def Named (config : Config Hash Sig) (s : HotStuffCore Hash Sig) (D : Hash → Prop) (q : Hash) :
    Prop :=
  q = config.b0 ∨ ∃ x, D x ∧ s.qc_ref x = some q

/-- The same for the certificate of the certified block. -/
def NamedTwice (config : Config Hash Sig) (s : HotStuffCore Hash Sig) (D : Hash → Prop)
    (q : Hash) : Prop :=
  q = config.b0 ∨ ∃ x y, D x ∧ s.qc_ref x = some y ∧ s.qc_ref y = some q

/-- Genesis, or a block in `D` makes `c` committable. -/
def Ripe (config : Config Hash Sig) (s : HotStuffCore Hash Sig) (D : Hash → Prop) (c : Hash) :
    Prop :=
  c = config.b0 ∨ ∃ x, D x ∧ s.Committable x c

/-- The replica after the proposals of `D`: each variable is on the highest block that it could be
on, and the heights of the three are in order. Every decided block is on the chain of `b_exec`, so
that it is no higher than the lock and the highest certificate. -/
structure CaughtUp (config : Config Hash Sig) (B : Finset Hash) (D : Hash → Prop)
    (s : HotStuffCore Hash Sig) : Prop where
  missed : Missed config s B
  log : LogOk config s
  done : ∀ x, D x → x ∈ B
  hqc : MaximalFor (Named config s D) s.height s.hqc.1
  lock : MaximalFor (NamedTwice config s D) s.height s.b_lock
  exec : MaximalFor (Ripe config s D) s.height s.b_exec
  exec_le : s.height s.b_exec ≤ s.height s.b_lock
  lock_le : s.height s.b_lock ≤ s.height s.hqc.1

section CatchingUp

variable {config : Config Hash Sig} {s s' : HotStuffCore Hash Sig} {B : Finset Hash}
  {D : Hash → Prop}

theorem Ripe.mem (h : Missed config s B) (hD : ∀ x, D x → x ∈ B) (hb0 : config.b0 ∈ B) {c : Hash}
    (hc : Ripe config s D c) : c ∈ B := by
  rcases hc with rfl | ⟨x, hx, blk2, blk1, h2, h1, hblk, -⟩
  · exact hb0
  · have hB := h.consistent.refs
    exact hB _ (hB _ (hB _ (hD x hx) _ h2) _ h1) _ hblk

theorem CaughtUp.exec_mem (h : CaughtUp config B D s) (hb0 : config.b0 ∈ B) : s.b_exec ∈ B :=
  h.exec.1.mem h.missed h.done hb0

/-- A decided block is no higher than the last committed one. -/
theorem CaughtUp.decided_le (h : CaughtUp config B D s) (hb0 : config.b0 ∈ B) {x : Hash}
    (hx : s.decision x = true) : s.height x ≤ s.height s.b_exec :=
  (h.missed.falling.above_le (h.exec_mem hb0) (h.log.above_of_decided hx)).2

/-- The early return on a decided block skips no update of the highest certificate. -/
theorem CaughtUp.touched_hqc (h : CaughtUp config B D s) {nblk : Hash} (hx : nblk ∈ B)
    (b : Block Hash Sig) {q : Hash} (hq : s.qc_ref nblk = some q) :
    (s.touched config nblk b).hqc.1 =
      if s.height s.hqc.1 < s.height q then q else s.hqc.1 := by
  cases hdec : s.decision q with
  | true =>
    have hnone : s.undecided_ref nblk = none := by
      rw [undecided_ref, hq, Option.filter_some, if_neg (by simp [hdec])]
    have hle := h.decided_le (h.missed.b0_mem hx) hdec
    rw [if_neg (Nat.not_lt_of_le ((hle.trans h.exec_le).trans h.lock_le))]
    simp [touched, hnone]
  | false =>
    have href : s.undecided_ref nblk = some q := undecided_ref_eq_some.mpr ⟨hq, hdec⟩
    by_cases hlt : s.height s.hqc.1 < s.height q
    · simp [touched, href, update_hqc, hlt]
    · simp [touched, href, update_hqc, hlt]

/-- Neither of the two early returns skips an update of the lock. -/
theorem CaughtUp.touched_lock (htwo : config.two_step = false) (h : CaughtUp config B D s)
    {nblk : Hash} (hx : nblk ∈ B) (b : Block Hash Sig) {q q2 : Hash}
    (hq : s.qc_ref nblk = some q) (hq2 : s.qc_ref q = some q2) (hle : s.height q2 ≤ s.height q) :
    (s.touched config nblk b).b_lock =
      if s.height s.b_lock < s.height q2 then q2 else s.b_lock := by
  have hlock : s.lock_ref config nblk = (s.undecided_ref nblk).bind s.undecided_ref := by
    rw [lock_ref, htwo, if_neg Bool.false_ne_true]
  by_cases hdec : s.decision q = false ∧ s.decision q2 = false
  · have href : s.lock_ref config nblk = some q2 := by
      rw [hlock, undecided_ref_eq_some.mpr ⟨hq, hdec.1⟩]
      exact undecided_ref_eq_some.mpr ⟨hq2, hdec.2⟩
    by_cases hlt : s.height s.b_lock < s.height q2
    · simp [touched, href, raise_lock, hlt]
    · simp [touched, href, raise_lock, hlt]
  · have hnone : s.lock_ref config nblk = none := by
      rw [hlock, Option.bind_eq_none_iff]
      intro y hy
      obtain ⟨hy, hyd⟩ := undecided_ref_eq_some.mp hy
      obtain rfl := Option.some.inj (hq.symm.trans hy)
      rw [undecided_ref, hq2, Option.filter_some, if_neg]
      intro hund
      exact hdec ⟨hyd, by simpa using hund⟩
    have hexec : ∀ {x}, s.decision x = true → s.height x ≤ s.height s.b_lock := fun hx' =>
      (h.decided_le (h.missed.b0_mem hx) hx').trans h.exec_le
    have hq2le : s.height q2 ≤ s.height s.b_lock := by
      rcases not_and_or.mp hdec with hdec | hdec
      · exact hle.trans (hexec (Bool.eq_true_of_not_eq_false hdec))
      · exact hexec (Bool.eq_true_of_not_eq_false hdec)
    rw [if_neg (Nat.not_lt_of_le hq2le)]
    simp [touched, hnone]

/-- The proposal of a block whose certificate is on `q`, and that of `q` on `q2`. -/
theorem CaughtUp.named (h : CaughtUp config B D s) {nblk q q2 : Hash}
    (hq : s.qc_ref nblk = some q) (hq2 : s.qc_ref q = some q2) :
    MaximalFor (Named config s fun x => D x ∨ x = nblk) s.height
        (if s.height s.hqc.1 < s.height q then q else s.hqc.1) ∧
      MaximalFor (NamedTwice config s fun x => D x ∨ x = nblk) s.height
        (if s.height s.b_lock < s.height q2 then q2 else s.b_lock) := by
  constructor
  · refine transitions.maximalFor_raise h.hqc ?_ (.inr ⟨nblk, .inr rfl, hq⟩) ?_
    · rintro z (rfl | ⟨x, hxD, hxq⟩)
      · exact .inl rfl
      · exact .inr ⟨x, .inl hxD, hxq⟩
    · rintro z (rfl | ⟨x, hxD | rfl, hxq⟩)
      · exact .inl (.inl rfl)
      · exact .inl (.inr ⟨x, hxD, hxq⟩)
      · exact .inr (Option.some.inj (hxq.symm.trans hq))
  · refine transitions.maximalFor_raise h.lock ?_ (.inr ⟨nblk, q, .inr rfl, hq, hq2⟩) ?_
    · rintro z (rfl | ⟨x, y, hxD, hxy⟩)
      · exact .inl rfl
      · exact .inr ⟨x, y, .inl hxD, hxy⟩
    · rintro z (rfl | ⟨x, y, hxD | rfl, hxy, hyz⟩)
      · exact .inl (.inl rfl)
      · exact .inl (.inr ⟨x, y, hxD, hxy, hyz⟩)
      · obtain rfl := Option.some.inj (hxy.symm.trans hq)
        exact .inr (Option.some.inj (hyz.symm.trans hq2))

theorem Committable.unique {x c c' : Hash} (h : s.Committable x c) (h' : s.Committable x c') :
    c = c' := by
  obtain ⟨blk2, blk1, h2, h1, hc, -⟩ := h
  obtain ⟨blk2', blk1', h2', h1', hc', -⟩ := h'
  obtain rfl := Option.some.inj (h2.symm.trans h2')
  obtain rfl := Option.some.inj (h1.symm.trans h1')
  exact Option.some.inj (hc.symm.trans hc')

theorem Missed.committable_heights (h : Missed config s B) {x c : Hash} (hx : x ∈ B)
    (hc : s.Committable x c) : ∃ blk2 blk1, blk2 ∈ B ∧ blk1 ∈ B ∧ c ∈ B ∧
      s.qc_ref x = some blk2 ∧ s.qc_ref blk2 = some blk1 ∧ s.height blk2 = s.height blk1 + 1 ∧
      s.height blk1 = s.height c + 1 := by
  obtain ⟨blk2, blk1, h2, h1, -, hp2, hp1⟩ := hc
  have hB2 := h.consistent.refs x hx _ h2
  obtain ⟨hB1, hheight2⟩ := h.parent_of hB2 hp2
  obtain ⟨hBc, hheight1⟩ := h.parent_of hB1 hp1
  exact ⟨blk2, blk1, hB2, hB1, hBc, h2, h1, hheight2, hheight1⟩

/-- What `update` commits is committable, and what it leaves because a block is decided is no
higher than the last committed block. -/
theorem CaughtUp.commits_iff (htwo : config.two_step = false) (h : CaughtUp config B D s)
    {nblk c : Hash} (hx : nblk ∈ B) (hc : s.Committable nblk c) :
    s.decision c = false ∧ (∃ blk1, Commits config s nblk blk1 c) ∨
      s.height c ≤ s.height s.b_exec := by
  obtain ⟨blk2, blk1, -, -, -, h2, h1, hheight2, hheight1⟩ := h.missed.committable_heights hx hc
  obtain ⟨blk2', blk1', h2', h1', hblk, hp2, hp1⟩ := hc
  obtain rfl := Option.some.inj (h2.symm.trans h2')
  obtain rfl := Option.some.inj (h1.symm.trans h1')
  have hle : ∀ {x}, s.decision x = true → s.height c ≤ s.height x →
      s.height c ≤ s.height s.b_exec := fun hdec hle =>
    hle.trans (h.decided_le (h.missed.b0_mem hx) hdec)
  cases hd2 : s.decision blk2 with
  | true => exact .inr (hle hd2 (by omega))
  | false =>
    cases hd1 : s.decision blk1 with
    | true => exact .inr (hle hd1 (by omega))
    | false =>
      cases hdc : s.decision c with
      | true => exact .inr (hle hdc le_rfl)
      | false =>
        have href2 := undecided_ref_eq_some.mpr ⟨h2, hd2⟩
        have href1 := undecided_ref_eq_some.mpr ⟨h1, hd1⟩
        have hlock : s.lock_ref config nblk = some blk1 := by
          rw [lock_ref, htwo, if_neg Bool.false_ne_true, href2, Option.bind_some, href1]
        exact .inl ⟨rfl, blk1, hlock, undecided_ref_eq_some.mpr ⟨hblk, hdc⟩, hp1,
          fun _ => ⟨blk2, href2, href1, hp2⟩⟩

theorem committable_of_commits (htwo : config.two_step = false) {nblk blk1 c : Hash}
    (h : Commits config s nblk blk1 c) : s.Committable nblk c ∧ s.decision c = false := by
  obtain ⟨blk2, h2, h1, hp2⟩ := h.three_step htwo
  obtain ⟨hc, hdc⟩ := undecided_ref_eq_some.mp h.undecided_ref
  exact ⟨⟨blk2, blk1, (undecided_ref_eq_some.mp h2).1, (undecided_ref_eq_some.mp h1).1, hc, hp2,
    h.parent⟩, hdc⟩

/-- A block that is about to be committed is on top of `b_exec`. -/
theorem CaughtUp.above_exec (h : CaughtUp config B D s) {nblk c : Hash} (hx : nblk ∈ B)
    (hc : s.Committable nblk c) (hdc : s.decision c = false) : s.above c s.b_exec := by
  obtain ⟨-, -, -, -, hcB, -⟩ := h.missed.committable_heights hx hc
  rcases h.exec.1 with heq | ⟨x, hxD, hxc⟩
  · rw [heq]
    exact h.missed.above_b0 hcB
  · rcases h.missed.consistent.agree nblk hx x (h.done x hxD) _ _ hc hxc with hce | hec
    · exact hce
    · have hdec := h.log.decided_of_above h.missed.links.grounded hec
      rw [hdc] at hdec
      cases hdec

theorem Missed.not_orphaned (h : Missed config s B) (hlog : LogOk config s) : ¬ s.Orphaned := by
  rintro ⟨x, hdec, hpar, hq⟩
  have hne : x ≠ config.b0 := by
    intro heq
    rw [heq, (hlog.decided _).mpr (.inl rfl)] at hdec
    cases hdec
  obtain ⟨b, p, -, -, -, hp, -⟩ := h.links.joined hne (h.refs x hq)
  rw [hpar] at hp
  cases hp

theorem Ripe.grow {nblk z : Hash} (hz : Ripe config s D z) :
    Ripe config s (fun x => D x ∨ x = nblk) z :=
  hz.imp_right fun ⟨x, hxD, hxz⟩ => ⟨x, .inl hxD, hxz⟩

/-- One more block makes nothing ripe but what is committable for it. -/
theorem Ripe.of_grow {nblk z : Hash} (hz : Ripe config s (fun x => D x ∨ x = nblk) z) :
    Ripe config s D z ∨ s.Committable nblk z := by
  rcases hz with rfl | ⟨x, hxD | rfl, hxz⟩
  · exact .inl (.inl rfl)
  · exact .inl (.inr ⟨x, hxD, hxz⟩)
  · exact .inr hxz

/-- What is committed next is not decided, so it is higher than `b_exec`. -/
theorem CaughtUp.exec_lt (h : CaughtUp config B D s) {c : Hash} (hcB : c ∈ B)
    (habove : s.above c s.b_exec) (hdec : s.decision c = false) :
    s.height s.b_exec < s.height c := by
  by_contra hge
  have heq := h.missed.eq_of_above hcB habove (Nat.le_of_not_lt hge)
  have hexec := h.log.decided_of_above h.missed.links.grounded .refl
  rw [← heq, hdec] at hexec
  cases hexec

theorem SameShape.candidates (hsh : SameShape s s') : Named config s' D = Named config s D ∧
    NamedTwice config s' D = NamedTwice config s D ∧ Ripe config s' D = Ripe config s D := by
  obtain ⟨-, hpar, href, -⟩ := hsh.reads
  refine ⟨?_, ?_, ?_⟩
  · funext q
    rw [Named, Named, href]
  · funext q
    rw [NamedTwice, NamedTwice, href]
  · funext c
    simp only [Ripe, Committable, href, hpar]

/-- A later state of the same blocks. -/
theorem CaughtUp.of_sameShape (hmissed : Missed config s B) (hsh : SameShape s s')
    (hlog : LogOk config s') (hdone : ∀ x, D x → x ∈ B)
    (hqc : MaximalFor (Named config s D) s.height s'.hqc.1)
    (hlock : MaximalFor (NamedTwice config s D) s.height s'.b_lock)
    (hexec : MaximalFor (Ripe config s D) s.height s'.b_exec)
    (hexec_le : s.height s'.b_exec ≤ s.height s'.b_lock)
    (hlock_le : s.height s'.b_lock ≤ s.height s'.hqc.1) : CaughtUp config B D s' := by
  have hheight := hsh.reads.1
  obtain ⟨hnamed, htwice, hripe⟩ := hsh.candidates
  refine ⟨hmissed.of_sameShape hsh, hlog, hdone, ?_, ?_, ?_, ?_, ?_⟩
  · rw [hnamed, hheight]
    exact hqc
  · rw [htwice, hheight]
    exact hlock
  · rw [hripe, hheight]
    exact hexec
  · rw [hheight]
    exact hexec_le
  · rw [hheight]
    exact hlock_le

variable [DecidableEq Hash]

theorem Missed.commit_ok (h : Missed config s B) (hlog : LogOk config s) {blk : Hash}
    (hblk : blk ∈ B) (habove : s.above blk s.b_exec) :
    ∃ s', s.commit blk = .ok s' ∧ LogOk config s' ∧ SameShape s s' ∧
      ∃ storage out, s' = { s with b_exec := blk, storage := storage, out := out } := by
  obtain ⟨⟨passed, last⟩, hw⟩ := Option.isSome_iff_exists.mp
    (h.walk_isSome (s.height s.b_exec) hblk (Nat.lt_succ_self (s.height blk)))
  obtain rfl := h.falling.walk_ends hblk habove hw
  have hcommit : s.commit blk = .ok { passed.reverse.foldl commit_one s with b_exec := blk } := by
    simp [commit, hw]
  have hdone := hlog.commit h.links.grounded (h.consistent.delivered blk hblk) _
    (congrArg Outcome.state? hcommit)
  obtain ⟨storage, out, hframe⟩ := commit_all_frame s passed.reverse
  refine ⟨_, hcommit, hdone, ?_, storage, out, by rw [hframe]⟩
  exact (commit_all_sameShape s passed.reverse).trans (.of_storage_eq rfl)

theorem CaughtUp.update (htwo : config.two_step = false) (h : CaughtUp config B D s)
    {nblk : Hash} (hx : nblk ∈ B) (hne : nblk ≠ config.b0) :
    ∃ s', s.update config nblk = .ok s' ∧ SameShape s s' ∧ s'.id = s.id ∧
      CaughtUp config B (fun x => D x ∨ x = nblk) s' := by
  obtain ⟨b, hb, -⟩ := exists_of_delivered (h.missed.consistent.delivered nblk hx)
  obtain ⟨q, hq, hqB, -⟩ := h.missed.ref hx hne
  obtain ⟨q2, hq2, -, hle⟩ := h.missed.ref_le hqB
  obtain ⟨hnamed, htwice⟩ := h.named hq hq2
  have hlock := h.touched_lock htwo hx b hq hq2 hle
  rw [← h.touched_hqc hx b hq] at hnamed
  have hlock_le : s.height (s.touched config nblk b).b_lock ≤
      s.height (s.touched config nblk b).hqc.1 := by
    rw [hlock]
    split
    · exact hle.trans (transitions.le_of_maximalFor hnamed (.inr ⟨nblk, .inr rfl, hq⟩))
    · refine h.lock_le.trans (transitions.le_of_maximalFor hnamed ?_)
      exact h.hqc.1.imp_right fun ⟨x, hxD, hxq⟩ => ⟨x, .inl hxD, hxq⟩
  rw [← hlock] at htwice
  have hexec_le := h.exec_le.trans (s.b_lock_le_touched config nblk b)
  have hdone : ∀ x, D x ∨ x = nblk → x ∈ B := fun x hxD => hxD.elim (h.done x) fun heq => heq ▸ hx
  have hshape : SameShape s (s.touched config nblk b) := .of_storage_eq rfl
  have hlog : LogOk config (s.touched config nblk b) := h.log.quiet h.missed.links.grounded
    (.of_storage_eq rfl rfl rfl ⟨[], by simp [touched], by simp⟩)
  by_cases hcommits : ∃ blk1 c, Commits config s nblk blk1 c
  · obtain ⟨blk1, c, hcommits⟩ := hcommits
    obtain ⟨hc, hdc⟩ := committable_of_commits htwo hcommits
    have habove := h.above_exec hx hc hdc
    obtain ⟨_, y, -, -, hcB, hy2, hy, -, hheight⟩ := h.missed.committable_heights hx hc
    have hclock : s.height c ≤ s.height (s.touched config nblk b).b_lock := by
      have := transitions.le_of_maximalFor htwice (.inr ⟨nblk, _, .inr rfl, hy2, hy⟩)
      omega
    have hbest := transitions.maximalFor_raise h.exec (fun _ hz => hz.grow)
      (.inr ⟨nblk, .inr rfl, hc⟩) fun z hz => hz.of_grow.imp_right fun hz => hz.unique hc
    rw [if_pos (h.exec_lt hcB habove hdc)] at hbest
    obtain ⟨s', hs', hlog', hsh, storage, out, rfl⟩ :=
      (h.missed.of_sameShape hshape).commit_ok hlog hcB habove
    exact ⟨_, (update_of_commits hb hcommits).trans hs', hshape.trans hsh, rfl,
      .of_sameShape h.missed (hshape.trans hsh) hlog' hdone hnamed htwice hbest hclock hlock_le⟩
  · refine ⟨s.touched config nblk b, ?_, hshape, rfl,
      .of_sameShape h.missed hshape hlog hdone hnamed htwice ?_ hexec_le hlock_le⟩
    · rcases update_cases config hb with hu | ⟨horph, -⟩ | ⟨blk1, c, hcom, -⟩
      · exact hu
      · exact absurd horph (h.missed.not_orphaned h.log)
      · exact absurd ⟨blk1, c, hcom⟩ hcommits
    · refine transitions.maximalFor_stays h.exec h.exec.1.grow fun z hz =>
        hz.of_grow.imp_right fun hz => ?_
      rcases h.commits_iff htwo hx hz with ⟨-, blk1, hcom⟩ | hle
      · exact absurd ⟨blk1, z, hcom⟩ hcommits
      · exact hle

theorem Missed.opinion_isSome (h : Missed config s B) {x : Hash} (hx : x ∈ B) :
    (s.opinion x).isSome := by
  unfold opinion
  split
  · rfl
  · split
    · rfl
    · rw [Option.isSome_map]
      exact h.walk_isSome (s.height s.b_lock) hx (Nat.lt_succ_self (s.height x))

/-- The vote leaves the three variables alone. -/
theorem CaughtUp.vote_on (h : CaughtUp config B D s) {prop : Proposal Hash}
    (hx : prop.blk ∈ B) : ∃ s', s.vote_on config prop = .ok s' ∧ SameShape s s' ∧ s'.id = s.id ∧
      CaughtUp config B D s' := by
  have hopinion := h.missed.opinion_isSome hx
  have hshape := vote_on_sameShape config s prop
  have hquiet := vote_on_quiet config s prop
  rcases vote_on_cases config prop s with ⟨ho, -⟩ | hv | ⟨-, hv⟩
  · rw [ho] at hopinion
    cases hopinion
  · exact ⟨s, hv, .refl s, rfl, h⟩
  · have hs' := congrArg Outcome.state? hv
    exact ⟨_, hv, hshape _ hs', rfl, .of_sameShape h.missed (hshape _ hs')
      (h.log.quiet h.missed.links.grounded (hquiet _ hs')) h.done h.hqc h.lock h.exec h.exec_le
      h.lock_le⟩

theorem CaughtUp.on_receive_proposal (htwo : config.two_step = false)
    (h : CaughtUp config B D s) {prop : Proposal Hash} (hid : prop.proposer ≠ s.id)
    (hx : prop.blk ∈ B) (hne : prop.blk ≠ config.b0) :
    ∃ s', s.on_receive_proposal config prop = .ok s' ∧ SameShape s s' ∧ s'.id = s.id ∧
      CaughtUp config B (fun x => D x ∨ x = prop.blk) s' := by
  obtain ⟨s1, hs1, hsh1, hid1, h1⟩ := h.update htwo hx hne
  obtain ⟨s2, hs2, hsh2, hid2, h2⟩ := h1.vote_on hx
  refine ⟨s2, ?_, hsh1.trans hsh2, hid2.trans hid1, h2⟩
  rw [HotStuffCore.on_receive_proposal, if_neg hid,
    if_pos (h.missed.consistent.delivered _ hx), hs1]
  exact hs2

theorem CaughtUp.receive_all (htwo : config.two_step = false) {props : List (Proposal Hash)}
    (h : CaughtUp config B D s) (hprops : ∀ prop ∈ props,
      prop.proposer ≠ s.id ∧ prop.blk ∈ B ∧ prop.blk ≠ config.b0) :
    ∃ t, s.receive_all config props = .ok t ∧ SameShape s t ∧
      CaughtUp config B (fun x => D x ∨ x ∈ props.map (·.blk)) t := by
  induction props generalizing s D with
  | nil => exact ⟨s, rfl, .refl s, by simpa using h⟩
  | cons prop props ih =>
    obtain ⟨hid, hx, hne⟩ := hprops prop List.mem_cons_self
    obtain ⟨s1, hs1, hsh1, hid1, h1⟩ := h.on_receive_proposal htwo hid hx hne
    obtain ⟨t, ht, hsh, h2⟩ := ih h1 fun p hp => by
      rw [hid1]
      exact hprops p (List.mem_cons_of_mem _ hp)
    refine ⟨t, ?_, hsh1.trans hsh, ?_⟩
    · rw [HotStuffCore.receive_all, hs1]
      exact ht
    · simpa only [List.map_cons, List.mem_cons, or_assoc] using h2

end CatchingUp

/-! ## The order does not matter -/

section Order

variable {config : Config Hash Sig} {s s' : HotStuffCore Hash Sig} {B : Finset Hash}
  {D : Hash → Prop}

theorem Fresh.caughtUp (h : Fresh config s) (hB : Consistent config s B)
    (hlow : Unwrapped config s B) : CaughtUp config B (fun _ => False) s where
  missed := ⟨h.links, h.refs, hB, hlow⟩
  log := h.log
  done := fun _ hx => hx.elim
  hqc := by
    rw [h.hqc]
    refine ⟨.inl rfl, ?_⟩
    rintro z (rfl | ⟨x, hx, -⟩) -
    · exact le_rfl
    · exact hx.elim
  lock := by
    rw [h.b_lock]
    refine ⟨.inl rfl, ?_⟩
    rintro z (rfl | ⟨x, y, hx, -⟩) -
    · exact le_rfl
    · exact hx.elim
  exec := by
    rw [h.b_exec]
    refine ⟨.inl rfl, ?_⟩
    rintro z (rfl | ⟨x, hx, -⟩) -
    · exact le_rfl
    · exact hx.elim
  exec_le := by rw [h.b_exec, h.b_lock]
  lock_le := by rw [h.b_lock, h.hqc]

/-- There is one certified block of each height, genesis among them. -/
theorem Missed.refs_unique (h : Missed config s B) {q q' : Hash}
    (hq : q = config.b0 ∨ ∃ x ∈ B, s.qc_ref x = some q)
    (hq' : q' = config.b0 ∨ ∃ x ∈ B, s.qc_ref x = some q') (heq : s.height q = s.height q') :
    q = q' := by
  have hzero : ∀ {q}, (∃ x ∈ B, s.qc_ref x = some q) → s.height q = 0 → q = config.b0 := by
    rintro q ⟨x, hx, hxq⟩ hlow
    by_contra hne
    exact h.unwrapped q (h.consistent.refs x hx q hxq) hne hlow
  rcases hq with rfl | hq
  · rcases hq' with rfl | hq'
    · rfl
    · exact (hzero hq' (heq ▸ h.links.b0_height)).symm
  · rcases hq' with rfl | hq'
    · exact hzero hq (heq ▸ h.links.b0_height)
    · obtain ⟨x, hx, hxq⟩ := hq
      obtain ⟨y, hy, hyq⟩ := hq'
      exact h.consistent.heights x hx y hy q q' hxq hyq heq

theorem Missed.ripe_unique (h : Missed config s B) (hD : ∀ x, D x → x ∈ B) {c c' : Hash}
    (hc : Ripe config s D c) (hc' : Ripe config s D c') (heq : s.height c = s.height c') :
    c = c' := by
  have hmem : ∀ {x c}, D x → s.Committable x c → c ∈ B := fun hx hxc =>
    have ⟨_, _, _, _, hcB, _⟩ := h.committable_heights (hD _ hx) hxc
    hcB
  rcases hc with rfl | ⟨x, hx, hxc⟩
  · rcases hc' with rfl | ⟨y, hy, hyc⟩
    · rfl
    · exact (h.eq_of_above (hmem hy hyc) (h.above_b0 (hmem hy hyc)) heq.ge).symm
  · rcases hc' with rfl | ⟨y, hy, hyc⟩
    · exact h.eq_of_above (hmem hx hxc) (h.above_b0 (hmem hx hxc)) heq.le
    · rcases h.consistent.agree x (hD x hx) y (hD y hy) c c' hxc hyc with hcc | hcc
      · exact h.eq_of_above (hmem hx hxc) hcc heq.le
      · exact (h.eq_of_above (hmem hy hyc) hcc heq.ge).symm

/-- There is one way down from a block to genesis. -/
theorem chain_unique {b0 x : Hash} (hb0 : s.parents b0 = []) {l l' : List Hash}
    (hl : List.IsChain (fun a b => (s.parents a).head? = some b) (x :: l))
    (hlast : (x :: l).getLast? = some b0)
    (hl' : List.IsChain (fun a b => (s.parents a).head? = some b) (x :: l'))
    (hlast' : (x :: l').getLast? = some b0) : l = l' := by
  have hstop : ∀ {y m},
      ¬ List.IsChain (fun a b => (s.parents a).head? = some b) (b0 :: y :: m) := by
    intro y m hm
    have hp := (List.isChain_cons_cons.mp hm).1
    rw [hb0] at hp
    cases hp
  induction l generalizing x l' with
  | nil =>
    obtain rfl := Option.some.inj hlast
    cases l' with
    | nil => rfl
    | cons y' l' => exact absurd hl' hstop
  | cons y l ih =>
    cases l' with
    | nil =>
      obtain rfl := Option.some.inj hlast'
      exact absurd hl hstop
    | cons y' l' =>
      rw [List.isChain_cons_cons] at hl hl'
      rw [List.getLast?_cons_cons] at hlast hlast'
      obtain rfl := Option.some.inj (hl.1.symm.trans hl'.1)
      rw [ih hl.2 hlast hl'.2 hlast']

theorem LogOk.log_unique (hb0 : s.parents config.b0 = []) (hsh : SameShape s s')
    (h : LogOk config s) (h' : LogOk config s') (hexec : s'.b_exec = s.b_exec) :
    s'.log = s.log := by
  have hpar := hsh.reads.2.1
  have hturn : ∀ {t : HotStuffCore Hash Sig}, LogOk config t → t.parents = s.parents →
      t.b_exec = s.b_exec → ∃ l, (config.b0 :: t.log).reverse = s.b_exec :: l ∧
        List.IsChain (fun a b => (s.parents a).head? = some b) (s.b_exec :: l) ∧
        (s.b_exec :: l).getLast? = some config.b0 := by
    intro t ht hpar hexec
    have hhead : (config.b0 :: t.log).reverse.head? = some s.b_exec := by
      rw [List.head?_reverse, ht.last, hexec]
    obtain ⟨l, hl⟩ := List.head?_eq_some_iff.mp hhead
    have hchain := ht.chain
    rw [hpar] at hchain
    refine ⟨l, hl, ?_, ?_⟩
    · rw [← hl, List.isChain_reverse]
      exact hchain
    · rw [← hl, List.getLast?_reverse, List.head?_cons]
  obtain ⟨l, hl, hchain, hlast⟩ := hturn h rfl rfl
  obtain ⟨l', hl', hchain', hlast'⟩ := hturn h' hpar hexec
  rw [chain_unique hb0 hchain' hlast' hchain hlast, ← hl] at hl'
  exact (List.cons.inj (List.reverse_injective hl')).2

/-- The blocks that were proposed settle where the replica stands. -/
theorem CaughtUp.determined (h : CaughtUp config B D s) (h' : CaughtUp config B D s')
    (hsh : SameShape s s') : s'.hqc.1 = s.hqc.1 ∧ s'.b_lock = s.b_lock ∧
      s'.b_exec = s.b_exec ∧ s'.log = s.log := by
  have hqc := h'.hqc
  have hlock := h'.lock
  have hexec := h'.exec
  obtain ⟨hnamed, htwice, hripe⟩ : Named config s' D = Named config s D ∧
    NamedTwice config s' D = NamedTwice config s D ∧ Ripe config s' D = Ripe config s D :=
    hsh.candidates
  rw [hnamed, hsh.reads.1] at hqc
  rw [htwice, hsh.reads.1] at hlock
  rw [hripe, hsh.reads.1] at hexec
  have hexec_eq := transitions.maximalFor_unique
    (fun c c' => h.missed.ripe_unique h.done) hexec h.exec
  refine ⟨?_, ?_, hexec_eq, h.log.log_unique h.missed.links.b0_parents hsh h'.log hexec_eq⟩
  · refine transitions.maximalFor_unique (fun q q' hq hq' => h.missed.refs_unique ?_ ?_) hqc h.hqc
    · exact hq.imp_right fun ⟨x, hx, hxq⟩ => ⟨x, h.done x hx, hxq⟩
    · exact hq'.imp_right fun ⟨x, hx, hxq⟩ => ⟨x, h.done x hx, hxq⟩
  · have hmem : ∀ {q}, NamedTwice config s D q → q = config.b0 ∨ ∃ x ∈ B, s.qc_ref x = some q :=
      fun hq => hq.imp_right fun ⟨x, y, hx, hxy, hyq⟩ =>
        ⟨y, h.missed.consistent.refs x (h.done x hx) y hxy, hyq⟩
    exact transitions.maximalFor_unique
      (fun q q' hq hq' => h.missed.refs_unique (hmem hq) (hmem hq')) hlock h.lock

variable [DecidableEq Hash]

/-- In the three-step build the order in which a replica catches up does not matter. -/
theorem the_order_of_catching_up_does_not_matter (htwo : config.two_step = false)
    {id : ReplicaID} (h : Run config id Loading s) (hB : Consistent config s B)
    (hlow : Unwrapped config s B) {props props' : List (Proposal Hash)}
    (hprops : Covers config s B props) (hprops' : Covers config s B props') :
    ∃ t t', s.receive_all config props = .ok t ∧ s.receive_all config props' = .ok t' ∧
      t'.hqc.1 = t.hqc.1 ∧ t'.b_lock = t.b_lock ∧ t'.b_exec = t.b_exec ∧ t'.log = t.log := by
  have hstart := h.fresh.caughtUp hB hlow
  have hreceive : ∀ {props : List (Proposal Hash)}, Covers config s B props →
      ∃ t, s.receive_all config props = .ok t ∧ SameShape s t ∧
        CaughtUp config B (fun x => x ∈ B ∧ x ≠ config.b0) t := by
    intro props hprops
    obtain ⟨t, ht, hsh, hcaught⟩ := hstart.receive_all htwo fun prop hp =>
      ⟨hprops.received prop hp, (hprops.blocks _).mp (List.mem_map_of_mem hp)⟩
    simp only [false_or, hprops.blocks] at hcaught
    exact ⟨t, ht, hsh, hcaught⟩
  obtain ⟨t, ht, hsh, hcaught⟩ := hreceive hprops
  obtain ⟨t', ht', hsh', hcaught'⟩ := hreceive hprops'
  exact ⟨t, t', ht, ht', hcaught.determined hcaught' (hsh.symm.trans hsh')⟩

end Order

/-! ## A chain in any order -/

section LongChain

variable {wrap n : ℕ} {s : HotStuffCore ℕ (ReplicaID × ℕ)}

/-- A proposal of replica 1 for each block, in the order of the numbers. -/
def proposed_in (wrap : ℕ) (order : List ℕ) : List (Proposal ℕ) :=
  order.map fun i => ⟨1, long_code wrap i⟩

theorem Holds.covers (h : Holds wrap n s) (order : List ℕ) (hnodup : order.Nodup)
    (horder : ∀ i, i ∈ order ↔ 1 ≤ i ∧ i ≤ n) :
    Covers (coded_replicas false) s (long_chain wrap n) (proposed_in wrap order) := by
  have hblocks : (proposed_in wrap order).map (·.blk) = order.map (long_code wrap) := by
    simp [proposed_in]
  refine ⟨fun prop hp => ?_, ?_, fun x => ?_⟩
  · obtain ⟨i, -, rfl⟩ := List.mem_map.mp hp
    rw [h.id]
    exact Nat.one_ne_zero
  · rw [hblocks]
    exact hnodup.map (long_code_injective wrap)
  · rw [hblocks, List.mem_map, mem_long_chain]
    have hb0 : (coded_replicas false).b0 = long_code wrap 0 := rfl
    constructor
    · rintro ⟨i, hi, rfl⟩
      obtain ⟨hpos, hle⟩ := (horder i).mp hi
      refine ⟨⟨i, hle, rfl⟩, fun heq => ?_⟩
      have := long_code_injective wrap (heq.trans hb0)
      omega
    · rintro ⟨⟨i, hi, rfl⟩, hne⟩
      have hpos : i ≠ 0 := fun heq => hne (heq ▸ hb0.symm)
      exact ⟨i, (horder i).mpr ⟨by omega, hi⟩, rfl⟩

/-- Four blocks in a row, from either end. -/
theorem four_blocks_in_a_row_are_caught_up_from_either_end :
    ∃ s t t', Holds 0 4 s ∧
      s.receive_all (coded_replicas false) (proposed_in 0 [1, 2, 3, 4]) = .ok t ∧
      s.receive_all (coded_replicas false) (proposed_in 0 [4, 3, 2, 1]) = .ok t' ∧
      t'.hqc.1 = t.hqc.1 ∧ t'.b_lock = t.b_lock ∧ t'.b_exec = t.b_exec ∧ t'.log = t.log := by
  obtain ⟨s, h⟩ := exists_holds 0 4
  have hlow : Unwrapped (coded_replicas false) s (long_chain 0 4) := by
    intro x hx hne
    obtain ⟨i, hi, rfl⟩ := mem_long_chain.mp hx
    have hpos : i ≠ 0 := fun heq => hne (by rw [heq]; rfl)
    rw [h.height hi]
    omega
  have htwo : (coded_replicas false).two_step = false := rfl
  obtain ⟨t, t', ht, ht', hsame⟩ := the_order_of_catching_up_does_not_matter htwo h.run
    (h.consistent (by decide) (by decide)) hlow
    (h.covers [1, 2, 3, 4] (by decide) fun i => by simp; omega)
    (h.covers [4, 3, 2, 1] (by decide) fun i => by simp; omega)
  exact ⟨s, t, t', h, ht, ht', hsame⟩

theorem Holds.undecided (h : Holds wrap n s) (i : ℕ) :
    s.decision (long_code wrap (i + 1)) = false := by
  have hfresh := h.run.fresh
  by_contra hdec
  have habove := hfresh.log.above_of_decided (Bool.eq_true_of_not_eq_false hdec)
  rw [hfresh.b_exec] at habove
  rcases Relation.ReflTransGen.cases_head habove with heq | ⟨p, hp, -⟩
  · exact long_code_succ_ne wrap i heq.symm
  · rw [h.links.b0_parents] at hp
    cases hp

theorem Holds.parent (h : Holds wrap n s) {i : ℕ} (hi : i < n) :
    (s.parents (long_code wrap (i + 1))).head? = some (long_code wrap i) := by
  rw [(h.block hi).1]
  rfl

theorem Holds.undecided_ref (h : Holds wrap n s) {i : ℕ} (hlt : wrap < i) (hi : i < n) :
    s.undecided_ref (long_code wrap (i + 1)) = some (long_code wrap i) := by
  obtain ⟨i, rfl⟩ : ∃ k, i = k + 1 := ⟨i - 1, by omega⟩
  refine undecided_ref_eq_some.mpr ⟨?_, h.undecided i⟩
  rw [(h.block hi).2.1, if_pos hlt]

theorem Holds.commits (h : Holds wrap (wrap + 4) s) :
    Commits (coded_replicas false) s (long_code wrap (wrap + 4)) (long_code wrap (wrap + 2))
      (long_code wrap (wrap + 1)) := by
  have h3 : s.undecided_ref (long_code wrap (wrap + 4)) = some (long_code wrap (wrap + 3)) :=
    h.undecided_ref (by omega) (by omega)
  have h2 : s.undecided_ref (long_code wrap (wrap + 3)) = some (long_code wrap (wrap + 2)) :=
    h.undecided_ref (by omega) (by omega)
  refine ⟨?_, h.undecided_ref (by omega) (by omega), h.parent (by omega),
    fun _ => ⟨_, h3, h2, h.parent (by omega)⟩⟩
  have htwo : (coded_replicas false).two_step = false := rfl
  rw [lock_ref, htwo, if_neg Bool.false_ne_true, h3]
  exact h2

/-- The walk down from the first block after the heights have wrapped around ends at the block
before it, which is as high as genesis. -/
theorem Holds.walk (h : Holds wrap (wrap + 4) s) (hwrap : wrap % 2 ^ 32 = 0) :
    s.walk (s.height s.b_exec) (s.height (long_code wrap (wrap + 1)) + 1)
      (long_code wrap (wrap + 1)) = some ([long_code wrap (wrap + 1)], long_code wrap wrap) := by
  have hexec : s.height s.b_exec = 0 := by
    have hb0 : s.b_exec = long_code wrap 0 := h.run.fresh.b_exec
    rw [hb0, h.height (Nat.zero_le _), Nat.zero_mod]
  have hblk : s.height (long_code wrap (wrap + 1)) = 1 := by
    rw [h.height (by omega)]
    omega
  have hlast : s.height (long_code wrap wrap) = 0 := by rw [h.height (by omega), hwrap]
  rw [hexec, hblk, HotStuffCore.walk, hblk, if_pos Nat.one_pos, h.parent (by omega),
    Option.bind_some, HotStuffCore.walk, hlast, if_neg (Nat.lt_irrefl 0)]
  rfl

theorem Holds.exec_parent_hashes (h : Holds wrap n s) : s.parent_hashes s.b_exec = [] := by
  obtain ⟨b, hb, hsh⟩ := h.links.genesis_block
  rw [h.run.fresh.b_exec, HotStuffCore.parent_hashes, hb]
  exact congrArg (·.parent_hashes) hsh

/-- The block at which that walk ends is not `b_exec`, and `b_exec` is genesis. -/
theorem Holds.breaches (h : Holds wrap (wrap + 4) s) (hwrap : wrap % 2 ^ 32 = 0) (hpos : wrap ≠ 0) :
    s.on_receive_proposal (coded_replicas false) ⟨1, long_code wrap (wrap + 4)⟩ = .undefined := by
  have hd := h.delivered (wrap + 4) le_rfl
  obtain ⟨b, hb, -⟩ := exists_of_delivered hd
  have hid : (1 : ReplicaID) ≠ s.id := by
    rw [h.id]
    exact Nat.one_ne_zero
  have hne : long_code wrap wrap ≠ s.b_exec := fun heq =>
    hpos (long_code_injective wrap (heq.trans h.run.fresh.b_exec))
  have hstop : ∀ t : HotStuffCore ℕ (ReplicaID × ℕ), t.storage = s.storage →
      t.b_exec = s.b_exec → t.commit (long_code wrap (wrap + 1)) = .undefined := by
    intro t hstorage hexec
    have hwalk := h.walk hwrap
    have hbare := h.exec_parent_hashes
    rw [← walk_of_storage_eq hstorage, ← (SameShape.of_storage_eq hstorage).reads.1,
      ← hexec] at hwalk
    rw [HotStuffCore.parent_hashes, ← hstorage, ← hexec] at hbare
    exact commit_undefined_of_walk_ne hwalk (hexec ▸ hne) hbare
  rw [HotStuffCore.on_receive_proposal, if_neg hid, if_pos hd, update_of_commits hb h.commits,
    hstop (s.touched (coded_replicas false) (long_code wrap (wrap + 4)) b) rfl rfl]
  rfl

/-- A chain of 2^32 blocks and four more is consistent. The call for its last block finds a breach
and reads `parent_hashes[0]` of genesis for the message. -/
theorem heights_that_wrap_around_stop_the_catching_up :
    ∃ s B props, Run (coded_replicas false) 0 Loading s ∧ Consistent (coded_replicas false) s B ∧
      Covers (coded_replicas false) s B props ∧
      s.receive_all (coded_replicas false) props = .undefined := by
  obtain ⟨wrap, hwrap⟩ : ∃ wrap, wrap = 2 ^ 32 := ⟨_, rfl⟩
  obtain ⟨s, h⟩ := exists_holds wrap (wrap + 4)
  have hcovers := h.covers ((List.range (wrap + 4)).map (wrap + 4 - ·))
    (List.nodup_range.map_on fun i hi j hj heq => by
      rw [List.mem_range] at hi hj
      omega)
    fun i => by
      rw [List.mem_map]
      constructor
      · rintro ⟨j, hj, rfl⟩
        rw [List.mem_range] at hj
        omega
      · rintro ⟨hpos, hle⟩
        exact ⟨wrap + 4 - i, List.mem_range.mpr (by omega), by omega⟩
  refine ⟨s, _, _, h.run, h.consistent (by omega) (by omega), hcovers, ?_⟩
  have ht := h.breaches (by omega) (by omega)
  rw [List.range_succ_eq_map, List.map_cons, proposed_in, List.map_cons, receive_all,
    Nat.sub_zero, ht]
  rfl

end LongChain

end HotStuffCore

end general_hotstuff
