-- Chains of any length, loaded block by block. Their heights wrap around at 2^32, and they are
-- consistent as long as no two certified blocks are of one height.
import GeneralHotStuff.MissedBlocks
import GeneralHotStuff.Replay

namespace general_hotstuff

open quorums (ReplicaID)

namespace HotStuffCore

/-! ## A chain of any length -/

/-- Block number `i` of a chain. The certificates are on the parents from number `wrap + 2` on,
and on genesis before that. Genesis is number 0. -/
def long_code (wrap : ℕ) : ℕ → ℕ
  | 0 => 0
  | i + 1 =>
    block_code (coded_block (long_code wrap i) (if wrap < i then long_code wrap i else 0) 0)

/-- The block after number `i` of the chain. -/
def long_block (wrap i : ℕ) : BlockData ℕ (ReplicaID × ℕ) :=
  coded_block (long_code wrap i) (if wrap < i then long_code wrap i else 0) 0

/-- The first `n` blocks of the chain, and genesis. -/
def long_chain (wrap n : ℕ) : Finset ℕ := (Finset.range (n + 1)).image (long_code wrap)

/-- The replica with the chain. -/
structure Holds (wrap n : ℕ) (s : HotStuffCore ℕ (ReplicaID × ℕ)) : Prop where
  run : Run (coded_replicas false) 0 Loading s
  id : s.id = 0
  delivered : ∀ i ≤ n, s.delivered (long_code wrap i) = true
  rest : ∀ x, (∀ i ≤ n, x ≠ long_code wrap i) → s.storage x = none

section LongChain

variable {wrap n : ℕ} {s : HotStuffCore ℕ (ReplicaID × ℕ)}

theorem coded_block_obj_hash (p q cmd : ℕ) : (coded_block p q cmd).qc.obj_hash = q := by
  by_cases hq : q = 0
  · simp [coded_block, hq, QuorumCert.create_quorum_cert]
  · simp [coded_block, hq, coded_qc]

theorem long_code_succ_ne (wrap i : ℕ) : long_code wrap (i + 1) ≠ 0 := fun heq => by
  have hparents := (coded_collisionFree false).genesis (long_block wrap i) heq
  cases hparents

theorem long_code_injective (wrap : ℕ) : Function.Injective (long_code wrap) := by
  intro i j hij
  induction i generalizing j with
  | zero =>
    cases j with
    | zero => rfl
    | succ j => exact absurd hij.symm (long_code_succ_ne wrap j)
  | succ i ih =>
    cases j with
    | zero => exact absurd hij (long_code_succ_ne wrap i)
    | succ j =>
      have hparents := ((coded_collisionFree false).content (long_block wrap i)
        (long_block wrap j) hij).1
      rw [ih (List.cons.inj hparents).1]

theorem exists_holds (wrap n : ℕ) : ∃ s, Holds wrap n s := by
  induction n with
  | zero =>
    refine ⟨on_init (coded_replicas false) 0, .init, rfl, fun i hi => ?_, fun x hx => ?_⟩
    · rw [Nat.le_zero.mp hi]
      exact (on_init_links (coded_replicas false) 0).b0_delivered
    · have hx0 : x ≠ 0 := hx 0 le_rfl
      have hb0 : (coded_replicas false).b0 = 0 := rfl
      simp [on_init, hb0, hx0]
  | succ n ih =>
    obtain ⟨s, h⟩ := ih
    -- the next block arrives and is delivered
    have hnew : s.storage (long_code wrap (n + 1)) = none := h.rest _ fun i hi heq => by
      have := long_code_injective wrap heq
      omega
    have hadd : s.call (coded_replicas false) (.add_blk (long_block wrap n)) = .ok
        (s.put (long_code wrap (n + 1)) (.unserialize (long_block wrap n))) :=
      call_add_blk_of_none hnew
    have hold : ∀ i ≤ n, (s.put (long_code wrap (n + 1))
        (.unserialize (long_block wrap n))).delivered (long_code wrap i) = true := fun i hi =>
      (Grows.put_new hnew _).delivered (h.delivered i hi)
    have hq : ((s.put (long_code wrap (n + 1)) (.unserialize (long_block wrap n))).storage
        (Block.unserialize (long_block wrap n)).qc.obj_hash).isSome := by
      have hobj : (Block.unserialize (long_block wrap n)).qc.obj_hash =
        if wrap < n then long_code wrap n else 0 := coded_block_obj_hash _ _ _
      rw [hobj]
      split
      · obtain ⟨b, hb, -⟩ := exists_of_delivered (hold n le_rfl)
        simp [hb]
      · obtain ⟨b, hb, -⟩ := exists_of_delivered (hold 0 (Nat.zero_le n))
        have hb : (s.put (long_code wrap (n + 1)) (.unserialize (long_block wrap n))).storage 0 =
          some b := hb
        simp [hb]
    obtain ⟨b, t, hdel, hd, -⟩ := on_deliver_stored (t := s.tails) rfl rfl rfl
      (fun y hy => List.mem_singleton.mp hy ▸ hold n le_rfl) hq
    refine ⟨_, (h.run.step (c := .add_blk (long_block wrap n)) trivial
      (congrArg Outcome.state? hadd)).step (c := .on_deliver_blk (long_code wrap (n + 1))) trivial
      (congrArg Outcome.state? hdel), h.id, fun i hi => ?_, fun x hx => ?_⟩
    · rcases Nat.of_le_succ hi with hi | rfl
      · have hne : long_code wrap i ≠ long_code wrap (n + 1) := fun heq => by
          have := long_code_injective wrap heq
          omega
        have := h.delivered i hi
        rw [HotStuffCore.delivered] at this ⊢
        rw [← this]
        exact congrArg (·.elim false (·.delivered)) (storage_put_of_ne s b hne)
      · exact (delivered_eq (storage_put_self s _ b)).trans hd
    · have hne := hx (n + 1) le_rfl
      exact (storage_put_of_ne s b hne).trans (h.rest x fun i hi => hx i (hi.trans n.le_succ))

theorem Holds.links (h : Holds wrap n s) : LinksOk (coded_replicas false) s := h.run.fresh.links

theorem Holds.block (h : Holds wrap n s) {i : ℕ} (hi : i < n) :
    s.parents (long_code wrap (i + 1)) = [long_code wrap i] ∧
      s.qc_ref (long_code wrap (i + 1)) = some (if wrap < i then long_code wrap i else 0) ∧
      s.height (long_code wrap (i + 1)) = (s.height (long_code wrap i) + 1) % 2 ^ 32 := by
  have hd := h.delivered (i + 1) hi
  have hparents : (long_block wrap i).parent_hashes = [long_code wrap i] := rfl
  obtain ⟨-, href, hheight⟩ := h.links.of_hash (coded_collisionFree false) hparents hd
  refine ⟨?_, href.trans (congrArg some (coded_block_obj_hash _ _ _)), hheight⟩
  obtain ⟨b, hb, hbd⟩ := exists_of_delivered hd
  have hlaw := h.links.law _ b (long_code_succ_ne wrap i) hb
  obtain ⟨p, ps, hph, hps, -⟩ := hlaw.joined hbd
  rw [parents_eq hb, hps, ← hph]
  exact ((coded_collisionFree false).content b.toBlockData (long_block wrap i) hlaw.hash).1

theorem Holds.height (h : Holds wrap n s) {i : ℕ} (hi : i ≤ n) :
    s.height (long_code wrap i) = i % 2 ^ 32 := by
  induction i with
  | zero => exact h.links.b0_height
  | succ i ih =>
    rw [(h.block hi).2.2, ih (Nat.le_of_succ_le hi)]
    omega

theorem Holds.above (h : Holds wrap n s) {i j : ℕ} (hij : i ≤ j) (hj : j ≤ n) :
    s.above (long_code wrap j) (long_code wrap i) := by
  induction j with
  | zero =>
    rw [Nat.le_zero.mp hij]
    exact .refl
  | succ j ih =>
    rcases Nat.of_le_succ hij with hle | rfl
    · refine .head ?_ (ih hle (Nat.le_of_succ_le hj))
      rw [(h.block hj).1]
      rfl
    · exact .refl

theorem mem_long_chain {x : ℕ} : x ∈ long_chain wrap n ↔ ∃ i ≤ n, long_code wrap i = x := by
  simp [long_chain]

/-- The certificates are on genesis, and on blocks after number `wrap`. -/
theorem Holds.ref (h : Holds wrap n s) {x q : ℕ} (hx : x ∈ long_chain wrap n)
    (hq : s.qc_ref x = some q) :
    ∃ j, q = long_code wrap j ∧ (j = 0 ∨ wrap < j ∧ j < n) ∧
      (x ≠ 0 → ∃ i, i < n ∧ x = long_code wrap (i + 1) ∧ j ≤ i) := by
  obtain ⟨i, hi, rfl⟩ := mem_long_chain.mp hx
  cases i with
  | zero =>
    obtain ⟨g, hg, hsh⟩ := h.links.genesis_block
    have hg : s.storage (long_code wrap 0) = some g := hg
    rw [qc_ref_eq hg] at hq
    have href : g.qc_ref = some 0 := congrArg (·.qc_ref) hsh
    exact ⟨0, Option.some.inj (hq.symm.trans href), .inl rfl, fun hne => absurd rfl hne⟩
  | succ i =>
    rw [(h.block hi).2.1, Option.some.injEq] at hq
    subst hq
    split
    · rename_i hlt
      exact ⟨i, rfl, .inr ⟨hlt, hi⟩, fun _ => ⟨i, hi, rfl, le_rfl⟩⟩
    · exact ⟨0, rfl, .inl rfl, fun _ => ⟨i, hi, rfl, Nat.zero_le i⟩⟩

/-- The chain is consistent, as no two of the certified heights meet. -/
theorem Holds.consistent (h : Holds wrap n s) (hwrap : wrap % 2 ^ 32 = 0)
    (hn : n ≤ wrap + 2 ^ 32) : Consistent (coded_replicas false) s (long_chain wrap n) := by
  have hlinear : ∀ c ∈ long_chain wrap n, ∀ c' ∈ long_chain wrap n,
      s.above c c' ∨ s.above c' c := by
    intro c hc c' hc'
    obtain ⟨i, hi, rfl⟩ := mem_long_chain.mp hc
    obtain ⟨j, hj, rfl⟩ := mem_long_chain.mp hc'
    exact (le_total j i).imp (fun hij => h.above hij hi) fun hij => h.above hij hj
  have hrefs : ∀ x ∈ long_chain wrap n, ∀ q, s.qc_ref x = some q → q ∈ long_chain wrap n := by
    intro x hx q hq
    obtain ⟨j, rfl, hj, -⟩ := h.ref hx hq
    exact mem_long_chain.mpr ⟨j, by omega, rfl⟩
  refine ⟨fun x hx => ?_, fun x hx p hp => ?_, hrefs, fun x hx hne q hq => ?_, ?_, ?_⟩
  · obtain ⟨i, hi, rfl⟩ := mem_long_chain.mp hx
    exact h.delivered i hi
  · obtain ⟨i, hi, rfl⟩ := mem_long_chain.mp hx
    cases i with
    | zero =>
      have hpar : s.parents (long_code wrap 0) = [] := h.links.b0_parents
      rw [hpar] at hp
      cases hp
    | succ i =>
      rw [(h.block hi).1, List.mem_singleton] at hp
      exact mem_long_chain.mpr ⟨i, Nat.le_of_succ_le hi, hp.symm⟩
  · obtain ⟨j, rfl, -, hj⟩ := h.ref hx hq
    obtain ⟨i, hi, rfl, hji⟩ := hj hne
    refine ⟨long_code wrap i, ?_, h.above hji hi.le⟩
    rw [(h.block hi).1]
    rfl
  · intro x hx y hy q q' hq hq' heq
    obtain ⟨j, rfl, hj, -⟩ := h.ref hx hq
    obtain ⟨j', rfl, hj', -⟩ := h.ref hy hq'
    rw [h.height (by omega), h.height (by omega)] at heq
    rw [show j = j' by omega]
  · intro x hx y hy c c' hc hc'
    obtain ⟨_, _, h2, h1, hc, -⟩ := hc
    obtain ⟨_, _, h2', h1', hc', -⟩ := hc'
    exact hlinear c (hrefs _ (hrefs _ (hrefs _ hx _ h2) _ h1) _ hc) c'
      (hrefs _ (hrefs _ (hrefs _ hy _ h2') _ h1') _ hc')

end LongChain

end HotStuffCore

end general_hotstuff
