-- Runs of a replica that prunes. Through the further parents of a committed block `prune` can come
-- to blocks above `b_exec`, and then a walk along first parents can come to them as well.
import Mathlib.Logic.Relation
import GeneralHotStuff.HighTail
import GeneralHotStuff.PrunedBlocks

namespace general_hotstuff

open quorums (ReplicaID)
open transitions (Anything Runs)

variable {Hash Sig : Type}

namespace HotStuffCore

section Inside

variable {config : Config Hash Sig} {s s' : HotStuffCore Hash Sig} [DecidableEq Hash]

/-! ## The blocks that prune comes to -/

/-- The loop stays among the blocks of `R`, none of which is higher than `b_exec`. -/
structure Inside (R : Hash → Prop) (s : HotStuffCore Hash Sig) (stack : List Hash) : Prop where
  trimmed : s.Trimmed
  stack : ∀ x ∈ stack, R x
  closed : ∀ x p, R x → p ∈ s.parents x → R p
  low : ∀ x, R x → s.height x ≤ s.height s.b_exec
  delivered : ∀ x b, R x → s.storage x = some b → b.delivered = true

theorem Inside.turn {get_cnt : RefCount Hash Sig} (hcnt : Counts get_cnt) {R : Hash → Prop}
    {blk : Hash} {rest : List Hash} (h : Inside R s (blk :: rest)) (refs : List Hash) :
    Inside R (s.prune_turn get_cnt refs blk rest).1 (s.prune_turn get_cnt refs blk rest).2 := by
  have hR : R blk := h.stack blk List.mem_cons_self
  have hrest : ∀ x ∈ rest, R x := fun x hx => h.stack x (List.mem_cons_of_mem blk hx)
  rcases prune_turn_cases get_cnt refs blk rest s with
    ⟨-, ht⟩ | ⟨hnil, htwo, ht⟩ | ⟨b, p, hb, hp, ht⟩
  · rw [ht]
    exact ⟨h.trimmed, hrest, h.closed, h.low, h.delivered⟩
  · rw [ht]
    cases hb : s.storage blk with
    | none =>
      have hsame : s.release blk = s := by
        unfold release
        rw [← hb, Function.update_eq_self]
      rw [hsame]
      exact ⟨h.trimmed, hrest, h.closed, h.low, h.delivered⟩
    | some b =>
      have hun := hcnt _ s blk (List.mem_append_left refs List.mem_cons_self) (by simp [hb]) htwo
      refine ⟨h.trimmed.release hun, hrest, ?_, fun x hx => ?_, fun x c hx hc => ?_⟩
      · rw [release_parents hnil]
        exact h.closed
      · have hexec := release_height_of_ne s hun.exec.symm
        by_cases hxb : x = blk
        · simp [HotStuffCore.height, release, hxb]
        · rw [release_height_of_ne s hxb]
          exact (h.low x hx).trans hexec.ge
      · exact h.delivered x c hx (storage_of_release hc).2
  · rw [ht]
    have hd := h.delivered blk b hR hb
    refine ⟨h.trimmed.trim hb hd (h.low blk hR) (List.dropLast_prefix _), fun x hx => ?_,
      fun x q hx hq => ?_, fun x hx => ?_, fun x c hx hc => ?_⟩
    · rcases List.mem_cons.mp hx with rfl | hx
      · exact h.closed blk x hR (by rw [parents_eq hb]; exact List.mem_of_getLast? hp)
      · exact h.stack x hx
    · rw [trim_parents] at hq
      by_cases hxb : x = blk
      · rw [hxb, Function.update_self] at hq
        exact h.closed blk q hR (by rw [parents_eq hb]; exact List.mem_of_mem_dropLast hq)
      · rw [Function.update_of_ne hxb] at hq
        exact h.closed x q hx hq
    · rw [trim_height hb, trim_height hb]
      exact h.low x hx
    · by_cases hxb : x = blk
      · subst hxb
        rw [storage_trim_self, Option.some.injEq] at hc
        exact hc ▸ hd
      · exact h.delivered x c hx ((storage_trim_of_ne s b _ hxb).symm.trans hc)

/-! ## Runs with prune -/

/-- Along parents, `prune` comes to no block that is higher than `b_exec`. -/
def PrunesLow (s : HotStuffCore Hash Sig) (staleness : ℕ) : Prop :=
  ∀ start x, s.stale staleness s.b_exec = some start →
    Relation.ReflTransGen (fun x p => p ∈ s.parents x) start x → s.height x ≤ s.height s.b_exec

/-- The replica is called as it should be. -/
def Called (s : HotStuffCore Hash Sig) : PruneEvent Hash Sig → Prop
  | .call c => s.Callable c
  | .prune _ _ _ => True

/-- The replica is called as it should be, and each `prune` stays low. -/
def Careful (s : HotStuffCore Hash Sig) : PruneEvent Hash Sig → Prop
  | .call c => s.Callable c
  | .prune _ _ staleness => s.PrunesLow staleness

omit [DecidableEq Hash] in
theorem Trimmed.stale_delivered (h : s.Trimmed) {staleness : ℕ} {x start : Hash}
    (hx : s.delivered x = true) (hs : s.stale staleness x = some start) :
    s.delivered start = true := by
  induction staleness generalizing x with
  | zero => exact Option.some.inj hs ▸ hx
  | succ staleness ih =>
    obtain ⟨p, hp, hs⟩ := Option.bind_eq_some_iff.mp hs
    exact ih (h.parents_delivered (List.mem_of_head? hp)) hs

/-- The loop starts inside the blocks that it can come to. -/
theorem Trimmed.inside (h : s.Trimmed) {staleness : ℕ} (hlow : s.PrunesLow staleness)
    {start : Hash} (hs : s.stale staleness s.b_exec = some start) :
    Inside (Relation.ReflTransGen (fun x p => p ∈ s.parents x) start)
      (s.modify start ({ · with qc_ref := none })) [start] := by
  have hdel := h.stale_delivered h.exec hs
  obtain ⟨b, hb, hd⟩ := exists_of_delivered hdel
  have htrim : s.modify start ({ · with qc_ref := none }) = s.trim start b b.parents := by
    rw [modify_eq_put hb]
    rfl
  have hsame : (s.trim start b b.parents).parents = s.parents := by
    rw [trim_parents, ← parents_eq hb, Function.update_eq_self]
  rw [htrim]
  refine ⟨h.trim hb hd (hlow start start hs .refl) List.prefix_rfl, fun x hx => ?_,
    fun x p hx hp => ?_, fun x hx => ?_, fun x c hx hc => ?_⟩
  · exact List.mem_singleton.mp hx ▸ .refl
  · rw [hsame] at hp
    exact hx.tail hp
  · rw [trim_height hb, trim_height hb]
    exact hlow start x hs hx
  · have hcd : s.delivered x = true := by
      cases hx with
      | refl => exact hdel
      | tail _ hp => exact h.parents_delivered hp
    rw [← trim_delivered hb b.parents x, delivered_eq hc] at hcd
    exact hcd

theorem Trimmed.prune {get_cnt : RefCount Hash Sig} (hcnt : Counts get_cnt) (h : s.Trimmed)
    {held : List Hash} {fuel staleness : ℕ} (hlow : s.PrunesLow staleness)
    (hs : s.prune get_cnt held fuel staleness = some s') : s'.Trimmed := by
  unfold HotStuffCore.prune at hs
  split at hs
  · exact Option.some.inj hs ▸ h
  · rename_i start hstart
    exact (prune_loop_keeps (fun s blk rest hin => hin.turn hcnt (start :: held))
      (h.inside hlow hstart) hs).trimmed

theorem on_init_trimmed (config : Config Hash Sig) (id : ReplicaID) :
    (on_init config id).Trimmed where
  law x b hb := by
    by_cases hx : x = config.b0
    · simp only [on_init, hx, Function.update_self, Option.some.injEq] at hb
      subst hb
      refine ⟨fun p hp => (by cases hp), fun _ p hp => (by cases hp), fun q hq => ?_,
        fun hd => (by cases hd)⟩
      have heq : config.b0 = q := Option.some.inj hq
      rw [← heq]
      exact ⟨rfl, by simp [on_init]⟩
    · simp [on_init, hx] at hb
  certs := on_init_certsOk config id
  undecided := by
    rintro ⟨x, hd, -, hq⟩
    by_cases hx : x = config.b0
    · simp [HotStuffCore.decision, on_init, hx, genesis] at hd
    · simp [HotStuffCore.qc_ref, on_init, hx] at hq
  high x hx := by
    by_cases hxb : x = config.b0
    · simp [HotStuffCore.height, on_init, hxb] at hx
    · simp [HotStuffCore.height, on_init, hxb] at hx
  exec := by simp [HotStuffCore.delivered, on_init, genesis]
  lock := le_rfl
  hqc := le_rfl

theorem Trimmed.of_runs {get_cnt : RefCount Hash Sig} (hcnt : Counts get_cnt) {id : ReplicaID}
    (h : Runs (prune_event config get_cnt) Careful (on_init config id) s) : s.Trimmed := by
  refine h.keeps (on_init_trimmed config id) fun t e u ht hok he => ?_
  cases e with
  | call c => exact ht.call config hok u he
  | prune held fuel staleness => exact ht.prune hcnt hok he

theorem OverGenesis.of_runs {get_cnt : RefCount Hash Sig} {id : ReplicaID}
    (h : Runs (prune_event config get_cnt) Careful (on_init config id) s) :
    OverGenesis config s := by
  refine h.keeps ((on_init_blocksOk config id).overGenesis ?_) fun t e u ht hok he => ?_
  · simp [HotStuffCore.decision, on_init, genesis]
  · cases e with
    | call c => exact ht.call hok u he
    | prune held fuel staleness => exact ht.prune he

theorem Trimmed.update_defined (h : s.Trimmed) (hover : OverGenesis config s) {nblk : Hash}
    (hd : s.delivered nblk = true) : (s.update config nblk).Defined :=
  hover.update_defined h.descendingAbove le_rfl
    (fun hp => h.parents_delivered (List.mem_of_head? hp)) h.exec h.undecided hd

/-- `prune` always ends. As long as it comes to no block above `b_exec`, neither `update` nor the
vote rule nor the search for the highest tail reads the first element of an empty list. -/
theorem pruning_below_the_last_commit_is_safe (config : Config Hash Sig) (id : ReplicaID)
    (get_cnt : RefCount Hash Sig) (hcnt : Counts get_cnt) :
    (∀ s, Runs (prune_event config get_cnt) Anything (on_init config id) s →
      ∀ held staleness, ∃ fuel, ∀ more ≥ fuel, (s.prune get_cnt held more staleness).isSome) ∧
    ∀ s, Runs (prune_event config get_cnt) Careful (on_init config id) s →
      (∀ nblk, s.delivered nblk = true → (s.update config nblk).Defined) ∧
        (∀ prop, (s.on_receive_proposal config prop).Defined) ∧
        ∀ b, (s.check_ancestry s.hqc.1 b).isSome := by
  refine ⟨fun s h => (Bounded.of_runs h).prune_isSome get_cnt, fun s h => ?_⟩
  have ht := Trimmed.of_runs hcnt h
  have hover := OverGenesis.of_runs h
  refine ⟨fun nblk hd => ht.update_defined hover hd, fun prop => ?_, fun b => ?_⟩
  · unfold on_receive_proposal
    split
    · exact ht.descendingAbove.vote_on_defined ht.lock config prop
    · split
      · rename_i hd
        refine (ht.update_defined hover hd).andThen ?_
        intro s1 hs1
        have h1 := ht.update config prop.blk s1 (by rw [hs1]; rfl)
        exact h1.descendingAbove.vote_on_defined h1.lock config prop
      · trivial
  · unfold check_ancestry
    rw [Option.isSome_map]
    exact ht.descendingAbove.walk_isSome ht.hqc (Nat.lt_succ_self _)

/-! ## An uncle above the last commit -/

/-- The references of the storage, the local variables, the core and the stored blocks. -/
def ref_count [Fintype Hash] (config : Config Hash Sig) : RefCount Hash Sig := fun refs s x =>
  (if (s.storage x).isSome then 1 else 0) + refs.count x +
    [config.b0, s.b_exec, s.b_lock, s.hqc.1].count x + (if x ∈ s.tails then 1 else 0) +
    ∑ y, ((s.parents y).count x + if s.qc_ref y = some x then 1 else 0)

theorem ref_count_counts [Fintype Hash] (config : Config Hash Sig) :
    Counts (ref_count config : RefCount Hash Sig) := by
  intro refs s x hx hstored htwo
  unfold ref_count at htwo
  rw [if_pos hstored] at htwo
  have hlocal : 0 < refs.count x := List.count_pos_iff.mpr hx
  have hcore : [config.b0, s.b_exec, s.b_lock, s.hqc.1].count x = 0 := by omega
  have hblocks : ∑ y, ((s.parents y).count x + if s.qc_ref y = some x then 1 else 0) = 0 := by
    omega
  rw [List.count_eq_zero] at hcore
  have hblock : ∀ y, (s.parents y).count x = 0 ∧ (if s.qc_ref y = some x then 1 else 0) = 0 := by
    intro y
    have hy := Finset.sum_eq_zero_iff.mp hblocks y (Finset.mem_univ y)
    omega
  refine ⟨fun h => ?_, fun h => ?_, fun h => ?_, fun y => ?_, fun y h => ?_⟩
  · exact hcore (by simp [h])
  · exact hcore (by simp [h])
  · exact hcore (by simp [h])
  · exact List.count_eq_zero.mp (hblock y).1
  · have hy := (hblock y).2
    rw [if_pos h] at hy
    cases hy

instance [Fintype Hash] (s : HotStuffCore Hash Sig) : ∀ c, Decidable (s.Callable c)
  | .on_propose _ parents _ =>
    inferInstanceAs (Decidable (s.Short ∧ ∀ p ∈ parents, s.delivered p = true))
  | .add_blk _ => inferInstanceAs (Decidable s.Short)
  | .on_deliver_blk _ => inferInstanceAs (Decidable s.Short)
  | .on_receive_proposal _ => inferInstanceAs (Decidable s.Short)
  | .on_receive_vote _ => inferInstanceAs (Decidable s.Short)
  | .set_vote_disabled _ => inferInstanceAs (Decidable s.Short)

instance [Fintype Hash] (s : HotStuffCore Hash Sig) : ∀ e, Decidable (s.Called e)
  | .call c => inferInstanceAs (Decidable (s.Callable c))
  | .prune _ _ _ => inferInstanceAs (Decidable True)

/-- No `prune` yet. -/
def JustCalled (s : HotStuffCore Hash Sig) : PruneEvent Hash Sig → Prop
  | .call c => s.Callable c
  | .prune _ _ _ => False

instance [Fintype Hash] (s : HotStuffCore Hash Sig) : ∀ e, Decidable (s.JustCalled e)
  | .call c => inferInstanceAs (Decidable (s.Callable c))
  | .prune _ _ _ => inferInstanceAs (Decidable False)

/-- A stored block whose parents and the block of whose certificate are still stored. -/
def Whole (s : HotStuffCore Hash Sig) (x : Hash) : Prop :=
  ((s.storage x).any fun b => b.parent_hashes.all (fun p => (s.storage p).isSome) &&
    (s.storage b.qc.obj_hash).isSome) = true

instance (s : HotStuffCore Hash Sig) (x : Hash) : Decidable (s.Whole x) :=
  inferInstanceAs (Decidable (_ = true))

end Inside

/-- Four replicas. A block carries its hash in its first extra byte. -/
def marked_replicas : Config (Fin 16) (ReplicaID × Fin 16) :=
  { two_step := false
    scheme := .secp256k1
    rule := .threshold 3
    nreplicas := 4
    nreplicas_le := Config.four_le
    b0 := 0
    get_hash := fun data => Fin.ofNat 16 (data.extra.head?.elim 0 (·.toNat))
    sign := fun rid h => (rid, h)
    sigVerify := fun rid h sig => sig = (rid, h)
    recover := fun sigs => sigs.head?.elim (0, 0) Prod.snd
    threshVerify := fun h sig => sig.any (·.2 = h) }

/-- Block `x` on `parents` with a certificate on block `q` arrives and is delivered. -/
def comes (x : UInt8) (parents : List (Fin 16)) (q : Fin 16) :
    List (PruneEvent (Fin 16) (ReplicaID × Fin 16)) :=
  [.call (.add_blk ⟨parents, [], .create_quorum_cert marked_replicas q, [x]⟩),
    .call (.on_deliver_blk (Fin.ofNat 16 x.toNat))]

/-- The uncles 1 to 4 and their child 9. Block 5 lists uncle 4 beside genesis, and 6, 7 and 8
commit it. -/
def uncle_run : List (PruneEvent (Fin 16) (ReplicaID × Fin 16)) :=
  comes 1 [0] 0 ++ comes 2 [1] 0 ++ comes 3 [2] 0 ++ comes 4 [3] 0 ++ comes 9 [4] 0 ++
    comes 5 [0, 4] 0 ++ comes 6 [5] 5 ++ comes 7 [6] 6 ++ comes 8 [7] 7 ++
    [.call (.on_receive_proposal ⟨1, 8⟩), .prune [] 20 0]

/-- Block 4 is above the last commit when its parents are taken away, and its child 9 is still
there, with its parent and the block of its certificate. -/
theorem a_walk_comes_to_a_pruned_uncle :
    ∃ s, Runs (prune_event marked_replicas (ref_count marked_replicas)) Called
        (on_init marked_replicas 0) s ∧ s.b_exec = 5 ∧ s.Whole 9 ∧ s.delivered 9 = true ∧
      ¬ (s.on_receive_proposal marked_replicas ⟨1, 9⟩).Defined ∧
      s.check_ancestry s.hqc.1 9 = none := by
  have hplay : (transitions.play (prune_event marked_replicas (ref_count marked_replicas)) Called
      (on_init marked_replicas 0) uncle_run).map (fun s =>
        decide (s.b_exec = 5 ∧ s.Whole 9 ∧ s.delivered 9 = true ∧
          (s.on_receive_proposal marked_replicas ⟨1, 9⟩).state?.isNone = true ∧
          s.check_ancestry s.hqc.1 9 = none)) = some true := by
    decide +kernel
  obtain ⟨s, hs, hfacts⟩ := Option.map_eq_some_iff.mp hplay
  obtain ⟨hexec, hwhole, hdel, hnone, hwalk⟩ := of_decide_eq_true hfacts
  refine ⟨s, .of_play hs, hexec, hwhole, hdel, ?_, hwalk⟩
  generalize s.on_receive_proposal marked_replicas ⟨1, 9⟩ = o at hnone
  cases o with
  | undefined => exact fun h => h
  | ok t => cases hnone
  | throw t what => cases hnone

/-- Block 5 is an uncle of the same height as block 1, which 2, 3 and 4 commit. -/
def low_uncle_run : List (PruneEvent (Fin 16) (ReplicaID × Fin 16)) :=
  comes 5 [0] 0 ++ comes 1 [0, 5] 0 ++ comes 2 [1] 1 ++ comes 3 [2] 2 ++ comes 4 [3] 3 ++
    comes 6 [4] 4 ++ [.call (.on_receive_proposal ⟨1, 4⟩)]

theorem a_low_uncle_is_pruned_safely :
    ∃ s : HotStuffCore (Fin 16) (ReplicaID × Fin 16),
      s.b_exec = 1 ∧ s.parents 1 = [] ∧ s.storage 5 = none ∧
      (s.on_receive_proposal marked_replicas ⟨1, 6⟩).Defined ∧
      (s.check_ancestry s.hqc.1 6).isSome := by
  obtain ⟨s, hs⟩ := Option.isSome_iff_exists.mp
    (show (transitions.play (prune_event marked_replicas (ref_count marked_replicas)) JustCalled
      (on_init marked_replicas 0) low_uncle_run).isSome by decide +kernel)
  have hfacts : (transitions.play (prune_event marked_replicas (ref_count marked_replicas))
      JustCalled (on_init marked_replicas 0) low_uncle_run).map (fun s =>
        decide (s.b_exec = 1 ∧ ∀ x ∈ [0, 1, 5],
          (∀ p ∈ s.parents x, p ∈ [0, 1, 5]) ∧ s.height x ≤ s.height s.b_exec)) =
      some true := by
    decide +kernel
  have hpruned : ((transitions.play (prune_event marked_replicas (ref_count marked_replicas))
      JustCalled (on_init marked_replicas 0) low_uncle_run).bind
        (·.prune (ref_count marked_replicas) [] 20 0)).map (fun s =>
          decide (s.b_exec = 1 ∧ s.parents 1 = [] ∧ s.storage 5 = none)) = some true := by
    decide +kernel
  rw [hs, Option.map_some, Option.some.injEq] at hfacts
  obtain ⟨hexec, hclosed⟩ := of_decide_eq_true hfacts
  rw [hs, Option.bind_some] at hpruned
  obtain ⟨s1, hs1, hfacts1⟩ := Option.map_eq_some_iff.mp hpruned
  obtain ⟨hexec1, hnil, hgone⟩ := of_decide_eq_true hfacts1
  have hlow : s.PrunesLow 0 := by
    intro start x hstart hx
    have hmem : x ∈ [0, 1, 5] := by
      induction hx with
      | refl =>
        rw [← Option.some.inj hstart, hexec]
        decide
      | tail _ hp ih => exact (hclosed _ ih).1 _ hp
    exact (hclosed x hmem).2
  have hrun : Runs (prune_event marked_replicas (ref_count marked_replicas)) Careful
      (on_init marked_replicas 0) s1 := by
    refine Runs.tail (Runs.mono ?_ (.of_play hs)) (e := .prune [] 20 0) hlow hs1
    intro s e he
    cases e with
    | call c => exact he
    | prune held fuel staleness => cases he
  obtain ⟨-, hreceive, hwalk⟩ := (pruning_below_the_last_commit_is_safe marked_replicas 0
    (ref_count marked_replicas) (ref_count_counts marked_replicas)).2 s1 hrun
  exact ⟨s1, hexec1, hnil, hgone, hreceive ⟨1, 6⟩, hwalk 6⟩

end HotStuffCore

end general_hotstuff
