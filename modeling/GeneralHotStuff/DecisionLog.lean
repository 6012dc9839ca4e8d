-- The decisions of the replicas as one replicated log: what correct replicas decide, in the
-- order of time, is a history of one log that each of them reads from its first entry on.
import GeneralHotStuff.SharedLog
import GeneralHotStuff.Agreement

namespace general_hotstuff

open quorums (ReplicaID)

/-- What a `Finality` says, whichever replica it comes from. -/
structure Decision (Hash : Type) where
  decision : ℕ
  cmd_idx : ℕ
  cmd_height : ℕ
  cmd_hash : Hash
  blk_hash : Hash
  deriving DecidableEq

/-- By height, and in one block by the number of the command. -/
def Decision.Before {Hash : Type} (d d' : Decision Hash) : Prop :=
  d.cmd_height < d'.cmd_height ∨
    d.cmd_height = d'.cmd_height ∧ d.blk_hash = d'.blk_hash ∧ d.cmd_idx < d'.cmd_idx

def Finality.said {Hash : Type} (fin : Finality Hash) : Decision Hash :=
  ⟨fin.decision, fin.cmd_idx, fin.cmd_height, fin.cmd_hash, fin.blk_hash⟩

/-- What is passed to `do_decide`. -/
def Output.decided {Hash Sig : Type} : Output Hash Sig → Option (Decision Hash)
  | .do_decide fin => some fin.said
  | _ => none

variable {Hash Sig : Type} {config : Config Hash Sig} {correct : ReplicaID → Prop}

/-! ## Branches -/

/-- The blocks above genesis up to `e`, the lowest first. -/
inductive Branch (config : Config Hash Sig) : List Hash → Hash → Prop where
  | genesis : Branch config [] config.b0
  | next {l : List Hash} {p x : Hash} (hl : Branch config l p) (hp : config.Parent x p) :
      Branch config (l ++ [x]) x

theorem Branch.unique (hc : config.CollisionFree) {l l' : List Hash} {e : Hash}
    (hl : Branch config l e) (hl' : Branch config l' e) : l = l' := by
  induction hl generalizing l' with
  | genesis =>
    cases hl' with
    | genesis => rfl
    | next _ hp => exact absurd hp hc.not_parent_b0
  | next _ hp ih =>
    cases hl' with
    | genesis => exact absurd hp hc.not_parent_b0
    | next hl' hp' => rw [ih (hc.parent_unique hp hp' ▸ hl')]

/-- The branch up to a block goes on to every block above it. -/
theorem Branch.prefix_of_above (hc : config.CollisionFree) {l l' : List Hash} {e e' : Hash}
    (hl : Branch config l e) (hl' : Branch config l' e') (h : config.Above e' e) : l <+: l' := by
  induction hl' with
  | genesis =>
    rcases Relation.ReflTransGen.cases_head h with rfl | ⟨p, hp, -⟩
    · rw [hl.unique hc .genesis]
    · exact absurd hp hc.not_parent_b0
  | @next l' q x hl' hq ih =>
    rcases Relation.ReflTransGen.cases_head h with rfl | ⟨p, hp, hpe⟩
    · rw [hl.unique hc (hl'.next hq)]
    · exact (ih (hc.parent_unique hp hq ▸ hpe)).trans (List.prefix_append _ _)

theorem branch_of_chain {l : List Hash} {e : Hash}
    (hl : List.IsChain (fun a b => config.Parent b a) (config.b0 :: l))
    (he : (config.b0 :: l).getLast? = some e) : Branch config l e := by
  induction l using List.reverseRecOn generalizing e with
  | nil =>
    rw [List.getLast?_singleton, Option.some.injEq] at he
    exact he ▸ .genesis
  | append_singleton l x ih =>
    rw [← List.cons_append, List.isChain_append] at hl
    rw [← List.cons_append, List.getLast?_append, List.getLast?_singleton, Option.some_or,
      Option.some.injEq] at he
    subst he
    have hlast := List.getLast?_eq_some_getLast (List.cons_ne_nil config.b0 l)
    exact (ih hl.1 hlast).next (hl.2.2 _ hlast _ rfl)

/-- Blocks with one hash carry the same commands. -/
def Config.SameCommands (config : Config Hash Sig) : Prop :=
  ∀ data data', config.get_hash data = config.get_hash data' → data.cmds = data'.cmds

/-! ## The decisions of one replica -/

namespace HotStuffCore

/-- What the replica has passed to `do_decide`, in order. -/
def decisions (s : HotStuffCore Hash Sig) : List (Decision Hash) := s.out.filterMap Output.decided

/-- What it decides about the commands of one block. -/
def block_decisions (s : HotStuffCore Hash Sig) (blk : Hash) : List (Decision Hash) :=
  ((s.storage blk).elim [] (·.cmds)).zipIdx.map fun (cmd, i) => ⟨1, i, s.height blk, cmd, blk⟩

theorem decided_commit_outputs (s : HotStuffCore Hash Sig) (blk : Hash) :
    (s.commit_outputs blk).filterMap Output.decided = s.block_decisions blk := by
  unfold commit_outputs block_decisions
  rw [List.filterMap_cons_none (by rfl), List.filterMap_map, ← List.filterMap_eq_map]
  rfl

/-- The decisions are those of the committed blocks. -/
theorem LogOk.decisions {s : HotStuffCore Hash Sig} (h : LogOk config s) :
    s.decisions = s.log.flatMap s.block_decisions := by
  have hcommit : s.decisions = (s.out.filter Output.isCommit).filterMap Output.decided := by
    rw [List.filterMap_filter]
    refine List.filterMap_congr fun o _ => ?_
    cases o <;> simp [Output.isCommit, Output.decided]
  rw [hcommit, h.outputs, List.filterMap_flatMap]
  exact List.flatMap_congr fun x _ => s.decided_commit_outputs x

theorem mem_block_decisions {s : HotStuffCore Hash Sig} {blk : Hash} {d : Decision Hash}
    (hd : d ∈ s.block_decisions blk) : d.cmd_height = s.height blk ∧ d.blk_hash = blk := by
  obtain ⟨⟨cmd, i⟩, -, rfl⟩ := List.mem_map.mp hd
  exact ⟨rfl, rfl⟩

theorem block_decisions_before (s : HotStuffCore Hash Sig) (blk : Hash) :
    (s.block_decisions blk).Pairwise Decision.Before := by
  unfold block_decisions
  rw [List.pairwise_map]
  have hidx : ∀ (l : List Hash) (n : ℕ), (l.zipIdx n).Pairwise fun a b => a.2 < b.2 := by
    intro l
    induction l with
    | nil => simp
    | cons a l ih =>
      intro n
      rw [List.zipIdx_cons, List.pairwise_cons]
      refine ⟨fun ⟨b, i⟩ hb => ?_, ih (n + 1)⟩
      have := List.le_snd_of_mem_zipIdx hb
      simpa using this
  exact (hidx _ 0).imp fun hlt => .inr ⟨rfl, rfl, hlt⟩

/-- Each block is higher than those before it. -/
theorem LogOk.rises {s : HotStuffCore Hash Sig} (hok : BlocksOk config s) (h : LogOk config s) :
    s.log.Pairwise fun a b => s.height a < s.height b := by
  have hchain : List.IsChain (fun a b => s.height a < s.height b) s.log := by
    refine (List.isChain_of_isChain_cons h.chain).imp_of_mem_imp fun a b _ hb hab => ?_
    rw [hok.height_parent (h.delivered b hb) hab]
    exact Nat.lt_succ_self _
  have htrans : IsTrans Hash fun a b => s.height a < s.height b :=
    ⟨fun _ _ _ => Nat.lt_trans⟩
  exact List.isChain_iff_pairwise.mp hchain

theorem LogOk.decisions_before {s : HotStuffCore Hash Sig} (hok : BlocksOk config s)
    (h : LogOk config s) : s.decisions.Pairwise Decision.Before := by
  rw [h.decisions, List.pairwise_flatMap]
  refine ⟨fun blk _ => s.block_decisions_before blk, (h.rises hok).imp fun hlt d hd d' hd' => ?_⟩
  exact .inl (by rwa [(mem_block_decisions hd).1, (mem_block_decisions hd').1])

theorem LogOk.branch {s : HotStuffCore Hash Sig} (hok : BlocksOk config s) (h : LogOk config s) :
    Branch config s.log s.b_exec := by
  refine branch_of_chain (h.chain.imp_of_mem_imp fun a b _ hb hab => ?_) h.last
  refine hok.parent_of_delivered ?_ hab
  rcases List.mem_cons.mp hb with rfl | hb
  · exact hok.b0_delivered
  · exact h.delivered b hb

/-- Two replicas decide the same about a block that both have delivered. -/
theorem BlocksOk.block_decisions_eq {s s' : HotStuffCore Hash Sig} (hok : BlocksOk config s)
    (hok' : BlocksOk config s') (hc : config.CollisionFree) (hcmds : config.SameCommands)
    {x : Hash} (hx : x ≠ config.b0) (hd : s.delivered x = true) (hd' : s'.delivered x = true) :
    s.block_decisions x = s'.block_decisions x := by
  obtain ⟨b, hb, -⟩ := exists_of_delivered hd
  obtain ⟨b', hb', -⟩ := exists_of_delivered hd'
  have hsame := hcmds b.toBlockData b'.toBlockData
    ((hok.law x b hx hb).hash.trans (hok'.law x b' hx hb').hash.symm)
  have hheight := (hok.depth_eq hc hd).symm.trans (hok'.depth_eq hc hd')
  simp [block_decisions, hb, hb', hsame, hheight]

/-! ## Outputs stay -/

theorem kept_out [DecidableEq Hash] (config : Config Hash Sig) (out : List (Output Hash Sig)) :
    Kept config fun s : HotStuffCore Hash Sig => out <+: s.out where
  update s nblk h hd := by
    obtain ⟨b, hb, -⟩ := exists_of_delivered hd
    rcases update_cases config hb with hu | ⟨-, hu⟩ | ⟨blk1, blk, -, hu⟩
    · exact hu ▸ Outcome.leaves_ok.mpr h
    · exact hu ▸ Outcome.leaves_undefined
    · rcases commit_cases (s.touched config nblk b) blk with ⟨-, hc⟩ | hc | ⟨passed, -, hc⟩
      · exact hu ▸ hc ▸ Outcome.leaves_undefined
      · exact hu ▸ hc ▸ Outcome.leaves_throw.mpr h
      · rw [hu, hc, Outcome.leaves_ok, commit_all_out]
        exact h.trans (List.prefix_append _ _)
  vote_on s prop h := by
    rcases vote_on_cases config prop s with ⟨-, hv⟩ | hv | ⟨-, hv⟩
    · exact hv ▸ Outcome.leaves_undefined
    · exact hv ▸ Outcome.leaves_ok.mpr h
    · exact hv ▸ Outcome.leaves_ok.mpr (h.trans (List.prefix_append _ _))
  broadcast s prop h := h.trans (List.prefix_append _ _)

theorem call_out [DecidableEq Hash] (config : Config Hash Sig) (s : HotStuffCore Hash Sig)
    (c : Call Hash Sig) : (s.call config c).Leaves fun s' => s.out <+: s'.out := by
  have hk := kept_out config s.out
  have hquiet : ∀ {s s' : HotStuffCore Hash Sig}, Quiet s s' → s.out <+: s'.out := fun hq => by
    obtain ⟨more, heq, -⟩ := hq.out
    exact heq ▸ List.prefix_append _ _
  cases c with
  | add_blk data => exact Outcome.leaves_ok.mpr (List.prefix_refl _)
  | on_deliver_blk blk => exact (on_deliver_blk_quiet s blk).mono fun _ => hquiet
  | on_propose cmds parents extra =>
    refine hk.on_propose (List.prefix_refl _) cmds parents extra fun p ps _ => ?_
    exact (on_deliver_blk_quiet _ _).mono fun _ hq =>
      hquiet ((store_proposed_quiet config s cmds p ps extra).trans hq)
  | on_receive_proposal prop => exact hk.on_receive_proposal (List.prefix_refl _) prop
  | on_receive_vote vote => exact (on_receive_vote_quiet config s vote).mono fun _ => hquiet
  | set_vote_disabled f => exact Outcome.leaves_ok.mpr (List.prefix_refl _)

end HotStuffCore

/-! ## The decisions in a world -/

namespace World

open HotStuffCore (Call)

variable [DecidableEq Hash] {ok : World Hash Sig → ReplicaID → Call Hash Sig → Prop}
  {w : World Hash Sig} {h : List (ReplicaID × Decision Hash)}

/-- A run, with what its replicas decide in the order of time. -/
inductive History (config : Config Hash Sig) (correct : ReplicaID → Prop)
    (ok : World Hash Sig → ReplicaID → Call Hash Sig → Prop) :
    World Hash Sig → List (ReplicaID × Decision Hash) → Prop where
  | start : History config correct ok (start config) []
  | step {w : World Hash Sig} {h : List (ReplicaID × Decision Hash)} {r : ReplicaID}
      {c : Call Hash Sig} {s : HotStuffCore Hash Sig} (hw : History config correct ok w h)
      (hr : correct r) (hshort : (w.core r).Short) (he : w.Enabled config correct r c)
      (hok : ok w r c) (hs : ((w.core r).call config c).state? = some s) :
      History config correct ok (w.after r s)
        (h ++ (s.decisions.drop (w.core r).decisions.length).map (r, ·))

theorem History.run (hw : History config correct ok w h) : Run config correct ok w := by
  induction hw with
  | start => exact .start
  | step _ hr hshort he hok hs ih => exact ih.step hr hshort he hok hs

theorem Run.history (hw : Run config correct ok w) : ∃ h, History config correct ok w h := by
  induction hw with
  | start => exact ⟨[], .start⟩
  | step _ hr hshort he hok hs ih =>
    obtain ⟨h, hh⟩ := ih
    exact ⟨_, hh.step hr hshort he hok hs⟩

/-- The history says of each replica what it has decided. -/
theorem History.reads (hw : History config correct ok w h) (r : ReplicaID) :
    shared_log.reads r h = (w.core r).decisions := by
  induction hw with
  | start => rfl
  | @step w h r' c s hw hr hshort he hok hs ih =>
    rw [shared_log.reads_append, ih]
    by_cases heq : r' = r
    · subst heq
      have hpre : (w.core r').decisions <+: s.decisions :=
        (HotStuffCore.call_out config (w.core r') c s hs).filterMap _
      obtain ⟨more, hmore⟩ := hpre
      simp [World.after, shared_log.reads_own, ← hmore]
    · rw [shared_log.reads_other heq, List.append_nil]
      simp [World.after, Ne.symm heq]

variable {hc : config.CollisionFree} {hi : config.Intersecting correct}

theorem History.decisions_of_faulty (hw : History config correct ok w h) {r : ReplicaID}
    (hr : ¬ correct r) : (w.core r).decisions = [] := by
  induction hw with
  | start => rfl
  | @step w h r' c s hw hr' hshort he hok hs ih =>
    have hne : r ≠ r' := fun heq => hr (heq ▸ hr')
    simpa [World.after, hne] using ih

omit [DecidableEq Hash] in
/-- Of two correct replicas one has decided all that the other has. -/
theorem Ok.decisions_linear (hok : w.Ok hc hi) (ho : w.Ordered hc hi)
    (hcmds : config.SameCommands) {r r' : ReplicaID} (hr : correct r) (hr' : correct r') :
    (w.core r).decisions <+: (w.core r').decisions ∨
      (w.core r').decisions <+: (w.core r).decisions := by
  have hpre : ∀ r r', correct r → correct r' →
      config.Above (w.core r').b_exec (w.core r).b_exec →
        (w.core r).decisions <+: (w.core r').decisions := by
    intro r r' hr hr' habove
    have hn := hok.node r hr
    have hn' := hok.node r' hr'
    have hlogs := (hn.log.branch hn.blocks).prefix_of_above hc (hn'.log.branch hn'.blocks) habove
    rw [hn.log.decisions, hn'.log.decisions]
    have hsame : (w.core r).log.flatMap (w.core r).block_decisions =
        (w.core r).log.flatMap (w.core r').block_decisions := by
      refine List.flatMap_congr fun x hx => ?_
      have hne : x ≠ config.b0 := fun heq =>
        (List.nodup_cons.mp (hn.log.gapless hn.blocks).nodup).1 (heq ▸ hx)
      exact hn.blocks.block_decisions_eq hn'.blocks hc hcmds hne (hn.log.delivered x hx)
        (hn'.log.delivered x (hlogs.subset hx))
    obtain ⟨more, hmore⟩ := hlogs
    rw [hsame, ← hmore, List.flatMap_append]
    exact List.prefix_append _ _
  have hn := hok.node r hr
  have hn' := hok.node r' hr'
  rcases hok.linear ho _ _ _ _ hn.secured
    (hn.blocks.depth_of_delivered (hn.log.exec_delivered hn.blocks.grounded)) hn'.secured
    (hn'.blocks.depth_of_delivered (hn'.log.exec_delivered hn'.blocks.grounded)) with ha | ha
  · exact .inr (hpre r' r hr' hr ha)
  · exact .inl (hpre r r' hr hr' ha)

omit [DecidableEq Hash] in
/-- What a correct replica has decided is below a certified block. -/
theorem Ok.certified_of_decided (hok : w.Ok hc hi) {r : ReplicaID} (hr : correct r)
    {d : Decision Hash} (hd : d ∈ (w.core r).decisions) :
    ∃ g, Certified config correct w.votes g ∧ config.Above g d.blk_hash := by
  have hn := hok.node r hr
  rw [hn.log.decisions] at hd
  obtain ⟨x, hx, hd⟩ := List.mem_flatMap.mp hd
  rw [(HotStuffCore.mem_block_decisions hd).2]
  have habove := above_of_log hn hx
  rcases hn.secured with heq | ⟨g, hg, hguards⟩
  · have hbranch := hn.log.branch hn.blocks
    rw [heq] at hbranch
    rw [hbranch.unique hc .genesis] at hx
    cases hx
  · refine ⟨g, hg, Relation.ReflTransGen.trans ?_ habove⟩
    unfold Guards at hguards
    split at hguards
    · exact .single hguards.2
    · obtain ⟨b1, -, hp1, -, hp⟩ := hguards
      exact .head hp1 (.single hp)

/-! ## One log -/

/-- As long as the correct replicas vote safely, what they decide is one log of commands, ordered by
block and number, which each of them reads from its start on, and all of it is certified. -/
theorem correct_replicas_read_one_log (hc : config.CollisionFree) (hcmds : config.SameCommands)
    (hi : config.Intersecting correct)
    (hw : History config correct (fun w r c => (w.core r).SafeCall c) w h) :
    ∃ l, shared_log.replay h = some l ∧
      (∀ r, (w.core r).decisions = l.entries.take (l.position r)) ∧
      l.entries.Pairwise Decision.Before ∧
      ∀ d ∈ l.entries, ∃ g, Certified config correct w.votes g ∧ config.Above g d.blk_hash := by
  have hok : Ok hc hi w := hw.run.keeps_ok
  have ho : w.Ordered hc hi := hw.run.ordered fun _ _ _ _ _ _ hsafe => hsafe
  have hlin : shared_log.Linear h := by
    intro r r'
    rw [hw.reads, hw.reads]
    by_cases hr : correct r
    · by_cases hr' : correct r'
      · exact hok.decisions_linear ho hcmds hr hr'
      · rw [hw.decisions_of_faulty hr']
        exact .inr List.nil_prefix
    · rw [hw.decisions_of_faulty hr]
      exact .inl List.nil_prefix
  obtain ⟨l, hl⟩ := Option.isSome_iff_exists.mp ((shared_log.replay_isSome_iff h).mpr hlin)
  have hfits := shared_log.replay_fits hl
  have hall : ∀ r, (w.core r).decisions = l.entries.take (l.position r) := fun r =>
    (hw.reads r).symm.trans (hfits.reads r)
  -- the log is what one correct replica has decided
  have hentries : l.entries = [] ∨ ∃ r, correct r ∧ l.entries = (w.core r).decisions := by
    rcases hfits.entries with hnil | ⟨r, hr⟩
    · exact .inl hnil
    · rw [hw.reads] at hr
      by_cases hcr : correct r
      · exact .inr ⟨r, hcr, hr⟩
      · exact .inl (hr.trans (hw.decisions_of_faulty hcr))
  refine ⟨l, hl, hall, ?_, fun d hd => ?_⟩
  · rcases hentries with hnil | ⟨r, hr, heq⟩
    · simp [hnil]
    · rw [heq]
      exact (hok.node r hr).log.decisions_before (hok.node r hr).blocks
  · rcases hentries with hnil | ⟨r, hr, heq⟩
    · rw [hnil] at hd
      cases hd
    · rw [heq] at hd
      exact hok.certified_of_decided hr hd

theorem coded_sameCommands (two_step : Bool) : (coded_replicas two_step).SameCommands := by
  intro data data' h
  have heq := Encodable.encode_injective (α := List ℕ × ℕ × List ℕ) h
  rw [Prod.mk.injEq, Prod.mk.injEq] at heq
  exact heq.2.2

theorem two_replicas_of_the_straight_run_read_one_log :
    ∃ w h, History (coded_replicas false) (· < 3) (fun w r c => (w.core r).SafeCall c) w h ∧
      chain_code 1 ∈ (w.core 0).log ∧ chain_code 2 ∈ (w.core 1).log ∧
      ∃ l, shared_log.replay h = some l ∧
        (∀ r, (w.core r).decisions = l.entries.take (l.position r)) ∧
        l.entries.Pairwise Decision.Before ∧
        ∀ d ∈ l.entries, ∃ g, Certified (coded_replicas false) (· < 3) w.votes g ∧
          (coded_replicas false).Above g d.blk_hash := by
  obtain ⟨w, hrun, -, hx, hy⟩ := straight_run_logs false
  obtain ⟨h, hh⟩ := (hrun.mono fun _ _ _ h => Direct.safeCall h).history
  exact ⟨w, h, hh, hx, hy, correct_replicas_read_one_log (coded_collisionFree false)
    (coded_sameCommands false) (coded_intersecting false) hh⟩

end World

end general_hotstuff
