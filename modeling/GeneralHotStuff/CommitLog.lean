-- The commit log of one replica is a chain of first parents from genesis, without gaps
-- or repetitions, whatever the replica is called with.
import Mathlib.Data.List.Chain
import GeneralHotStuff.StoredCertificates

namespace general_hotstuff

open quorums (ReplicaID)

/-- The block that is passed to `do_consensus`. -/
def Output.committed {Hash Sig : Type} : Output Hash Sig → Option Hash
  | .do_consensus blk => some blk
  | _ => none

/-- Whether the output comes from the commit loop. -/
def Output.isCommit {Hash Sig : Type} : Output Hash Sig → Bool
  | .do_consensus _ => true
  | .do_decide _ => true
  | _ => false

namespace HotStuffCore

variable {Hash Sig : Type}

/-! ## The log -/

/-- The blocks passed to `do_consensus`, in order. -/
def log (s : HotStuffCore Hash Sig) : List Hash := s.out.filterMap Output.committed

/-- What the commit loop passes on for one block: the block, then a decision for each of its
commands by increasing index. -/
def commit_outputs (s : HotStuffCore Hash Sig) (blk : Hash) : List (Output Hash Sig) :=
  .do_consensus blk :: ((s.storage blk).elim [] (·.cmds)).zipIdx.map fun (cmd, i) =>
    .do_decide ⟨s.id, 1, i, s.height blk, cmd, blk⟩

/-- The log leads along first parents from genesis to `b_exec`, its blocks are the decided ones,
and nothing else was passed on by the commit loop. -/
structure LogOk (config : Config Hash Sig) (s : HotStuffCore Hash Sig) : Prop where
  chain : List.IsChain (fun a b => (s.parents b).head? = some a) (config.b0 :: s.log)
  last : (config.b0 :: s.log).getLast? = some s.b_exec
  delivered : ∀ h ∈ s.log, s.delivered h = true
  decided : ∀ h, s.decision h = true ↔ h = config.b0 ∨ h ∈ s.log
  outputs : s.out.filter Output.isCommit = s.log.flatMap s.commit_outputs

theorem LogOk.b_exec_mem {config : Config Hash Sig} {s : HotStuffCore Hash Sig}
    (h : LogOk config s) (hne : s.b_exec ≠ config.b0) : s.b_exec ∈ s.log :=
  (List.mem_cons.mp (List.mem_of_getLast? h.last)).resolve_left hne

theorem LogOk.exec_delivered {config : Config Hash Sig} {s : HotStuffCore Hash Sig}
    (hok : Grounded config s) (h : LogOk config s) : s.delivered s.b_exec = true := by
  rcases List.mem_cons.mp (List.mem_of_getLast? h.last) with heq | hmem
  · rw [heq]
    exact hok.b0_delivered
  · exact h.delivered _ hmem

theorem commit_outputs_of_sameAt {s s' : HotStuffCore Hash Sig} {blk : Hash}
    (h : SameAt s s' blk) (hid : s'.id = s.id) : s'.commit_outputs blk = s.commit_outputs blk := by
  have hcmds : (s'.storage blk).elim [] (·.cmds) = (s.storage blk).elim [] (·.cmds) := by
    cases hb : s.storage blk with
    | none => rw [h.none hb]
    | some b =>
      obtain ⟨b', hb', hsh⟩ := h.block hb
      rw [hb']
      exact congrArg (·.cmds) hsh
  rw [commit_outputs, commit_outputs, hcmds, hid, h.height]

theorem filterMap_commit_outputs (s : HotStuffCore Hash Sig) (blks : List Hash) :
    (blks.flatMap s.commit_outputs).filterMap Output.committed = blks := by
  have hone : ∀ blk, (s.commit_outputs blk).filterMap Output.committed = [blk] := by
    intro blk
    rw [commit_outputs, List.filterMap_cons_some (f := Output.committed) (b := blk) rfl,
      List.filterMap_map]
    exact congrArg _ (List.filterMap_eq_nil_iff.mpr fun _ _ => rfl)
  induction blks with
  | nil => rfl
  | cons blk blks ih =>
    rw [List.flatMap_cons, List.filterMap_append, hone, ih, List.singleton_append]

theorem filter_commit_outputs (s : HotStuffCore Hash Sig) (blks : List Hash) :
    (blks.flatMap s.commit_outputs).filter Output.isCommit = blks.flatMap s.commit_outputs := by
  refine List.filter_eq_self.mpr fun o ho => ?_
  obtain ⟨blk, -, ho⟩ := List.mem_flatMap.mp ho
  rcases List.mem_cons.mp ho with rfl | ho
  · rfl
  · obtain ⟨_, -, rfl⟩ := List.mem_map.mp ho
    rfl

/-! ## Calls that commit nothing -/

/-- Between the states nothing is committed. -/
structure Quiet (s s' : HotStuffCore Hash Sig) : Prop where
  grows : Grows s s'
  id : s'.id = s.id
  b_exec : s'.b_exec = s.b_exec
  decision : ∀ h, s'.decision h = s.decision h
  out : ∃ more, s'.out = s.out ++ more ∧ ∀ o ∈ more, o.isCommit = false

theorem Quiet.trans {s s' s'' : HotStuffCore Hash Sig} (h : Quiet s s') (h' : Quiet s' s'') :
    Quiet s s'' where
  grows := h.grows.trans h'.grows
  id := h'.id.trans h.id
  b_exec := h'.b_exec.trans h.b_exec
  decision x := (h'.decision x).trans (h.decision x)
  out := by
    obtain ⟨more, heq, hmore⟩ := h.out
    obtain ⟨more', heq', hmore'⟩ := h'.out
    refine ⟨more ++ more', by rw [heq', heq, List.append_assoc], fun o ho => ?_⟩
    rcases List.mem_append.mp ho with ho | ho
    · exact hmore o ho
    · exact hmore' o ho

/-- The storage is the same, and what is passed on is not from the commit loop. -/
theorem Quiet.of_storage_eq {s s' : HotStuffCore Hash Sig} (h : s'.storage = s.storage)
    (hid : s'.id = s.id) (hexec : s'.b_exec = s.b_exec)
    (hout : ∃ more, s'.out = s.out ++ more ∧ ∀ o ∈ more, o.isCommit = false) : Quiet s s' where
  grows := (SameShape.of_storage_eq h).grows
  id := hid
  b_exec := hexec
  decision x := by rw [HotStuffCore.decision, h, HotStuffCore.decision]
  out := hout

theorem Quiet.refl (s : HotStuffCore Hash Sig) : Quiet s s :=
  .of_storage_eq rfl rfl rfl ⟨[], by simp, by simp⟩

theorem log_append {s s' : HotStuffCore Hash Sig} {more : List (Output Hash Sig)}
    (h : s'.out = s.out ++ more) (hmore : ∀ o ∈ more, o.isCommit = false) : s'.log = s.log := by
  have hnone : more.filterMap Output.committed = [] := by
    refine List.filterMap_eq_nil_iff.mpr fun o ho => ?_
    have := hmore o ho
    cases o with
    | do_consensus blk => simp [Output.isCommit] at this
    | do_decide fin => rfl
    | do_vote p v => rfl
    | do_broadcast_proposal p => rfl
    | certificate blk qc => rfl
  rw [log, h, List.filterMap_append, hnone, List.append_nil, log]

theorem LogOk.quiet {config : Config Hash Sig} {s s' : HotStuffCore Hash Sig}
    (hok : Grounded config s) (h : LogOk config s) (hq : Quiet s s') : LogOk config s' := by
  obtain ⟨more, hout, hmore⟩ := hq.out
  have hlog := log_append hout hmore
  have hdel : ∀ x ∈ config.b0 :: s.log, s.delivered x = true := by
    intro x hx
    rcases List.mem_cons.mp hx with rfl | hx
    · exact hok.b0_delivered
    · exact h.delivered x hx
  refine ⟨?_, ?_, ?_, ?_, ?_⟩
  · rw [hlog]
    refine h.chain.imp_of_mem_imp fun a b _ hb hab => ?_
    rw [(hq.grows.sameAt (hdel b hb)).parents]
    exact hab
  · rw [hlog, hq.b_exec, h.last]
  · intro x hx
    rw [hlog] at hx
    exact hq.grows.delivered (h.delivered x hx)
  · intro x
    rw [hlog, hq.decision]
    exact h.decided x
  · have hnone : more.filter Output.isCommit = [] :=
      List.filter_eq_nil_iff.mpr fun o ho => by simp [hmore o ho]
    rw [hlog, hout, List.filter_append, hnone, List.append_nil, h.outputs]
    refine List.flatMap_congr fun x hx => ?_
    exact (commit_outputs_of_sameAt (hq.grows.sameAt (h.delivered x hx)) hq.id).symm

/-- The walk below a delivered block meets delivered blocks only. -/
theorem walk_delivered {s : HotStuffCore Hash Sig}
    (hpar : ∀ {x p}, (s.parents x).head? = some p → s.delivered p = true) {blk : Hash}
    (hblk : s.delivered blk = true) {l : List Hash} (hhead : l.head? = some blk)
    (hchain : List.IsChain (fun a b => (s.parents a).head? = some b) l) :
    ∀ x ∈ l, s.delivered x = true := by
  induction l generalizing blk with
  | nil => simp
  | cons a l ih =>
    rw [List.head?_cons, Option.some.injEq] at hhead
    intro x hx
    rcases List.mem_cons.mp hx with rfl | hx
    · rw [hhead, hblk]
    · obtain ⟨y, hy⟩ : ∃ y, l.head? = some y := by
        cases l with
        | nil => cases hx
        | cons y l => exact ⟨y, rfl⟩
      have hay := (List.isChain_cons.mp hchain).1 y hy
      exact ih (hpar hay) hy (List.isChain_cons.mp hchain).2 x hx

variable [DecidableEq Hash]

theorem Quiet.put {s : HotStuffCore Hash Sig} {h : Hash} {b b' : Block Hash Sig}
    (hb : s.storage h = some b) (hg : Grows s (s.put h b')) (hdec : b'.decision = b.decision) :
    Quiet s (s.put h b') where
  grows := hg
  id := rfl
  b_exec := rfl
  decision x := by
    by_cases hx : x = h
    · rw [hx, decision_eq (storage_put_self s h b'), decision_eq hb, hdec]
    · rw [HotStuffCore.decision, storage_put_of_ne s b' hx, HotStuffCore.decision]
  out := ⟨[], by simp [HotStuffCore.put], by simp⟩

theorem Quiet.put_votes {s : HotStuffCore Hash Sig} {h : Hash} {b c : Block Hash Sig}
    (hb : s.storage h = some b) (hsh : shape c = shape b) (hdec : c.decision = b.decision) :
    Quiet s (s.put h c) := Quiet.put hb (put_sameShape hb hsh).grows hdec

theorem Quiet.put_new {s : HotStuffCore Hash Sig} {h : Hash} {b : Block Hash Sig}
    (hb : s.storage h = none) (hdec : b.decision = false) : Quiet s (s.put h b) where
  grows := Grows.put_new hb b
  id := rfl
  b_exec := rfl
  decision x := by
    by_cases hx : x = h
    · rw [hx, decision_eq (storage_put_self s h b), hdec]
      simp [HotStuffCore.decision, hb]
    · rw [HotStuffCore.decision, storage_put_of_ne s b hx, HotStuffCore.decision]
  out := ⟨[], by simp [HotStuffCore.put], by simp⟩

theorem on_deliver_blk_quiet (s : HotStuffCore Hash Sig) (blk : Hash) :
    (s.on_deliver_blk blk).Leaves (Quiet s) := by
  cases hb : s.storage blk with
  | none => simp [on_deliver_blk, hb]
  | some b =>
    cases hd : b.delivered with
    | true =>
      rw [on_deliver_blk_of_delivered hb hd, Outcome.leaves_ok]
      exact Quiet.refl s
    | false =>
      refine (on_deliver_blk_leaves hb hd).mono fun s' h => ?_
      obtain ⟨b', t, hdel, rfl, -⟩ := h
      have hput := Quiet.put hb (Grows.put hb hd hdel.toBlockData_eq) hdel.votes_eq.2.2
      exact hput.trans (.of_storage_eq rfl rfl rfl ⟨[], by simp, by simp⟩)

theorem store_proposed_quiet (config : Config Hash Sig) (s : HotStuffCore Hash Sig)
    (cmds : List Hash) (p : Hash) (ps : List Hash) (extra : List UInt8) :
    Quiet s (s.store_proposed config cmds p ps extra) := by
  cases hb : s.storage (config.get_hash (s.proposed cmds (p :: ps) extra)) with
  | none =>
    have hput := Quiet.put_new (b := with_empty_qc config
      (config.get_hash (s.proposed cmds (p :: ps) extra)) (s.new_block cmds p ps extra)) hb rfl
    rw [store_proposed_of_none hb]
    exact hput.trans (.of_storage_eq rfl rfl rfl ⟨[], by simp, by simp⟩)
  | some b =>
    have hput := Quiet.put_votes (c := with_empty_qc config
      (config.get_hash (s.proposed cmds (p :: ps) extra)) b) hb rfl rfl
    rw [store_proposed_of_some hb]
    exact hput.trans (.of_storage_eq rfl rfl rfl ⟨[], by simp, by simp⟩)

theorem vote_on_quiet (config : Config Hash Sig) (s : HotStuffCore Hash Sig)
    (prop : Proposal Hash) : (s.vote_on config prop).Leaves (Quiet s) := by
  rcases vote_on_cases config prop s with ⟨-, h⟩ | h | ⟨-, h⟩
  · exact h ▸ Outcome.leaves_undefined
  · exact h ▸ Outcome.leaves_ok.mpr (Quiet.refl s)
  · rw [h, Outcome.leaves_ok]
    refine .of_storage_eq rfl rfl rfl ⟨_, rfl, fun o ho => ?_⟩
    split at ho
    · cases ho
    · rw [List.mem_singleton.mp ho]
      rfl

theorem on_receive_vote_quiet (config : Config Hash Sig) (s : HotStuffCore Hash Sig)
    (vote : Vote Hash Sig) : (s.on_receive_vote config vote).Leaves (Quiet s) := by
  rcases on_receive_vote_cases config vote s with h | h | ⟨b, hb, -, -, -, h⟩
  · exact h ▸ Outcome.leaves_throw.mpr (Quiet.refl s)
  · exact h ▸ Outcome.leaves_ok.mpr (Quiet.refl s)
  · generalize s.on_receive_vote config vote = o at h ⊢
    cases h with
    | mismatch ha => exact Outcome.leaves_throw.mpr (Quiet.put_votes hb rfl rfl)
    | collected qc' ha hq => exact Outcome.leaves_ok.mpr (Quiet.put_votes hb rfl rfl)
    | computed qc' ha hq =>
      rw [Outcome.leaves_ok]
      have hput := Quiet.put_votes (c := { b with
        voted := insert vote.voter b.voted
        self_qc := some (qc'.compute config) }) hb rfl rfl
      exact hput.trans (.of_storage_eq rfl rfl rfl ⟨_, rfl, by simp [Output.isCommit]⟩)

/-! ## The commit loop -/

theorem commit_one_decision (s : HotStuffCore Hash Sig) {blk : Hash}
    (hblk : s.delivered blk = true) (h : Hash) :
    (s.commit_one blk).decision h = true ↔ s.decision h = true ∨ h = blk := by
  obtain ⟨b, hb, -⟩ := exists_of_delivered hblk
  have hst : (s.commit_one blk).storage = (s.put blk { b with decision := true }).storage := by
    rw [commit_one, modify_eq_put hb]
  by_cases hh : h = blk
  · simp [decision, hst, hh]
  · rw [decision, hst, storage_put_of_ne s _ hh, decision]
    simp [hh]

theorem commit_one_out (s : HotStuffCore Hash Sig) (blk : Hash) :
    (s.commit_one blk).out = s.out ++ s.commit_outputs blk := rfl

theorem commit_all_out (s : HotStuffCore Hash Sig) (blks : List Hash) :
    (blks.foldl commit_one s).out = s.out ++ blks.flatMap s.commit_outputs := by
  induction blks generalizing s with
  | nil => simp
  | cons blk blks ih =>
    have hcongr : blks.flatMap (s.commit_one blk).commit_outputs = blks.flatMap s.commit_outputs :=
      List.flatMap_congr fun x _ => commit_outputs_of_sameAt (commit_one_sameShape s blk x) rfl
    rw [List.foldl_cons, ih, hcongr, commit_one_out, List.flatMap_cons, List.append_assoc]

theorem commit_all_decision (s : HotStuffCore Hash Sig) {blks : List Hash}
    (hblks : ∀ x ∈ blks, s.delivered x = true) (h : Hash) :
    (blks.foldl commit_one s).decision h = true ↔ s.decision h = true ∨ h ∈ blks := by
  induction blks generalizing s with
  | nil => simp
  | cons blk blks ih =>
    have hdel : ∀ x ∈ blks, (s.commit_one blk).delivered x = true := fun x hx =>
      (commit_one_sameShape s blk x).delivered.trans (hblks x (List.mem_cons_of_mem _ hx))
    rw [List.foldl_cons, ih _ hdel, commit_one_decision s (hblks blk List.mem_cons_self),
      List.mem_cons, or_assoc]

/-- What a commit of `queue` up to `blk` does. -/
structure Committed (s : HotStuffCore Hash Sig) (blk : Hash) (queue : List Hash)
    (s' : HotStuffCore Hash Sig) : Prop where
  shape : SameShape s s'
  frame : ∃ storage out, s' = { s with b_exec := blk, storage := storage, out := out }
  out : s'.out = s.out ++ queue.flatMap s.commit_outputs
  decision : ∀ h, s'.decision h = true ↔ s.decision h = true ∨ h ∈ queue

theorem committed_of_foldl (s : HotStuffCore Hash Sig) (blk : Hash) {queue : List Hash}
    (hqueue : ∀ x ∈ queue, s.delivered x = true) :
    Committed s blk queue { queue.foldl commit_one s with b_exec := blk } := by
  obtain ⟨storage, out, hframe⟩ := commit_all_frame s queue
  have hsh := commit_all_sameShape s queue
  exact ⟨hsh.trans (.of_storage_eq rfl), ⟨storage, out, by rw [hframe]⟩, commit_all_out s queue,
    commit_all_decision s hqueue⟩

omit [DecidableEq Hash] in
/-- A queue that goes up from `b_exec` continues the log. -/
theorem LogOk.committed {config : Config Hash Sig} {s s' : HotStuffCore Hash Sig} {blk : Hash}
    {queue : List Hash} (h : LogOk config s) (hc : Committed s blk queue s')
    (hqueue : ∀ x ∈ queue, s.delivered x = true)
    (hup : List.IsChain (fun a b => (s.parents b).head? = some a) ([s.b_exec] ++ queue))
    (htop : ([s.b_exec] ++ queue).getLast? = some blk) : LogOk config s' := by
  obtain ⟨storage, out, hframe⟩ := hc.frame
  have hlog : s'.log = s.log ++ queue := by
    rw [log, hc.out, List.filterMap_append, filterMap_commit_outputs, log]
  obtain ⟨below, hbelow⟩ := List.getLast?_eq_some_iff.mp h.last
  refine ⟨?_, ?_, ?_, ?_, ?_⟩
  · have hlow := h.chain
    rw [hlog, ← List.cons_append]
    rw [hbelow] at hlow ⊢
    refine (hlow.append_overlap hup (by simp)).imp fun a b hab => ?_
    rw [(hc.shape b).parents, hab]
  · rw [hlog, ← List.cons_append, hbelow, List.append_assoc, List.getLast?_append, htop, hframe]
    rfl
  · intro x hx
    rw [(hc.shape x).delivered]
    rcases List.mem_append.mp (hlog ▸ hx) with hx | hx
    · exact h.delivered x hx
    · exact hqueue x hx
  · intro x
    rw [hlog, hc.decision, h.decided, List.mem_append, or_assoc]
  · rw [hlog, hc.out, List.filter_append, h.outputs, filter_commit_outputs, List.flatMap_append]
    have hid : s'.id = s.id := by rw [hframe]
    have hcongr : ∀ l : List Hash, l.flatMap s.commit_outputs = l.flatMap s'.commit_outputs :=
      fun l => List.flatMap_congr fun x _ => (commit_outputs_of_sameAt (hc.shape x) hid).symm
    rw [hcongr, hcongr]

theorem LogOk.commit {config : Config Hash Sig} {s : HotStuffCore Hash Sig}
    (hok : Grounded config s) (h : LogOk config s) {blk : Hash} (hblk : s.delivered blk = true) :
    (s.commit blk).Leaves (LogOk config) := by
  rcases commit_cases s blk with ⟨-, hc⟩ | hc | ⟨passed, hw, hc⟩
  · exact hc ▸ Outcome.leaves_undefined
  · exact hc ▸ Outcome.leaves_throw.mpr h
  rw [hc, Outcome.leaves_ok]
  obtain ⟨hhead, hchain, -, -⟩ := walk_spec hw
  have hdel := walk_delivered hok.parent_delivered hblk hhead hchain
  have hqueue : ∀ x ∈ passed.reverse, s.delivered x = true := fun x hx =>
    hdel x (List.mem_append_left _ (List.mem_reverse.mp hx))
  -- the blocks passed are the queue upside down
  have hflip : [s.b_exec] ++ passed.reverse = (passed ++ [s.b_exec]).reverse := by simp
  refine h.committed (committed_of_foldl s blk hqueue) hqueue ?_ ?_
  · rw [hflip, List.isChain_reverse]
    exact hchain
  · rw [hflip, List.getLast?_reverse, hhead]

/-! ## The log of a run -/

theorem LogOk.update {config : Config Hash Sig} {s : HotStuffCore Hash Sig}
    (hok : BlocksOk config s) (h : LogOk config s) (nblk : Hash) :
    (s.update config nblk).Leaves (LogOk config) := by
  cases hb : s.storage nblk with
  | none => simp [HotStuffCore.update, hb]
  | some b =>
    have ht : LogOk config (s.touched config nblk b) :=
      h.quiet hok.grounded (.of_storage_eq rfl rfl rfl ⟨[], by simp [touched], by simp⟩)
    rcases update_cases config hb with hu | ⟨-, hu⟩ | ⟨blk1, blk, hcommits, hu⟩
    · exact hu ▸ Outcome.leaves_ok.mpr ht
    · exact hu ▸ Outcome.leaves_undefined
    · have hokt : BlocksOk config (s.touched config nblk b) :=
        hok.of_sameShape (SameShape.of_storage_eq (s := s) rfl)
      rw [hu]
      exact ht.commit hokt.grounded (hok.parent_delivered hcommits.parent)

theorem kept_logOk (config : Config Hash Sig) :
    Kept config fun s : HotStuffCore Hash Sig => BlocksOk config s ∧ LogOk config s where
  update s nblk hs _ := fun s' hs' =>
    ⟨hs.1.of_sameShape (update_sameShape config s nblk s' hs'), hs.2.update hs.1 nblk s' hs'⟩
  vote_on s prop hs := fun s' hs' =>
    ⟨hs.1.of_sameShape (vote_on_sameShape config s prop s' hs'),
      hs.2.quiet hs.1.grounded (vote_on_quiet config s prop s' hs')⟩
  broadcast s _ hs :=
    ⟨hs.1.of_sameShape (SameShape.of_storage_eq (s := s) rfl),
      hs.2.quiet hs.1.grounded (.of_storage_eq rfl rfl rfl ⟨_, rfl, by simp [Output.isCommit]⟩)⟩

theorem call_logOk (config : Config Hash Sig) {s : HotStuffCore Hash Sig}
    (hok : BlocksOk config s) (h : LogOk config s) (hshort : s.Short) (c : Call Hash Sig) :
    (s.call config c).Leaves (LogOk config) := by
  have hk := kept_logOk config
  cases c with
  | add_blk data =>
    cases hb : s.storage (config.get_hash data) with
    | none =>
      rw [call_add_blk_of_none hb, Outcome.leaves_ok]
      exact h.quiet hok.grounded (Quiet.put_new hb rfl)
    | some b =>
      rw [call_add_blk_of_isSome (by simp [hb]), Outcome.leaves_ok]
      exact h
  | on_deliver_blk blk =>
    exact (on_deliver_blk_quiet s blk).mono fun _ hq => h.quiet hok.grounded hq
  | on_propose cmds parents extra =>
    refine (hk.on_propose ⟨hok, h⟩ cmds parents extra fun p ps _ => ?_).mono fun _ hs => hs.2
    intro s' hs'
    have hq := (store_proposed_quiet config s cmds p ps extra).trans
      (on_deliver_blk_quiet _ _ s' hs')
    exact ⟨deliver_proposed_blocksOk hok hshort cmds p ps extra s' hs', h.quiet hok.grounded hq⟩
  | on_receive_proposal prop =>
    exact (hk.on_receive_proposal ⟨hok, h⟩ prop).mono fun _ hs => hs.2
  | on_receive_vote vote =>
    exact (on_receive_vote_quiet config s vote).mono fun _ hq => h.quiet hok.grounded hq
  | set_vote_disabled f =>
    exact Outcome.leaves_ok.mpr
      (h.quiet hok.grounded (.of_storage_eq rfl rfl rfl ⟨[], by simp, by simp⟩))

theorem on_init_logOk (config : Config Hash Sig) (id : ReplicaID) :
    LogOk config (on_init config id) where
  chain := by simp [log, on_init]
  last := by simp [log, on_init]
  delivered h hh := by simp [log, on_init] at hh
  decided h := by
    by_cases hh : h = config.b0
    · simp [decision, on_init, hh, genesis]
    · simp [decision, log, on_init, hh]
  outputs := by simp [log, on_init]

theorem Run.logOk {config : Config Hash Sig} {id : ReplicaID}
    {ok : HotStuffCore Hash Sig → Call Hash Sig → Prop} (hok : ∀ s c, ok s c → s.Short)
    {s : HotStuffCore Hash Sig} (h : Run config id ok s) : LogOk config s := by
  induction h with
  | init => exact on_init_logOk config id
  | step hr hc hs ih =>
    exact call_logOk config (hr.blocksOk hok).1 ih (hok _ _ hc) _ _ hs

/-! ## What the log is -/

/-- The log leads along first parents from genesis and holds no block twice, and the commit loop
passed on each of its blocks with its decisions once. -/
structure GaplessLog (config : Config Hash Sig) (s : HotStuffCore Hash Sig) : Prop where
  chain : List.IsChain (fun a b => (s.parents b).head? = some a) (config.b0 :: s.log)
  nodup : (config.b0 :: s.log).Nodup
  outputs : s.out.filter Output.isCommit = s.log.flatMap s.commit_outputs

omit [DecidableEq Hash] in
theorem LogOk.gapless {config : Config Hash Sig} {s : HotStuffCore Hash Sig}
    (hok : BlocksOk config s) (h : LogOk config s) : GaplessLog config s := by
  refine ⟨h.chain, ?_, h.outputs⟩
  have hrise : List.IsChain (fun a b => s.height a < s.height b) (config.b0 :: s.log) := by
    refine h.chain.imp_of_mem_imp fun a b _ hb hab => ?_
    have hbd : s.delivered b = true := by
      rcases List.mem_cons.mp hb with rfl | hb
      · exact hok.b0_delivered
      · exact h.delivered b hb
    rw [hok.height_parent hbd hab]
    exact Nat.lt_succ_self _
  have htrans : IsTrans Hash fun a b => s.height a < s.height b :=
    ⟨fun _ _ _ => Nat.lt_trans⟩
  refine (List.isChain_iff_pairwise.mp hrise).imp fun hab heq => ?_
  rw [heq] at hab
  exact Nat.lt_irrefl _ hab

/-- An `update` that throws has committed nothing. -/
theorem update_throw_keeps_log {config : Config Hash Sig} {s s' : HotStuffCore Hash Sig}
    {nblk : Hash} {what : Fault} (h : s.update config nblk = .throw s' what) :
    s'.out = s.out ∧ s'.b_exec = s.b_exec := by
  cases hb : s.storage nblk with
  | none => simp [HotStuffCore.update, hb] at h
  | some b =>
    rcases update_cases config hb with hu | ⟨-, hu⟩ | ⟨blk1, blk, -, hu⟩
    · rw [hu] at h
      cases h
    · rw [hu] at h
      cases h
    · rw [hu] at h
      rcases commit_cases (s.touched config nblk b) blk with ⟨-, hc⟩ | hc | ⟨passed, -, hc⟩
      · rw [hc] at h
        cases h
      · rw [hc, Outcome.throw.injEq] at h
        rw [← h.1]
        exact ⟨rfl, rfl⟩
      · rw [hc] at h
        cases h

end HotStuffCore

end general_hotstuff
