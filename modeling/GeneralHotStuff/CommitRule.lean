-- The commit rule, stated without the state that `update` keeps: a replica has decided the blocks
-- below the heads that the certificates have led to whenever it called `update`, and no others.
-- The early returns of `update` leave none of them out.
import GeneralHotStuff.BlockLinks

namespace general_hotstuff

open quorums (ReplicaID)

namespace HotStuffCore

variable {Hash Sig : Type} [DecidableEq Hash]

/-! ## Heads -/

/-- The block of the certificate in `blk`, when it is `parents[0]` as well. -/
def direct_ref (s : HotStuffCore Hash Sig) (blk : Hash) : Option Hash :=
  (s.qc_ref blk).filter fun p => (s.parents blk).head? = some p

/-- The block that the certificates lead to from `nblk`, decided or not. -/
def committable (config : Config Hash Sig) (s : HotStuffCore Hash Sig) (nblk : Hash) :
    Option Hash :=
  (s.qc_ref nblk).bind fun blk2 =>
    if config.two_step then s.direct_ref blk2 else (s.direct_ref blk2).bind s.direct_ref

/-- The head of a call of `update` that returns. -/
def head_of_update (config : Config Hash Sig) (s : HotStuffCore Hash Sig) (nblk : Hash) :
    List Hash :=
  match s.update config nblk with
  | .ok _ => (s.committable config nblk).toList
  | _ => []

/-- The head of the call of `update` that `on_propose` makes. -/
def heads_of_propose (config : Config Hash Sig) (s : HotStuffCore Hash Sig) (cmds : List Hash)
    (parents : List Hash) (extra : List UInt8) : List Hash :=
  match parents with
  | [] => []
  | p :: ps =>
    let bnew := config.get_hash (s.proposed cmds (p :: ps) extra)
    match (s.store_proposed config cmds p ps extra).on_deliver_blk bnew with
    | .ok s1 => s1.head_of_update config bnew
    | _ => []

/-- The head of the call of `update` that `on_receive_proposal` makes. -/
def heads_of_proposal (config : Config Hash Sig) (s : HotStuffCore Hash Sig)
    (prop : Proposal Hash) : List Hash :=
  if prop.proposer = s.id then []
  else if s.delivered prop.blk then s.head_of_update config prop.blk
  else []

def heads (config : Config Hash Sig) (s : HotStuffCore Hash Sig) : Call Hash Sig → List Hash
  | .on_propose cmds parents extra => s.heads_of_propose config cmds parents extra
  | .on_receive_proposal prop => s.heads_of_proposal config prop
  | _ => []

/-- A state after any number of calls, with the heads of their updates. -/
inductive Traced (config : Config Hash Sig) (id : ReplicaID)
    (ok : HotStuffCore Hash Sig → Call Hash Sig → Prop) :
    List Hash → HotStuffCore Hash Sig → Prop where
  | init : Traced config id ok [] (on_init config id)
  | step {l : List Hash} {s s' : HotStuffCore Hash Sig} {c : Call Hash Sig}
      (hr : Traced config id ok l s) (hc : ok s c) (hs : (s.call config c).state? = some s') :
      Traced config id ok (l ++ s.heads config c) s'

section Step

variable {config : Config Hash Sig} {s s' : HotStuffCore Hash Sig} {l : List Hash}

theorem direct_ref_eq_some {blk p : Hash} : s.direct_ref blk = some p ↔
    s.qc_ref blk = some p ∧ (s.parents blk).head? = some p := by
  simp [direct_ref, Option.filter_eq_some_iff]

theorem Traced.run {id : ReplicaID} {ok : HotStuffCore Hash Sig → Call Hash Sig → Prop}
    (h : Traced config id ok l s) : Run config id ok s := by
  induction h with
  | init => exact .init
  | step _ hc hs ih => exact ih.step hc hs

/-- What `update` commits is the head. -/
theorem Commits.committable {nblk blk1 blk : Hash} (h : Commits config s nblk blk1 blk) :
    s.committable config nblk = some blk := by
  have hdirect : s.direct_ref blk1 = some blk :=
    direct_ref_eq_some.mpr ⟨(undecided_ref_eq_some.mp h.undecided_ref).1, h.parent⟩
  have hlock := h.lock_ref
  unfold HotStuffCore.committable
  cases htwo : config.two_step with
  | true =>
    rw [HotStuffCore.lock_ref, htwo, if_pos rfl] at hlock
    rw [(undecided_ref_eq_some.mp hlock).1, Option.bind_some, if_pos rfl, hdirect]
  | false =>
    obtain ⟨blk2, h1, h2, hp2⟩ := h.three_step htwo
    have hdirect2 : s.direct_ref blk2 = some blk1 :=
      direct_ref_eq_some.mpr ⟨(undecided_ref_eq_some.mp h2).1, hp2⟩
    rw [(undecided_ref_eq_some.mp h1).1, Option.bind_some, if_neg Bool.false_ne_true, hdirect2,
      Option.bind_some, hdirect]

/-- An undecided head is committed, since the blocks that lead to it are undecided as well. -/
theorem LogOk.commits_of_committable (hok : Grounded config s) (h : LogOk config s)
    {nblk blk : Hash} (hhead : s.committable config nblk = some blk)
    (hdec : s.decision blk = false) : ∃ blk1, Commits config s nblk blk1 blk := by
  -- a child of an undecided block is undecided
  have hchild : ∀ {x p : Hash}, s.direct_ref x = some p → s.decision p = false →
      s.undecided_ref x = some p ∧ (s.parents x).head? = some p ∧ s.decision x = false := by
    intro x p hx hp
    obtain ⟨href, hpar⟩ := direct_ref_eq_some.mp hx
    refine ⟨undecided_ref_eq_some.mpr ⟨href, hp⟩, hpar, ?_⟩
    rw [← Bool.not_eq_true]
    intro hdx
    rw [h.decided_parent hok hdx hpar] at hp
    cases hp
  obtain ⟨blk2, hqc, hrest⟩ := Option.bind_eq_some_iff.mp hhead
  cases htwo : config.two_step with
  | true =>
    rw [htwo, if_pos rfl] at hrest
    obtain ⟨href, hpar, hdec2⟩ := hchild hrest hdec
    refine ⟨blk2, ?_, href, hpar, by simp [htwo]⟩
    rw [HotStuffCore.lock_ref, htwo, if_pos rfl, undecided_ref_eq_some]
    exact ⟨hqc, hdec2⟩
  | false =>
    rw [htwo, if_neg Bool.false_ne_true] at hrest
    obtain ⟨blk1, h1, h2⟩ := Option.bind_eq_some_iff.mp hrest
    obtain ⟨href, hpar, hdec1⟩ := hchild h2 hdec
    obtain ⟨href1, hpar1, hdec2⟩ := hchild h1 hdec1
    have hund : s.undecided_ref nblk = some blk2 := undecided_ref_eq_some.mpr ⟨hqc, hdec2⟩
    refine ⟨blk1, ?_, href, hpar, fun _ => ⟨blk2, hund, href1, hpar1⟩⟩
    rw [HotStuffCore.lock_ref, htwo, if_neg Bool.false_ne_true, hund, Option.bind_some, href1]

/-! ## What one call decides -/

/-- The heads are decided, and the last commit is one of them. -/
structure Exact (config : Config Hash Sig) (l : List Hash) (s : HotStuffCore Hash Sig) : Prop where
  heads : ∀ blk ∈ l, s.decision blk = true
  exec : s.b_exec = config.b0 ∨ s.b_exec ∈ l

omit [DecidableEq Hash] in
theorem Exact.quiet (h : Exact config l s) (hq : Quiet s s') : Exact config l s' where
  heads blk hblk := (hq.decision blk).trans (h.heads blk hblk)
  exec := by
    rw [hq.b_exec]
    exact h.exec

/-- A call of `update` that throws decides nothing. -/
theorem Exact.of_throw (h : Exact config l s) (hok : BlocksOk config s) (hlog : LogOk config s)
    {nblk : Hash} {what : Fault} (hu : s.update config nblk = .throw s' what) :
    Exact config l s' := by
  obtain ⟨hout, hexec⟩ := update_throw_keeps_log hu
  have hlog' := hlog.update hok nblk s' (by rw [hu]; rfl)
  have hsame : s'.log = s.log := by rw [HotStuffCore.log, hout, HotStuffCore.log]
  refine ⟨fun blk hblk => ?_, ?_⟩
  · rw [hlog'.decided, hsame, ← hlog.decided]
    exact h.heads blk hblk
  · rw [hexec]
    exact h.exec

omit [DecidableEq Hash] in
theorem LogOk.b_exec_decided (h : LogOk config s) : s.decision s.b_exec = true :=
  (h.decided _).mpr (List.mem_cons.mp (List.mem_of_getLast? h.last))

/-- Without a commit no head is left undecided, since the head would have been committed. -/
theorem LogOk.decided_of_no_commit (hok : Grounded config s) (h : LogOk config s)
    {nblk blk : Hash} {b : Block Hash Sig} (hb : s.storage nblk = some b)
    (hu : s.update config nblk = .ok (s.touched config nblk b))
    (hhead : s.committable config nblk = some blk) : s.decision blk = true := by
  by_contra hdec
  obtain ⟨blk1, hcom⟩ := h.commits_of_committable hok hhead (Bool.not_eq_true _ ▸ hdec)
  have hcommit := update_of_commits hb hcom
  rw [hu] at hcommit
  rcases commit_cases (s.touched config nblk b) blk with ⟨-, hc⟩ | hc | ⟨passed, -, hc⟩
  · rw [hc] at hcommit
    cases hcommit
  · rw [hc] at hcommit
    cases hcommit
  · rw [hc, Outcome.ok.injEq] at hcommit
    have hexec : s.b_exec = blk := congrArg HotStuffCore.b_exec hcommit
    exact hdec (hexec ▸ h.b_exec_decided)

/-- A call of `update` that returns has decided its head, and only a head becomes `b_exec`. -/
theorem LogOk.update_ok (hok : BlocksOk config s) (h : LogOk config s) {nblk : Hash}
    (hd : s.delivered nblk = true) (hu : s.update config nblk = .ok s') :
    (∀ blk, s.committable config nblk = some blk → s'.decision blk = true) ∧
      (s'.b_exec = s.b_exec ∨ s.committable config nblk = some s'.b_exec) := by
  obtain ⟨b, hb, -⟩ := exists_of_delivered hd
  have hlog' := h.update hok nblk s' (by rw [hu]; rfl)
  rcases update_cases config hb with hu' | ⟨-, hu'⟩ | ⟨blk1, blk, hcom, hu'⟩
  · have hnone : ∀ blk, s.committable config nblk = some blk → s.decision blk = true :=
      fun _ => h.decided_of_no_commit hok.grounded hb hu'
    rw [hu'] at hu
    cases hu
    exact ⟨hnone, .inl rfl⟩
  · rw [hu'] at hu
    cases hu
  · rw [hu'] at hu
    rcases commit_cases (s.touched config nblk b) blk with ⟨-, hc⟩ | hc | ⟨passed, -, hc⟩
    · rw [hc] at hu
      cases hu
    · rw [hc] at hu
      cases hu
    · rw [hc] at hu
      cases hu
      refine ⟨fun x hx => ?_, .inr hcom.committable⟩
      rw [hcom.committable, Option.some.injEq] at hx
      exact hx ▸ hlog'.b_exec_decided

theorem Exact.of_ok (h : Exact config l s) (hok : BlocksOk config s) (hlog : LogOk config s)
    {nblk : Hash} (hd : s.delivered nblk = true) (hu : s.update config nblk = .ok s') :
    Exact config (l ++ s.head_of_update config nblk) s' := by
  obtain ⟨b, hb, -⟩ := exists_of_delivered hd
  obtain ⟨hheads, hexec⟩ := hlog.update_ok hok hd hu
  have hlist : s.head_of_update config nblk = (s.committable config nblk).toList := by
    unfold head_of_update
    rw [hu]
  have hkeep := (update_leaves config hb s' (by rw [hu]; rfl)).decision
  rw [hlist]
  refine ⟨fun blk hblk => ?_, ?_⟩
  · rcases List.mem_append.mp hblk with hblk | hblk
    · exact hkeep blk (h.heads blk hblk)
    · exact hheads blk (Option.mem_toList.mp hblk)
  · rcases hexec with heq | hhead
    · exact heq ▸ h.exec.imp_right (List.mem_append_left _)
    · exact .inr (List.mem_append_right _ (Option.mem_toList.mpr hhead))

/-! ## Runs -/

theorem update_ok_id {nblk : Hash} (hu : s.update config nblk = .ok s') : s'.id = s.id := by
  cases hb : s.storage nblk with
  | none => simp [HotStuffCore.update, hb] at hu
  | some b =>
    rcases update_cases config hb with hu' | ⟨-, hu'⟩ | ⟨blk1, blk, -, hu'⟩
    · rw [hu'] at hu
      cases hu
      rfl
    · rw [hu'] at hu
      cases hu
    · rw [hu'] at hu
      rcases commit_cases (s.touched config nblk b) blk with ⟨-, hc⟩ | hc | ⟨passed, -, hc⟩
      · rw [hc] at hu
        cases hu
      · rw [hc] at hu
        cases hu
      · rw [hc] at hu
        cases hu
        obtain ⟨storage, out, hframe⟩ := commit_all_frame (s.touched config nblk b) passed.reverse
        rw [hframe]
        rfl

/-- What follows a call of `update` commits nothing. -/
theorem Exact.update_then (h : Exact config l s) (hok : BlocksOk config s) (hlog : LogOk config s)
    {nblk : Hash} (hd : s.delivered nblk = true)
    {next : HotStuffCore Hash Sig → Outcome (HotStuffCore Hash Sig)}
    (hnext : ∀ s1, s1.id = s.id → (next s1).Leaves (Quiet s1)) :
    ((s.update config nblk).andThen next).Leaves
      (Exact config (l ++ s.head_of_update config nblk)) := by
  intro s' hs'
  cases hu : s.update config nblk with
  | ok s1 =>
    rw [hu] at hs'
    exact (h.of_ok hok hlog hd hu).quiet (hnext s1 (update_ok_id hu) s' hs')
  | throw s1 what =>
    rw [hu] at hs'
    cases hs'
    have hnil : s.head_of_update config nblk = [] := by
      unfold head_of_update
      rw [hu]
    rw [hnil, List.append_nil]
    exact h.of_throw hok hlog hu
  | undefined =>
    rw [hu] at hs'
    cases hs'

theorem Exact.on_receive_proposal (h : Exact config l s) (hok : BlocksOk config s)
    (hlog : LogOk config s) (prop : Proposal Hash) :
    (s.on_receive_proposal config prop).Leaves
      (Exact config (l ++ s.heads_of_proposal config prop)) := by
  unfold HotStuffCore.on_receive_proposal heads_of_proposal
  split
  · rw [List.append_nil]
    exact (vote_on_quiet config s prop).mono fun _ hq => h.quiet hq
  · split
    · rename_i hd
      exact h.update_then hok hlog hd fun s1 _ => vote_on_quiet config s1 prop
    · rw [List.append_nil]
      exact Outcome.leaves_throw.mpr h

/-- The replica's own proposal is not updated with again. -/
theorem propose_to_self_quiet (prop : Proposal Hash) (hself : prop.proposer = s.id) :
    ((s.on_receive_proposal config prop).andThen fun s3 =>
      .ok { s3 with out := s3.out ++ [.do_broadcast_proposal prop] }).Leaves (Quiet s) := by
  unfold HotStuffCore.on_receive_proposal
  rw [if_pos hself]
  refine (vote_on_quiet config s prop).andThen fun s3 _ hq => Outcome.leaves_ok.mpr (hq.trans ?_)
  exact .of_storage_eq rfl rfl rfl ⟨_, rfl, by simp [Output.isCommit]⟩

theorem Exact.on_propose (h : Exact config l s) (hok : BlocksOk config s)
    (hlog : LogOk config s) (hshort : s.Short) (cmds parents : List Hash) (extra : List UInt8) :
    (s.on_propose config cmds parents extra).Leaves
      (Exact config (l ++ s.heads_of_propose config cmds parents extra)) := by
  unfold HotStuffCore.on_propose heads_of_propose
  split
  · rw [List.append_nil]
    exact Outcome.leaves_throw.mpr h
  · rename_i p ps
    dsimp only
    have hquiet := fun s' hs' => (store_proposed_quiet config s cmds p ps extra).trans
      (on_deliver_blk_quiet _ (config.get_hash (s.proposed cmds (p :: ps) extra)) s' hs')
    have hblocks := deliver_proposed_blocksOk hok hshort cmds p ps extra
    cases hdel : (s.store_proposed config cmds p ps extra).on_deliver_blk
      (config.get_hash (s.proposed cmds (p :: ps) extra)) with
    | ok s1 =>
      rw [hdel] at hquiet hblocks
      have hq := hquiet s1 rfl
      refine (h.quiet hq).update_then (hblocks s1 rfl) (hlog.quiet hok.grounded hq)
        (delivered_of_on_deliver_blk hdel) fun s2 hid => ?_
      split
      · exact Outcome.leaves_throw.mpr (Quiet.refl s2)
      · exact propose_to_self_quiet _ (hid.trans hq.id).symm
    | throw s1 what =>
      rw [hdel] at hquiet
      rw [List.append_nil]
      exact Outcome.leaves_throw.mpr (h.quiet (hquiet s1 rfl))
    | undefined => exact Outcome.leaves_undefined

theorem Exact.call (h : Exact config l s) (hok : BlocksOk config s) (hlog : LogOk config s)
    (hshort : s.Short) (c : Call Hash Sig) :
    (s.call config c).Leaves (Exact config (l ++ s.heads config c)) := by
  cases c with
  | add_blk data =>
    unfold HotStuffCore.heads
    rw [List.append_nil]
    cases hb : s.storage (config.get_hash data) with
    | none =>
      rw [call_add_blk_of_none hb, Outcome.leaves_ok]
      exact h.quiet (Quiet.put_new hb rfl)
    | some b =>
      rw [call_add_blk_of_isSome (by simp [hb]), Outcome.leaves_ok]
      exact h
  | on_deliver_blk blk =>
    unfold HotStuffCore.heads
    rw [List.append_nil]
    exact (on_deliver_blk_quiet s blk).mono fun _ hq => h.quiet hq
  | on_propose cmds parents extra => exact h.on_propose hok hlog hshort cmds parents extra
  | on_receive_proposal prop => exact h.on_receive_proposal hok hlog prop
  | on_receive_vote vote =>
    unfold HotStuffCore.heads
    rw [List.append_nil]
    exact (on_receive_vote_quiet config s vote).mono fun _ hq => h.quiet hq
  | set_vote_disabled f =>
    unfold HotStuffCore.heads
    rw [List.append_nil]
    exact Outcome.leaves_ok.mpr (h.quiet (.of_storage_eq rfl rfl rfl ⟨[], by simp, by simp⟩))

/-- In every run, with any blocks and any order of calls, exactly the blocks below genesis and the
heads of the updates are decided, and the last of them is genesis or a head. -/
theorem the_blocks_below_the_heads_are_decided {id : ReplicaID}
    {ok : HotStuffCore Hash Sig → Call Hash Sig → Prop} (hshort : ∀ s c, ok s c → s.Short)
    (h : Traced config id ok l s) :
    (∀ x, s.decision x = true ↔ ∃ blk ∈ config.b0 :: l, s.above blk x) ∧
      s.b_exec ∈ config.b0 :: l := by
  have hlog := h.run.logOk hshort
  have hok := (h.run.blocksOk hshort).1
  have hexact : Exact config l s := by
    induction h with
    | init => exact ⟨by simp, .inl rfl⟩
    | step hr hc hs ih =>
      have hok := (hr.run.blocksOk hshort).1
      have hlog := hr.run.logOk hshort
      exact (ih hlog hok).call hok hlog (hshort _ _ hc) _ _ hs
  have hexec : s.b_exec ∈ config.b0 :: l := by
    rcases hexact.exec with heq | hmem
    · rw [heq]
      exact List.mem_cons_self
    · exact List.mem_cons_of_mem _ hmem
  refine ⟨fun x => ⟨fun hx => ⟨_, hexec, hlog.above_of_decided hx⟩, ?_⟩, hexec⟩
  rintro ⟨blk, hblk, hx⟩
  have hdec : s.decision blk = true := by
    rcases List.mem_cons.mp hblk with rfl | hmem
    · exact (hlog.decided _).mpr (.inl rfl)
    · exact hexact.heads blk hmem
  exact hlog.decided_of_above hok.grounded ((hlog.above_of_decided hdec).trans hx)

/-- The heads of the calls one after the other. -/
def heads_of_calls (config : Config Hash Sig) (s : HotStuffCore Hash Sig) :
    List (Call Hash Sig) → List Hash
  | [] => []
  | c :: cs => s.heads config c ++
    (((s.call config c).state?.map fun s' => heads_of_calls config s' cs).getD [])

theorem Traced.play {id : ReplicaID} {ok : HotStuffCore Hash Sig → Call Hash Sig → Prop}
    [∀ s c, Decidable (ok s c)] {cs : List (Call Hash Sig)} (h : Traced config id ok l s)
    (hs : HotStuffCore.play config ok s cs = some s') :
    Traced config id ok (l ++ heads_of_calls config s cs) s' := by
  induction cs generalizing l s with
  | nil =>
    rw [HotStuffCore.play, Option.some.injEq] at hs
    rw [heads_of_calls, List.append_nil]
    exact hs ▸ h
  | cons c cs ih =>
    rw [HotStuffCore.play] at hs
    split at hs
    · rename_i hc
      obtain ⟨s1, hs1, hs⟩ := Option.bind_eq_some_iff.mp hs
      rw [heads_of_calls, hs1, ← List.append_assoc]
      exact ih (h.step hc hs1) hs
    · cases hs

end Step

theorem the_first_of_four_blocks_in_a_row_is_the_head :
    ∃ s, Traced (four_replicas false) 0 Proper [hash_of 1] s ∧
      (∀ x, s.decision x = true ↔ ∃ blk ∈ [(four_replicas false).b0, hash_of 1], s.above blk x) ∧
      s.b_exec ∈ [(four_replicas false).b0, hash_of 1] := by
  obtain ⟨s, hs⟩ := Option.isSome_iff_exists.mp
    (show (play (four_replicas false) Proper (on_init (four_replicas false) 0)
      four_in_a_row).isSome by decide +kernel)
  have hheads : heads_of_calls (four_replicas false) (on_init (four_replicas false) 0)
      four_in_a_row = [hash_of 1] := by
    decide +kernel
  have htraced := Traced.init.play hs
  rw [hheads, List.nil_append] at htraced
  exact ⟨s, htraced, the_blocks_below_the_heads_are_decided (fun _ _ => Proper.short) htraced⟩

end HotStuffCore

end general_hotstuff
