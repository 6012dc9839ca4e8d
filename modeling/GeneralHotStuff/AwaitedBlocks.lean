-- When a block that is waited for is in the storage: never, unless a proposal brings one
-- that another message has asked for before.
import GeneralHotStuff.BlockFetching
import GeneralHotStuff.DefinedCalls

namespace general_hotstuff

open quorums (ReplicaID)
open transitions

namespace HotStuffBase

variable {Hash Sig PeerId : Type} [DecidableEq Hash]

/-! ## No stored block is waited for -/

/-- No block is in the storage and waited for. -/
def Apart (s : HotStuffBase Hash Sig PeerId) : Prop :=
  ∀ h, s.Unawaited h ∨ s.core.storage h = none

omit [DecidableEq Hash] in
theorem Apart.asks {s s' : HotStuffBase Hash Sig PeerId} (h : s.Apart) (hs : Asks s s') :
    s'.Apart := by
  intro x
  rw [hs.core]
  rcases hs.entries x with hu | hu | hn
  · exact .inl hu
  · exact .inr ((h x).resolve_left hu)
  · exact .inr hn

/-- Everything that the handler has not announced yet may be waited for. -/
theorem announced_apart {fuel : ℕ} {hashes : List Hash} {s s' : HotStuffBase Hash Sig PeerId}
    (hs : ∀ h, s.Unawaited h ∨ s.core.storage h = none ∨ h ∈ hashes)
    (h : hashes.foldlM (on_fetch_blk fuel) s = some s') : s'.Apart := by
  induction hashes generalizing s with
  | nil =>
    obtain rfl := Option.some.inj h
    exact fun x => (hs x).imp_right fun h => h.resolve_right List.not_mem_nil
  | cons y ys ih =>
    rw [List.foldlM_cons] at h
    obtain ⟨s1, h1, h⟩ := Option.bind_eq_some_iff.mp h
    obtain ⟨hask, hdone⟩ := on_fetch_blk_asks h1
    refine ih (fun x => ?_) h
    rw [hask.core]
    rcases hask.entries x with hu | hu | hn
    · exact .inl hu
    · rcases (hs x).resolve_left hu with hn | hmem
      · exact .inr (.inl hn)
      · rcases List.mem_cons.mp hmem with rfl | hmem
        · exact .inl hdone
        · exact .inr (.inr hmem)
    · exact .inr (.inl hn)

theorem add_blk_storage (config : Config Hash Sig) (s : HotStuffBase Hash Sig PeerId)
    (data : BlockData Hash Sig) (h : Hash) (hn : s.core.storage h = none)
    (hne : h ≠ config.get_hash data) : (s.add_blk config data).core.storage h = none := by
  simp only [add_blk, EntityStorage.add_blk]
  split
  · exact hn
  · exact (Function.update_of_ne hne ..).trans hn

theorem Apart.add_blk {s : HotStuffBase Hash Sig PeerId} (h : s.Apart) {config : Config Hash Sig}
    {data : BlockData Hash Sig} (hu : s.Unawaited (config.get_hash data)) :
    (s.add_blk config data).Apart := by
  intro x
  by_cases hx : x = config.get_hash data
  · exact .inl (hx ▸ hu)
  · exact (h x).imp_right fun hn => add_blk_storage config s data x hn hx

theorem parsed_apart {s : HotStuffBase Hash Sig PeerId} (h : s.Apart) (config : Config Hash Sig)
    (blks : List (BlockData Hash Sig)) (x : Hash) :
    (blks.foldl (fun s data => s.add_blk config data) s).Unawaited x ∨
      (blks.foldl (fun s data => s.add_blk config data) s).core.storage x = none ∨
        x ∈ blks.map config.get_hash := by
  by_cases hmem : x ∈ blks.map config.get_hash
  · exact .inr (.inr hmem)
  · have hsame : ∀ s : HotStuffBase Hash Sig PeerId, s.Unawaited x ∨ s.core.storage x = none →
        (blks.foldl (fun s data => s.add_blk config data) s).Unawaited x ∨
          (blks.foldl (fun s data => s.add_blk config data) s).core.storage x = none := by
      induction blks with
      | nil => exact fun s hs => hs
      | cons data blks ih =>
        rw [List.map_cons, List.mem_cons, not_or] at hmem
        refine fun s hs => ih hmem.2 _ (hs.imp_right fun hn => ?_)
        exact add_blk_storage config s data x hn hmem.1
    exact (hsame s (h x)).imp_right .inl

theorem on_deliver_blk_missing {blk_hash : Hash} {s t : HotStuffBase Hash Sig PeerId}
    (h : s.on_deliver_blk blk_hash = some t) {x : Hash} (hn : s.core.storage x = none) :
    t.core.storage x = none := by
  have hstores := HotStuffCore.on_deliver_blk_stores s.core blk_hash
  unfold on_deliver_blk at h
  split at h
  · rename_i core hcore
    rw [hcore, Outcome.leaves_ok] at hstores
    exact Option.some.inj h ▸ hstores x hn
  · rename_i core what hcore
    rw [hcore, Outcome.leaves_throw] at hstores
    exact Option.some.inj h ▸ hstores x hn
  · cases h

/-- A call of the core stores at most the block that it proposes. -/
theorem Apart.call {config : Config Hash Sig} {s t : HotStuffBase Hash Sig PeerId} (h : s.Apart)
    {c : HotStuffCore.Call Hash Sig} (hadd : ∀ data, c ≠ .add_blk data)
    (hprop : ∀ cmds parents extra, c = .on_propose cmds parents extra →
      s.Unawaited (config.get_hash (s.core.proposed cmds parents extra)))
    (hs : s.call config c = some t) : t.Apart := by
  obtain ⟨core, hcore, rfl⟩ := Option.map_eq_some_iff.mp hs
  intro x
  rcases h x with hu | hn
  · exact .inl hu
  · rcases HotStuffCore.call_stores config s.core c hadd core hcore x hn with
      hn | ⟨_, _, _, hc, rfl⟩
    · exact .inr hn
    · exact .inl (hprop _ _ _ hc)

theorem Apart.handle [DecidableEq PeerId] {config : Config Hash Sig}
    {get_peer_id : ReplicaID → Option PeerId} {fuel : ℕ} {peer : Option PeerId}
    {msg : Message Hash Sig} {s t : HotStuffBase Hash Sig PeerId} (h : s.Apart)
    (hok : s.Timely config (.message fuel peer msg))
    (he : s.handle config get_peer_id fuel peer msg = some t) : t.Apart := by
  cases msg with
  | resp_blk blks => exact announced_apart (parsed_apart h config blks) he
  | propose proposer data =>
    cases peer with
    | none => exact Option.some.inj he ▸ h
    | some peer =>
      have hadd : (s.add_blk config data).Apart := h.add_blk hok
      simp only [HotStuffBase.handle, propose_handler] at he
      split at he
      · exact Option.some.inj he ▸ hadd
      · exact hadd.asks (async_deliver_blk_asks he)
  | vote vote =>
    cases peer with
    | none => exact Option.some.inj he ▸ h
    | some peer => exact h.asks (async_deliver_blk_asks he)
  | req_blk blk_hashes =>
    cases peer with
    | none => exact Option.some.inj he ▸ h
    | some peer => exact Option.some.inj he ▸ h.asks (req_blk_handler_asks s peer blk_hashes)

theorem Apart.step [DecidableEq PeerId] {config : Config Hash Sig}
    {get_peer_id : ReplicaID → Option PeerId} {s t : HotStuffBase Hash Sig PeerId}
    {e : Event Hash Sig PeerId} (h : s.Apart) (hok : s.Timely config e)
    (he : s.step config get_peer_id e = some t) : t.Apart := by
  cases e with
  | message fuel peer msg => exact h.handle hok he
  | on_deliver_blk blk_hash =>
    have hwait : t.blk_fetch_waiting = s.blk_fetch_waiting := by
      simp only [HotStuffBase.step, on_deliver_blk] at he
      split at he
      · exact Option.some.inj he ▸ rfl
      · exact Option.some.inj he ▸ rfl
      · cases he
    intro x
    unfold Unawaited
    rw [hwait]
    exact (h x).imp_right (on_deliver_blk_missing he)
  | on_receive_proposal prop =>
    exact h.call (fun _ hc => by cases hc) (fun _ _ _ hc => by cases hc) he
  | on_receive_vote vote =>
    exact h.call (fun _ hc => by cases hc) (fun _ _ _ hc => by cases hc) he
  | on_propose cmds parents extra =>
    refine h.call (fun _ hc => by cases hc) (fun _ _ _ hc => ?_) he
    cases hc
    exact hok

/-! ## In every reachable state a handler returns -/

/-- A message changes the core only by the blocks that it carries. -/
theorem handle_core [DecidableEq PeerId] {config : Config Hash Sig}
    {get_peer_id : ReplicaID → Option PeerId} {fuel : ℕ} {peer : Option PeerId}
    {msg : Message Hash Sig} {s t : HotStuffBase Hash Sig PeerId}
    (h : s.handle config get_peer_id fuel peer msg = some t) :
    ∃ blks : List (BlockData Hash Sig),
      t.core = (blks.foldl (fun s data => s.add_blk config data) s).core := by
  cases msg with
  | resp_blk blks =>
    have hasks : Asks (blks.foldl (fun s data => s.add_blk config data) s) t :=
      foldlM_keeps (fun _ _ _ _ hs he => hs.trans (on_fetch_blk_asks he).1) (.refl _) h
    exact ⟨blks, hasks.core⟩
  | propose proposer data =>
    cases peer with
    | none => exact ⟨[], Option.some.inj h ▸ rfl⟩
    | some peer =>
      simp only [handle, propose_handler] at h
      split at h
      · exact ⟨[data], Option.some.inj h ▸ rfl⟩
      · exact ⟨[data], (async_deliver_blk_asks h).core⟩
  | vote vote =>
    cases peer with
    | none => exact ⟨[], Option.some.inj h ▸ rfl⟩
    | some peer => exact ⟨[], (async_deliver_blk_asks h).core⟩
  | req_blk blk_hashes =>
    cases peer with
    | none => exact ⟨[], Option.some.inj h ▸ rfl⟩
    | some peer => exact ⟨[], Option.some.inj h ▸ (req_blk_handler_asks s peer blk_hashes).core⟩

def FinitelyStored (s : HotStuffBase Hash Sig PeerId) : Prop :=
  ∃ F : Finset Hash, ∀ h, (s.core.storage h).isSome → h ∈ F

theorem FinitelyStored.call {config : Config Hash Sig} {s t : HotStuffBase Hash Sig PeerId}
    (hs : s.FinitelyStored) {c : HotStuffCore.Call Hash Sig} (ht : s.call config c = some t) :
    t.FinitelyStored := by
  obtain ⟨core, hcore, rfl⟩ := Option.map_eq_some_iff.mp ht
  exact HotStuffCore.Bounded.call hs config c core hcore

theorem FinitelyStored.step [DecidableEq PeerId] {config : Config Hash Sig}
    {get_peer_id : ReplicaID → Option PeerId} {s t : HotStuffBase Hash Sig PeerId}
    {e : Event Hash Sig PeerId} (hs : s.FinitelyStored)
    (he : s.step config get_peer_id e = some t) : t.FinitelyStored := by
  cases e with
  | message fuel peer msg =>
    obtain ⟨F, hF⟩ := hs
    obtain ⟨blks, hcore⟩ := handle_core he
    unfold FinitelyStored
    rw [hcore]
    exact parsed_stored config blks hF
  | on_deliver_blk blk_hash =>
    exact HotStuffCore.Bounded.of_new hs ∅ fun h hn => .inl (on_deliver_blk_missing he hn)
  | on_receive_proposal prop => exact hs.call he
  | on_receive_vote vote => exact hs.call he
  | on_propose cmds parents extra => exact hs.call he

theorem FinitelyStored.of_runs [DecidableEq PeerId] {config : Config Hash Sig}
    {get_peer_id : ReplicaID → Option PeerId} {id : ReplicaID} {s : HotStuffBase Hash Sig PeerId}
    (h : Runs (HotStuffBase.step config get_peer_id) Anything (start config id) s) :
    s.FinitelyStored := by
  refine h.keeps ⟨{config.b0}, fun h hs => ?_⟩ fun t e u ht _ he => ht.step he
  by_contra hne
  simp [start, HotStuffCore.on_init, Finset.mem_singleton.not.mp hne] at hs

/-- Every message that comes in is handled to its end. -/
theorem every_handler_returns [DecidableEq PeerId] {config : Config Hash Sig}
    {get_peer_id : ReplicaID → Option PeerId} {id : ReplicaID} {s : HotStuffBase Hash Sig PeerId}
    (h : Runs (step config get_peer_id) Anything (start config id) s) (peer : Option PeerId)
    (msg : Message Hash Sig) :
    ∃ fuel, (s.step config get_peer_id (.message fuel peer msg)).isSome := by
  obtain ⟨F, hF⟩ := FinitelyStored.of_runs h
  exact handle_isSome hF config get_peer_id peer msg

/-! ## Nobody waits for a block that is there -/

/-- As long as no proposal brings a block that is waited for, no block is both stored and waited
for. -/
theorem no_stored_block_is_waited_for [DecidableEq PeerId] {config : Config Hash Sig}
    {get_peer_id : ReplicaID → Option PeerId} {id : ReplicaID} {s : HotStuffBase Hash Sig PeerId}
    (h : Runs (step config get_peer_id) (Timely config) (start config id) s) (blk_hash : Hash) :
    (s.blk_fetch_waiting blk_hash).isSome → s.core.storage blk_hash = none := by
  have hapart : s.Apart :=
    h.keeps (fun _ => .inl rfl) fun _ _ _ ht hok he => ht.step hok he
  intro hsome
  rcases hapart blk_hash with hu | hn
  · rw [show s.blk_fetch_waiting blk_hash = none from hu] at hsome
    cases hsome
  · exact hn

/-- Replica 2 votes for block `i`. -/
def vote_from_2 (i : ℕ) : Event (Fin 8) (ReplicaID × Fin 8) ℕ :=
  .message 9 (some 2)
    (.vote ⟨2, HotStuffCore.hash_of i, ⟨HotStuffCore.hash_of i, (2, HotStuffCore.hash_of i)⟩⟩)

/-- Replica 1 proposes the first block of a chain. -/
def first_proposal : Event (Fin 8) (ReplicaID × Fin 8) ℕ :=
  .message 9 (some 1) (.propose 1 (HotStuffCore.next_block 0))

theorem a_vote_before_its_proposal_leaves_a_waiter :
    ¬ ∀ (config : Config (Fin 8) (ReplicaID × Fin 8)) (get_peer_id : ReplicaID → Option ℕ)
      (id : ReplicaID) (s : HotStuffBase (Fin 8) (ReplicaID × Fin 8) ℕ),
      Runs (step config get_peer_id) Anything (start config id) s →
        ∀ blk_hash, (s.blk_fetch_waiting blk_hash).isSome → s.core.storage blk_hash = none := by
  intro h
  have hplay : ((play (step (HotStuffCore.four_replicas false) some) Anything
      (start (HotStuffCore.four_replicas false) 0) [vote_from_2 1, first_proposal]).map fun s =>
        ((s.blk_fetch_waiting (HotStuffCore.hash_of 1)).isSome,
          (s.core.storage (HotStuffCore.hash_of 1)).isSome)) =
          some (true, true) := by decide +kernel
  obtain ⟨s, hs, heq⟩ := Option.map_eq_some_iff.mp hplay
  obtain ⟨hwait, hstored⟩ := Prod.mk.inj heq
  rw [h _ _ _ s (.of_play hs) (HotStuffCore.hash_of 1) hwait] at hstored
  cases hstored

instance [DecidableEq PeerId] (config : Config Hash Sig) (s : HotStuffBase Hash Sig PeerId) :
    DecidablePred (Timely config s)
  | .message _ (some _) (.propose _ data) =>
    inferInstanceAs (Decidable (s.blk_fetch_waiting (config.get_hash data) = none))
  | .on_propose cmds parents extra =>
    inferInstanceAs (Decidable (s.blk_fetch_waiting
      (config.get_hash (s.core.proposed cmds parents extra)) = none))
  | .message _ none _ | .message _ (some _) (.vote _) | .message _ (some _) (.req_blk _)
  | .message _ (some _) (.resp_blk _) | .on_deliver_blk _ | .on_receive_proposal _
  | .on_receive_vote _ => isTrue trivial

theorem a_block_that_is_waited_for_is_missing :
    ∃ s : HotStuffBase (Fin 8) (ReplicaID × Fin 8) ℕ,
      Runs (step (HotStuffCore.four_replicas false) some)
        (Timely (HotStuffCore.four_replicas false))
        (start (HotStuffCore.four_replicas false) 0) s ∧
      (s.blk_fetch_waiting (HotStuffCore.hash_of 2)).isSome ∧
      s.core.storage (HotStuffCore.hash_of 2) = none := by
  have hplay : ((play (step (HotStuffCore.four_replicas false) some)
      (Timely (HotStuffCore.four_replicas false)) (start (HotStuffCore.four_replicas false) 0)
      [first_proposal, vote_from_2 2]).map fun s =>
        (s.blk_fetch_waiting (HotStuffCore.hash_of 2)).isSome) = some true := by decide +kernel
  obtain ⟨s, hs, hwait⟩ := Option.map_eq_some_iff.mp hplay
  have hrun := Runs.of_play hs
  exact ⟨s, hrun, hwait, no_stored_block_is_waited_for hrun _ hwait⟩

end HotStuffBase

end general_hotstuff
