-- The message handlers of `HotStuffBase` and the blocks that they wait for. Each handler
-- runs to completion. A delivery that is complete is an event of its own, and so is what
-- the core is called with after it.
import GeneralHotStuff.Transitions
import GeneralHotStuff.CoreInvariant

namespace general_hotstuff

open quorums (ReplicaID)
open transitions

variable {Hash Sig PeerId : Type}

/-! ## The state -/

/-- What waits for the body of a block: its delivery, with the peer that is asked, the delivery of a
block whose certificate is on it, and the answer to the request of a peer. -/
inductive Waiter (Hash PeerId : Type) where
  | deliver (replica : PeerId)
  | qc_of (blk : Hash)
  | answer (replica : PeerId) (blk_hashes : List Hash)

/-- The fields of `HotStuffBase` for blocks. An entry of `blk_fetch_waiting` lists what its promise
resolves. -/
structure HotStuffBase (Hash Sig PeerId : Type) where
  core : HotStuffCore Hash Sig
  blk_fetch_waiting : Hash → Option (List (Waiter Hash PeerId))
  blk_delivery_waiting : Finset Hash

inductive Message (Hash Sig : Type) where
  | propose (proposer : ReplicaID) (data : BlockData Hash Sig)
  | vote (vote : Vote Hash Sig)
  | req_blk (blk_hashes : List Hash)
  | resp_blk (blks : List (BlockData Hash Sig))

namespace HotStuffBase

variable [DecidableEq Hash]

def start (config : Config Hash Sig) (id : ReplicaID) : HotStuffBase Hash Sig PeerId :=
  { core := .on_init config id
    blk_fetch_waiting := fun _ => none
    blk_delivery_waiting := ∅ }

/-! ## Fetching and delivering -/

/-- A parsed block enters the storage. -/
def add_blk (config : Config Hash Sig) (data : BlockData Hash Sig)
    (s : HotStuffBase Hash Sig PeerId) : HotStuffBase Hash Sig PeerId :=
  { s with
    core := { s.core with
      storage := s.core.storage.add_blk (config.get_hash data) (.unserialize data) } }

/-- The block when the promise is resolved at once, and a new waiter otherwise. -/
def async_fetch_blk (blk_hash : Hash) (waiter : Waiter Hash PeerId)
    (s : HotStuffBase Hash Sig PeerId) : HotStuffBase Hash Sig PeerId × Option (Block Hash Sig) :=
  match s.core.storage blk_hash with
  | some blk => (s, some blk)
  | none =>
    let waiters := (s.blk_fetch_waiting blk_hash).getD [] ++ [waiter]
    ({ s with blk_fetch_waiting := Function.update s.blk_fetch_waiting blk_hash (some waiters) },
      none)

/-- The continuation of `async_deliver_blk` once the block is fetched: it fetches the block of the
certificate and delivers the parents. -/
def on_fetched (deliver : HotStuffBase Hash Sig PeerId → Hash →
    Option (HotStuffBase Hash Sig PeerId)) (blk_hash : Hash) (blk : Block Hash Sig)
    (s : HotStuffBase Hash Sig PeerId) : Option (HotStuffBase Hash Sig PeerId) :=
  blk.parent_hashes.foldlM deliver (s.async_fetch_blk blk.qc.obj_hash (.qc_of blk_hash)).1

/-- `fuel` bounds how deep the deliveries of parents go. -/
def async_deliver_blk (replica : PeerId) :
    ℕ → HotStuffBase Hash Sig PeerId → Hash → Option (HotStuffBase Hash Sig PeerId)
  | 0, _, _ => none
  | fuel + 1, s, blk_hash =>
    if s.core.storage.is_blk_delivered blk_hash then some s
    else if blk_hash ∈ s.blk_delivery_waiting then some s
    else
      let s1 := { s with blk_delivery_waiting := insert blk_hash s.blk_delivery_waiting }
      match s1.async_fetch_blk blk_hash (.deliver replica) with
      | (s2, none) => some s2
      | (s2, some blk) => s2.on_fetched (async_deliver_blk replica fuel) blk_hash blk

/-- What a resolved promise sets off. The others only count as one thing less to wait for. -/
def resolve (fuel : ℕ) (blk_hash : Hash) (s : HotStuffBase Hash Sig PeerId) :
    Waiter Hash PeerId → Option (HotStuffBase Hash Sig PeerId)
  | .deliver replica =>
    (s.core.storage blk_hash).elim (some s) fun blk =>
      s.on_fetched (async_deliver_blk replica fuel) blk_hash blk
  | .qc_of _ => some s
  | .answer .. => some s

def on_fetch_blk (fuel : ℕ) (s : HotStuffBase Hash Sig PeerId) (blk_hash : Hash) :
    Option (HotStuffBase Hash Sig PeerId) :=
  match s.blk_fetch_waiting blk_hash with
  | none => some s
  | some waiters =>
    (waiters.foldlM (resolve fuel blk_hash) s).map fun s1 =>
      { s1 with blk_fetch_waiting := Function.update s1.blk_fetch_waiting blk_hash none }

/-- An exception leaves the entry of `blk_delivery_waiting`. -/
def on_deliver_blk (blk_hash : Hash) (s : HotStuffBase Hash Sig PeerId) :
    Option (HotStuffBase Hash Sig PeerId) :=
  match s.core.on_deliver_blk blk_hash with
  | .ok core =>
    some { s with core := core, blk_delivery_waiting := s.blk_delivery_waiting.erase blk_hash }
  | .throw core _ => some { s with core := core }
  | .undefined => none

/-! ## Handlers -/

section

variable [DecidableEq PeerId] (config : Config Hash Sig) (get_peer_id : ReplicaID → Option PeerId)
  (fuel : ℕ)

/-- The block is stored by the parser, before the proposer is checked. -/
def propose_handler (peer : PeerId) (proposer : ReplicaID) (data : BlockData Hash Sig)
    (s : HotStuffBase Hash Sig PeerId) : Option (HotStuffBase Hash Sig PeerId) :=
  let s1 := s.add_blk config data
  if get_peer_id proposer ≠ some peer then some s1
  else s1.async_deliver_blk peer fuel (config.get_hash data)

def vote_handler (peer : PeerId) (vote : Vote Hash Sig) (s : HotStuffBase Hash Sig PeerId) :
    Option (HotStuffBase Hash Sig PeerId) := s.async_deliver_blk peer fuel vote.blk_hash

def req_blk_handler (peer : PeerId) (blk_hashes : List Hash) (s : HotStuffBase Hash Sig PeerId) :
    HotStuffBase Hash Sig PeerId :=
  blk_hashes.foldl (fun s h => (s.async_fetch_blk h (.answer peer blk_hashes)).1) s

/-- All blocks are stored by the parser, and then each is announced. -/
def resp_blk_handler (blks : List (BlockData Hash Sig)) (s : HotStuffBase Hash Sig PeerId) :
    Option (HotStuffBase Hash Sig PeerId) :=
  (blks.map config.get_hash).foldlM (on_fetch_blk fuel)
    (blks.foldl (fun s data => s.add_blk config data) s)

/-- Only a response is read from a connection without a peer. -/
def handle (peer : Option PeerId) (msg : Message Hash Sig) (s : HotStuffBase Hash Sig PeerId) :
    Option (HotStuffBase Hash Sig PeerId) :=
  match msg, peer with
  | .resp_blk blks, _ => s.resp_blk_handler config fuel blks
  | _, none => some s
  | .propose proposer data, some peer =>
    s.propose_handler config get_peer_id fuel peer proposer data
  | .vote vote, some peer => s.vote_handler fuel peer vote
  | .req_blk blk_hashes, some peer => some (s.req_blk_handler peer blk_hashes)

end

/-! ## Runs -/

/-- `call` is what the core is called with after a delivery, or by the pace maker. -/
inductive Event (Hash Sig PeerId : Type) where
  | message (fuel : ℕ) (peer : Option PeerId) (msg : Message Hash Sig)
  | on_deliver_blk (blk_hash : Hash)
  | on_receive_proposal (prop : Proposal Hash)
  | on_receive_vote (vote : Vote Hash Sig)
  | on_propose (cmds parents : List Hash) (extra : List UInt8)

/-- The core runs, and nothing else changes. -/
def call (config : Config Hash Sig) (c : HotStuffCore.Call Hash Sig)
    (s : HotStuffBase Hash Sig PeerId) : Option (HotStuffBase Hash Sig PeerId) :=
  (s.core.call config c).state?.map fun core => { s with core := core }

def step [DecidableEq PeerId] (config : Config Hash Sig) (get_peer_id : ReplicaID → Option PeerId)
    (s : HotStuffBase Hash Sig PeerId) :
    Event Hash Sig PeerId → Option (HotStuffBase Hash Sig PeerId)
  | .message fuel peer msg => s.handle config get_peer_id fuel peer msg
  | .on_deliver_blk blk_hash => s.on_deliver_blk blk_hash
  | .on_receive_proposal prop => s.call config (.on_receive_proposal prop)
  | .on_receive_vote vote => s.call config (.on_receive_vote vote)
  | .on_propose cmds parents extra => s.call config (.on_propose cmds parents extra)

/-- Nobody waits for the body of the block. -/
def Unawaited (s : HotStuffBase Hash Sig PeerId) (blk_hash : Hash) : Prop :=
  s.blk_fetch_waiting blk_hash = none

/-- The block of a proposal, a peer's or its own, is not waited for when it comes. -/
def Timely (config : Config Hash Sig) (s : HotStuffBase Hash Sig PeerId) :
    Event Hash Sig PeerId → Prop
  | .message _ (some _) (.propose _ data) => s.Unawaited (config.get_hash data)
  | .on_propose cmds parents extra =>
    s.Unawaited (config.get_hash (s.core.proposed cmds parents extra))
  | _ => True

/-! ## Only missing blocks are waited for -/

/-- The storage is as before, and what is waited for now was waited for or is not stored. -/
structure Asks (s s' : HotStuffBase Hash Sig PeerId) : Prop where
  core : s'.core = s.core
  entries : ∀ h, s'.Unawaited h ∨ ¬ s.Unawaited h ∨ s.core.storage h = none

namespace Asks

variable {s s' s'' : HotStuffBase Hash Sig PeerId}

omit [DecidableEq Hash] in
theorem refl (s : HotStuffBase Hash Sig PeerId) : Asks s s :=
  ⟨rfl, fun h => by
    by_cases hu : s.Unawaited h
    · exact .inl hu
    · exact .inr (.inl hu)⟩

omit [DecidableEq Hash] in
theorem trans (h : Asks s s') (h' : Asks s' s'') : Asks s s'' := by
  refine ⟨h'.core.trans h.core, fun x => ?_⟩
  rcases h'.entries x with hu | hu | hn
  · exact .inl hu
  · exact .inr ((h.entries x).resolve_left hu)
  · exact .inr (.inr (h.core ▸ hn))

end Asks

section

variable (s : HotStuffBase Hash Sig PeerId)

theorem async_fetch_blk_asks (blk_hash : Hash) (waiter : Waiter Hash PeerId) :
    Asks s (s.async_fetch_blk blk_hash waiter).1 := by
  unfold async_fetch_blk
  split
  · exact .refl s
  · rename_i hnone
    refine ⟨rfl, fun h => ?_⟩
    by_cases hh : h = blk_hash
    · exact .inr (.inr (hh ▸ hnone))
    · exact ((Asks.refl s).entries h).imp_left fun hu => (Function.update_of_ne hh ..).trans hu

theorem on_fetched_asks {deliver : HotStuffBase Hash Sig PeerId → Hash →
      Option (HotStuffBase Hash Sig PeerId)}
    (hd : ∀ s h s', deliver s h = some s' → Asks s s') {blk_hash : Hash} {blk : Block Hash Sig}
    {s s' : HotStuffBase Hash Sig PeerId} (h : s.on_fetched deliver blk_hash blk = some s') :
    Asks s s' :=
  foldlM_keeps (fun _ h _ _ hs he => hs.trans (hd _ h _ he)) (async_fetch_blk_asks s _ _) h

variable {s}

theorem async_deliver_blk_asks {replica : PeerId} {fuel : ℕ} {blk_hash : Hash}
    {s s' : HotStuffBase Hash Sig PeerId}
    (h : s.async_deliver_blk replica fuel blk_hash = some s') : Asks s s' := by
  induction fuel generalizing s s' blk_hash with
  | zero => cases h
  | succ fuel ih =>
    unfold async_deliver_blk at h
    split at h
    · exact Option.some.inj h ▸ .refl s
    · split at h
      · exact Option.some.inj h ▸ .refl s
      · have hmark : Asks s
            { s with blk_delivery_waiting := insert blk_hash s.blk_delivery_waiting } :=
          ⟨rfl, (Asks.refl s).entries⟩
        have hask := hmark.trans (async_fetch_blk_asks _ blk_hash (.deliver replica))
        dsimp only at h
        split at h
        · rename_i s2 heq
          rw [heq] at hask
          exact Option.some.inj h ▸ hask
        · rename_i s2 blk heq
          rw [heq] at hask
          exact hask.trans (on_fetched_asks (fun s x s' he => ih he) h)

theorem resolve_asks {fuel : ℕ} {blk_hash : Hash} {waiter : Waiter Hash PeerId}
    {s s' : HotStuffBase Hash Sig PeerId} (h : s.resolve fuel blk_hash waiter = some s') :
    Asks s s' := by
  cases waiter with
  | deliver replica =>
    unfold resolve at h
    cases hb : s.core.storage blk_hash with
    | none =>
      rw [hb] at h
      exact Option.some.inj h ▸ .refl s
    | some blk =>
      rw [hb] at h
      exact on_fetched_asks (fun _ _ _ he => async_deliver_blk_asks he) h
  | qc_of blk => exact Option.some.inj h ▸ .refl s
  | answer replica blk_hashes => exact Option.some.inj h ▸ .refl s

theorem on_fetch_blk_asks {fuel : ℕ} {blk_hash : Hash} {s s' : HotStuffBase Hash Sig PeerId}
    (h : s.on_fetch_blk fuel blk_hash = some s') : Asks s s' ∧ s'.Unawaited blk_hash := by
  unfold on_fetch_blk at h
  split at h
  · rename_i hnone
    exact Option.some.inj h ▸ ⟨.refl s, hnone⟩
  · obtain ⟨s1, h1, rfl⟩ := Option.map_eq_some_iff.mp h
    have hask : Asks s s1 :=
      foldlM_keeps (fun _ _ _ _ hs he => hs.trans (resolve_asks he)) (.refl s) h1
    refine ⟨⟨hask.core, fun x => ?_⟩, Function.update_self ..⟩
    by_cases hx : x = blk_hash
    · exact .inl (hx ▸ Function.update_self ..)
    · exact (hask.entries x).imp_left fun hu => (Function.update_of_ne hx ..).trans hu

theorem req_blk_handler_asks (s : HotStuffBase Hash Sig PeerId) (peer : PeerId)
    (blk_hashes : List Hash) : Asks s (s.req_blk_handler peer blk_hashes) := by
  unfold req_blk_handler
  generalize hw : Waiter.answer peer blk_hashes = waiter
  clear hw
  induction blk_hashes generalizing s with
  | nil => exact .refl s
  | cons h hs ih => exact (async_fetch_blk_asks s h waiter).trans (ih _)

end

/-! ## Handlers run to completion -/

/-- A later state with the same core, in which all the deliveries still wait. -/
structure Waits (s s' : HotStuffBase Hash Sig PeerId) : Prop where
  core : s'.core = s.core
  deliveries : s.blk_delivery_waiting ⊆ s'.blk_delivery_waiting

omit [DecidableEq Hash] in
theorem Waits.trans {s s' s'' : HotStuffBase Hash Sig PeerId} (h : Waits s s') (h' : Waits s' s'') :
    Waits s s'' := ⟨h'.core.trans h.core, h.deliveries.trans h'.deliveries⟩

theorem async_fetch_blk_waits (s : HotStuffBase Hash Sig PeerId) (blk_hash : Hash)
    (waiter : Waiter Hash PeerId) : Waits s (s.async_fetch_blk blk_hash waiter).1 := by
  unfold async_fetch_blk
  split <;> exact ⟨rfl, subset_rfl⟩

/-- The loop over the parents ends when each of their deliveries does. -/
theorem on_fetched_isSome {deliver : HotStuffBase Hash Sig PeerId → Hash →
      Option (HotStuffBase Hash Sig PeerId)} {s : HotStuffBase Hash Sig PeerId}
    (blk_hash : Hash) (blk : Block Hash Sig)
    (hd : ∀ s1 h, Waits s s1 → ∃ s2, deliver s1 h = some s2 ∧ Waits s1 s2) :
    ∃ s', s.on_fetched deliver blk_hash blk = some s' ∧ Waits s s' := by
  refine foldlM_isSome (fun s1 h _ hs1 => ?_) (async_fetch_blk_waits s _ _)
  obtain ⟨s2, h2, hs2⟩ := hd s1 h hs1
  exact ⟨s2, h2, hs1.trans hs2⟩

/-- Every delivery that goes deeper marks one more of the stored blocks. -/
theorem async_deliver_blk_isSome {F : Finset Hash} (replica : PeerId) {fuel : ℕ}
    {s : HotStuffBase Hash Sig PeerId} (blk_hash : Hash)
    (hF : ∀ h, (s.core.storage h).isSome → h ∈ F)
    (hfuel : (F \ s.blk_delivery_waiting).card < fuel) :
    ∃ s', s.async_deliver_blk replica fuel blk_hash = some s' ∧ Waits s s' := by
  induction fuel generalizing s blk_hash with
  | zero => cases hfuel
  | succ fuel ih =>
    unfold async_deliver_blk
    split
    · exact ⟨s, rfl, rfl, subset_rfl⟩
    · split
      · exact ⟨s, rfl, rfl, subset_rfl⟩
      · rename_i hwait
        dsimp only
        have hmark : Waits s
            { s with blk_delivery_waiting := insert blk_hash s.blk_delivery_waiting } :=
          ⟨rfl, Finset.subset_insert ..⟩
        generalize hs1 : { s with blk_delivery_waiting := insert blk_hash s.blk_delivery_waiting } =
          s1 at hmark ⊢
        cases hb : s1.core.storage blk_hash with
        | none =>
          simp only [async_fetch_blk, hb]
          exact ⟨_, rfl, hmark.core, hmark.deliveries⟩
        | some blk =>
          simp only [async_fetch_blk, hb]
          have hF1 : ∀ h, (s1.core.storage h).isSome → h ∈ F := hmark.core ▸ hF
          have hless : (F \ s1.blk_delivery_waiting).card < fuel := by
            have hmem : blk_hash ∈ F \ s.blk_delivery_waiting :=
              Finset.mem_sdiff.mpr ⟨hF1 blk_hash (by simp [hb]), hwait⟩
            have herase := Finset.card_erase_lt_of_mem hmem
            rw [← hs1, Finset.sdiff_insert]
            omega
          obtain ⟨s', hs', hw⟩ := s1.on_fetched_isSome blk_hash blk
            fun s2 h hs2 => by
              refine ih h (fun x hx => hF1 x (hs2.core ▸ hx)) (lt_of_le_of_lt ?_ hless)
              exact Finset.card_le_card (Finset.sdiff_subset_sdiff subset_rfl hs2.deliveries)
          exact ⟨s', hs', hmark.trans hw⟩

theorem on_fetch_blk_isSome {F : Finset Hash} {fuel : ℕ} {s : HotStuffBase Hash Sig PeerId}
    (blk_hash : Hash) (hF : ∀ h, (s.core.storage h).isSome → h ∈ F) (hfuel : F.card < fuel) :
    ∃ s', s.on_fetch_blk fuel blk_hash = some s' ∧ Waits s s' := by
  unfold on_fetch_blk
  split
  · exact ⟨s, rfl, rfl, subset_rfl⟩
  · rename_i waiters _
    have hturn : ∀ s1 waiter, waiter ∈ waiters → Waits s s1 →
        ∃ s2, s1.resolve fuel blk_hash waiter = some s2 ∧ Waits s s2 := by
      intro s1 waiter _ hs1
      cases waiter with
      | qc_of blk => exact ⟨s1, rfl, hs1⟩
      | answer replica blk_hashes => exact ⟨s1, rfl, hs1⟩
      | deliver replica =>
        unfold resolve
        cases s1.core.storage blk_hash with
        | none => exact ⟨s1, rfl, hs1⟩
        | some blk =>
          obtain ⟨s2, h2, hs2⟩ := s1.on_fetched_isSome blk_hash blk
            fun s3 h hs3 => by
              refine async_deliver_blk_isSome replica h
                (fun x hx => hF x ((hs1.trans hs3).core ▸ hx)) (lt_of_le_of_lt ?_ hfuel)
              exact Finset.card_le_card Finset.sdiff_subset
          exact ⟨s2, h2, hs1.trans hs2⟩
    obtain ⟨s1, h1, hs1⟩ := foldlM_isSome hturn (P := Waits s) ⟨rfl, subset_rfl⟩
    exact ⟨_, Option.map_eq_some_iff.mpr ⟨s1, h1, rfl⟩, hs1.core, hs1.deliveries⟩

theorem add_blk_stored {F : Finset Hash} {s : HotStuffBase Hash Sig PeerId}
    (config : Config Hash Sig) (data : BlockData Hash Sig)
    (hF : ∀ h, (s.core.storage h).isSome → h ∈ F) (h : Hash)
    (hs : ((s.add_blk config data).core.storage h).isSome) :
    h ∈ insert (config.get_hash data) F := by
  by_cases hne : h = config.get_hash data
  · exact Finset.mem_insert.mpr (.inl hne)
  · simp only [add_blk, EntityStorage.add_blk] at hs
    split at hs
    · exact Finset.mem_insert_of_mem (hF h hs)
    · rw [Function.update_of_ne hne] at hs
      exact Finset.mem_insert_of_mem (hF h hs)

theorem parsed_stored (config : Config Hash Sig) (blks : List (BlockData Hash Sig))
    {F : Finset Hash} {s : HotStuffBase Hash Sig PeerId}
    (hF : ∀ h, (s.core.storage h).isSome → h ∈ F) :
    ∃ F' : Finset Hash, ∀ h,
      ((blks.foldl (fun s data => s.add_blk config data) s).core.storage h).isSome → h ∈ F' := by
  induction blks generalizing F s with
  | nil => exact ⟨F, hF⟩
  | cons data blks ih => exact ih (add_blk_stored config data hF)

/-- While finitely many blocks are stored, a handler returns, whatever the message. -/
theorem handle_isSome [DecidableEq PeerId] {F : Finset Hash} {s : HotStuffBase Hash Sig PeerId}
    (hF : ∀ h, (s.core.storage h).isSome → h ∈ F) (config : Config Hash Sig)
    (get_peer_id : ReplicaID → Option PeerId) (peer : Option PeerId) (msg : Message Hash Sig) :
    ∃ fuel, (s.handle config get_peer_id fuel peer msg).isSome := by
  have hdeliver : ∀ (F : Finset Hash) (s : HotStuffBase Hash Sig PeerId) replica h,
      (∀ h, (s.core.storage h).isSome → h ∈ F) →
      (s.async_deliver_blk replica (F.card + 1) h).isSome := by
    intro F s replica h hF
    have hle := Finset.card_le_card (Finset.sdiff_subset (s := F) (t := s.blk_delivery_waiting))
    have hfuel : (F \ s.blk_delivery_waiting).card < F.card + 1 := by omega
    obtain ⟨s', hs', -⟩ := async_deliver_blk_isSome replica h hF hfuel
    simp [hs']
  cases msg with
  | resp_blk blks =>
    obtain ⟨F', hF'⟩ := parsed_stored config blks hF
    refine ⟨F'.card + 1, ?_⟩
    simp only [handle, resp_blk_handler]
    generalize blks.foldl (fun s data => s.add_blk config data) s = s0 at hF' ⊢
    have hturn : ∀ s1 h, h ∈ blks.map config.get_hash → Waits s0 s1 →
        ∃ s2, s1.on_fetch_blk (F'.card + 1) h = some s2 ∧ Waits s0 s2 := by
      intro s1 h _ hs1
      obtain ⟨s2, h2, hs2⟩ := on_fetch_blk_isSome h (fun x hx => hF' x (hs1.core ▸ hx))
        (Nat.lt_succ_self F'.card)
      exact ⟨s2, h2, hs1.trans hs2⟩
    obtain ⟨s', hs', -⟩ := foldlM_isSome hturn ⟨rfl, subset_rfl⟩
    simp [hs']
  | propose proposer data =>
    cases peer with
    | none => exact ⟨0, rfl⟩
    | some peer =>
      refine ⟨(insert (config.get_hash data) F).card + 1, ?_⟩
      simp only [handle, propose_handler]
      split
      · rfl
      · exact hdeliver _ _ _ _ (add_blk_stored config data hF)
  | vote vote =>
    cases peer with
    | none => exact ⟨0, rfl⟩
    | some peer => exact ⟨F.card + 1, hdeliver F s peer _ hF⟩
  | req_blk blk_hashes =>
    cases peer with
    | none => exact ⟨0, rfl⟩
    | some peer => exact ⟨0, rfl⟩

end HotStuffBase

end general_hotstuff
