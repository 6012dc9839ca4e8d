-- What the deliveries wait for: the body of the block, the block of its certificate and its
-- parents. Whatever comes in and in whatever order, a delivery that waits has something left to
-- wait for, and once all bodies are there one of the deliveries goes on.
import GeneralHotStuff.AwaitedBlocks
import GeneralHotStuff.BlockDag

namespace general_hotstuff

open quorums (ReplicaID)
open transitions

variable {Hash Sig PeerId : Type}

def Waiter.is_deliver : Waiter Hash PeerId → Bool
  | .deliver _ => true
  | .qc_of _ => false
  | .answer .. => false

def Waiter.is_qc_of [DecidableEq Hash] (blk_hash : Hash) : Waiter Hash PeerId → Bool
  | .deliver _ => false
  | .qc_of blk => decide (blk = blk_hash)
  | .answer .. => false

/-- What waits for the body of the block. -/
def HotStuffBase.waiters (s : HotStuffBase Hash Sig PeerId) (blk_hash : Hash) :
    List (Waiter Hash PeerId) := (s.blk_fetch_waiting blk_hash).getD []

/-! ## What a delivery waits for -/

namespace HotStuffBase

variable [DecidableEq Hash]

/-- The continuation of `async_fetch_blk` has asked for everything. -/
structure Underway (s : HotStuffBase Hash Sig PeerId) (blk_hash : Hash) (blk : Block Hash Sig) :
    Prop where
  stored : s.core.storage blk_hash = some blk
  qc : (∃ w ∈ s.waiters blk.qc.obj_hash, w.is_qc_of blk_hash = true) ∨
    (s.core.storage blk.qc.obj_hash).isSome
  parents : ∀ p ∈ blk.parent_hashes, s.core.delivered p = true ∨ p ∈ s.blk_delivery_waiting

/-- The delivery waits for the body, or has asked for everything else. -/
def Awaiting (s : HotStuffBase Hash Sig PeerId) (blk_hash : Hash) : Prop :=
  (∃ w ∈ s.waiters blk_hash, w.is_deliver = true) ∨ ∃ blk, s.Underway blk_hash blk

/-- Every delivery outside of `E` waits for something. -/
def Accounted (E : Set Hash) (s : HotStuffBase Hash Sig PeerId) : Prop :=
  ∀ h ∈ s.blk_delivery_waiting, h ∈ E ∨ s.Awaiting h

/-! ## Nothing is taken back -/

/-- More deliveries and more waiters, and none for a stored block. -/
structure Adds (s s' : HotStuffBase Hash Sig PeerId) : Prop where
  core : s'.core = s.core
  deliveries : s.blk_delivery_waiting ⊆ s'.blk_delivery_waiting
  waiters : ∀ x, ∀ w ∈ s.waiters x, w ∈ s'.waiters x
  stored : ∀ x, (s.core.storage x).isSome → s'.waiters x = s.waiters x

section

variable {s s' s'' : HotStuffBase Hash Sig PeerId} {E : Set Hash} {blk_hash : Hash}
  {blk : Block Hash Sig}

omit [DecidableEq Hash] in
theorem Adds.refl (s : HotStuffBase Hash Sig PeerId) : Adds s s :=
  ⟨rfl, subset_rfl, fun _ _ hw => hw, fun _ _ => rfl⟩

omit [DecidableEq Hash] in
theorem Adds.trans (h : Adds s s') (h' : Adds s' s'') : Adds s s'' where
  core := h'.core.trans h.core
  deliveries := h.deliveries.trans h'.deliveries
  waiters x w hw := h'.waiters x w (h.waiters x w hw)
  stored x hx := (h'.stored x (h.core ▸ hx)).trans (h.stored x hx)

theorem Underway.adds (h : s.Underway blk_hash blk) (ha : Adds s s') :
    s'.Underway blk_hash blk where
  stored := ha.core ▸ h.stored
  qc := by
    rw [ha.core]
    exact h.qc.imp_left fun ⟨w, hw, hq⟩ => ⟨w, ha.waiters _ w hw, hq⟩
  parents p hp := by
    rw [ha.core]
    exact (h.parents p hp).imp_right fun hmem => ha.deliveries hmem

theorem Awaiting.adds (h : s.Awaiting blk_hash) (ha : Adds s s') : s'.Awaiting blk_hash := by
  rcases h with ⟨w, hw, hd⟩ | ⟨blk, hblk⟩
  · exact .inl ⟨w, ha.waiters _ w hw, hd⟩
  · exact .inr ⟨blk, hblk.adds ha⟩

/-- A change that adds no delivery. -/
theorem Accounted.adds (h : Accounted E s) (ha : Adds s s')
    (hsame : s'.blk_delivery_waiting = s.blk_delivery_waiting) : Accounted E s' := by
  intro x hx
  rw [hsame] at hx
  exact (h x hx).imp_right fun hw => hw.adds ha

theorem Accounted.mono {F : Set Hash} (h : Accounted E s) (hEF : E ⊆ F) : Accounted F s :=
  fun x hx => (h x hx).imp_left fun hE => hEF hE

theorem async_fetch_blk_adds (s : HotStuffBase Hash Sig PeerId) (blk_hash : Hash)
    (waiter : Waiter Hash PeerId) : Adds s (s.async_fetch_blk blk_hash waiter).1 := by
  unfold async_fetch_blk
  split
  · exact .refl s
  · rename_i hnone
    refine ⟨rfl, subset_rfl, fun x w hw => ?_, fun x hx => ?_⟩
    · by_cases hxb : x = blk_hash
      · subst hxb
        simp only [waiters, Function.update_self, Option.getD_some]
        exact List.mem_append_left _ hw
      · simpa only [waiters, Function.update_of_ne hxb] using hw
    · have hxb : x ≠ blk_hash := by
        rintro rfl
        rw [hnone] at hx
        cases hx
      simp only [waiters, Function.update_of_ne hxb]

theorem async_fetch_blk_deliveries (s : HotStuffBase Hash Sig PeerId) (blk_hash : Hash)
    (waiter : Waiter Hash PeerId) :
    (s.async_fetch_blk blk_hash waiter).1.blk_delivery_waiting = s.blk_delivery_waiting := by
  unfold async_fetch_blk
  split
  · rfl
  · rfl

/-- The waiter is there, unless the block is. -/
theorem async_fetch_blk_waits_or_stored (s : HotStuffBase Hash Sig PeerId) (blk_hash : Hash)
    (waiter : Waiter Hash PeerId) :
    waiter ∈ (s.async_fetch_blk blk_hash waiter).1.waiters blk_hash ∨
      (s.core.storage blk_hash).isSome := by
  unfold async_fetch_blk
  split
  · rename_i blk hblk
    exact .inr (by simp [hblk])
  · refine .inl ?_
    simp only [waiters, Function.update_self, Option.getD_some]
    exact List.mem_append_right _ (List.mem_singleton.mpr rfl)

end

/-! ## Deliveries that are asked for -/

section

variable {E : Set Hash}

omit [DecidableEq Hash] in
theorem is_blk_delivered_eq (s : HotStuffBase Hash Sig PeerId) (blk_hash : Hash) :
    s.core.storage.is_blk_delivered blk_hash = s.core.delivered blk_hash := by
  unfold EntityStorage.is_blk_delivered HotStuffCore.delivered
  cases s.core.storage blk_hash <;> rfl

/-- What a call of `async_deliver_blk` leaves: the block is delivered or waits, and nothing that
waited before is forgotten. -/
structure Asked (E : Set Hash) (s s' : HotStuffBase Hash Sig PeerId) (blk_hash : Hash) : Prop where
  adds : Adds s s'
  accounted : Accounted E s'
  result : s'.core.delivered blk_hash = true ∨ blk_hash ∈ s'.blk_delivery_waiting

/-- The loop over the parents. -/
theorem deliver_parents {deliver : HotStuffBase Hash Sig PeerId → Hash →
      Option (HotStuffBase Hash Sig PeerId)}
    (hd : ∀ s h s', deliver s h = some s' → Accounted E s → Asked E s s' h) {ps : List Hash}
    {s s' : HotStuffBase Hash Sig PeerId} (h : ps.foldlM deliver s = some s')
    (hs : Accounted E s) :
    Adds s s' ∧ Accounted E s' ∧
      ∀ p ∈ ps, s'.core.delivered p = true ∨ p ∈ s'.blk_delivery_waiting := by
  induction ps generalizing s with
  | nil =>
    cases h
    exact ⟨.refl _, hs, by simp⟩
  | cons p ps ih =>
    rw [List.foldlM_cons] at h
    obtain ⟨s1, h1, h⟩ := Option.bind_eq_some_iff.mp h
    obtain ⟨hadds, hacc, hres⟩ := hd s p s1 h1 hs
    obtain ⟨hadds', hacc', hrest⟩ := ih h hacc
    refine ⟨hadds.trans hadds', hacc', fun x hx => ?_⟩
    rcases List.mem_cons.mp hx with rfl | hx
    · rw [hadds'.core]
      exact hres.imp_right fun hmem => hadds'.deliveries hmem
    · exact hrest x hx

/-- With its body there, the delivery asks for everything else. -/
theorem on_fetched_underway {deliver : HotStuffBase Hash Sig PeerId → Hash →
      Option (HotStuffBase Hash Sig PeerId)} {blk_hash : Hash} {blk : Block Hash Sig}
    (hd : ∀ s h s', deliver s h = some s' → Accounted (insert blk_hash E) s →
      Asked (insert blk_hash E) s s' h)
    {s s' : HotStuffBase Hash Sig PeerId} (hblk : s.core.storage blk_hash = some blk)
    (hs : Accounted (insert blk_hash E) s) (h : s.on_fetched deliver blk_hash blk = some s') :
    Adds s s' ∧ Accounted E s' ∧ s'.Underway blk_hash blk := by
  unfold on_fetched at h
  have hfetch := async_fetch_blk_adds s blk.qc.obj_hash (.qc_of blk_hash)
  have hqc := async_fetch_blk_waits_or_stored s blk.qc.obj_hash (.qc_of blk_hash)
  have hsame := async_fetch_blk_deliveries s blk.qc.obj_hash (.qc_of blk_hash)
  obtain ⟨hadds, hacc, hparents⟩ := deliver_parents hd h (hs.adds hfetch hsame)
  have hboth := hfetch.trans hadds
  have hunder : s'.Underway blk_hash blk := by
    refine ⟨hboth.core ▸ hblk, ?_, hparents⟩
    rw [hboth.core]
    exact hqc.imp_left fun hw => ⟨_, hadds.waiters _ _ hw, by simp [Waiter.is_qc_of]⟩
  refine ⟨hboth, fun x hx => ?_, hunder⟩
  rcases hacc x hx with (rfl | hE) | hw
  · exact .inr (.inr ⟨blk, hunder⟩)
  · exact .inl hE
  · exact .inr hw

/-- Induction on the depth of the deliveries: those that are on the stack are the ones in `E`. -/
theorem async_deliver_blk_asked {replica : PeerId} {fuel : ℕ} {blk_hash : Hash}
    {s s' : HotStuffBase Hash Sig PeerId}
    (h : s.async_deliver_blk replica fuel blk_hash = some s') (hs : Accounted E s) :
    Asked E s s' blk_hash := by
  induction fuel generalizing E s s' blk_hash with
  | zero => cases h
  | succ fuel ih =>
    unfold async_deliver_blk at h
    split at h
    · rename_i hdel
      cases h
      exact ⟨.refl s, hs, .inl (is_blk_delivered_eq s blk_hash ▸ hdel)⟩
    · split at h
      · rename_i hwait
        cases h
        exact ⟨.refl s, hs, .inr hwait⟩
      · have hmark : Adds s
            { s with blk_delivery_waiting := insert blk_hash s.blk_delivery_waiting } :=
          ⟨rfl, Finset.subset_insert .., fun _ _ hw => hw, fun _ _ => rfl⟩
        have hacc : Accounted (insert blk_hash E)
            { s with blk_delivery_waiting := insert blk_hash s.blk_delivery_waiting } := by
          intro x hx
          rcases Finset.mem_insert.mp hx with rfl | hx
          · exact .inl (Set.mem_insert ..)
          · exact (hs x hx).imp (Set.mem_insert_of_mem _) fun hw => hw.adds hmark
        have hmem : blk_hash ∈ insert blk_hash s.blk_delivery_waiting := Finset.mem_insert_self ..
        generalize hs1 : { s with
          blk_delivery_waiting := insert blk_hash s.blk_delivery_waiting } = s1 at h hmark hacc
        have hmem1 : blk_hash ∈ s1.blk_delivery_waiting := hs1 ▸ hmem
        have hfetch := async_fetch_blk_adds s1 blk_hash (.deliver replica)
        have hwaiter := async_fetch_blk_waits_or_stored s1 blk_hash (.deliver replica)
        cases hblk : s1.core.storage blk_hash with
        | none =>
          simp only [async_fetch_blk, hblk] at h hfetch hwaiter
          cases h
          refine ⟨hmark.trans hfetch, fun x hx => ?_, .inr hmem1⟩
          rcases hacc x hx with (rfl | hE) | hw
          · refine .inr (.inl ⟨_, hwaiter.resolve_right (by simp), rfl⟩)
          · exact .inl hE
          · exact .inr (hw.adds hfetch)
        | some blk =>
          simp only [async_fetch_blk, hblk] at h
          obtain ⟨hadds, hacc', -⟩ :=
            on_fetched_underway (fun _ _ _ he hs' => ih he hs') hblk hacc h
          exact ⟨hmark.trans hadds, hacc', .inr (hadds.deliveries hmem1)⟩

/-! ## Bodies that come -/

/-- The loop over the waiters of a stored block. -/
theorem resolve_all {fuel : ℕ} {blk_hash : Hash} {blk : Block Hash Sig}
    {l : List (Waiter Hash PeerId)} {s s' : HotStuffBase Hash Sig PeerId}
    (hblk : s.core.storage blk_hash = some blk) (hs : Accounted E s)
    (h : l.foldlM (resolve fuel blk_hash) s = some s') :
    Adds s s' ∧ Accounted E s' ∧
      ((∃ w ∈ l, w.is_deliver = true) → s'.Underway blk_hash blk) := by
  induction l generalizing s with
  | nil =>
    cases h
    exact ⟨.refl _, hs, by simp⟩
  | cons w l ih =>
    rw [List.foldlM_cons] at h
    obtain ⟨s1, h1, h⟩ := Option.bind_eq_some_iff.mp h
    have hturn : Adds s s1 ∧ Accounted E s1 ∧
        (w.is_deliver = true → s1.Underway blk_hash blk) := by
      cases w with
      | deliver replica =>
        unfold resolve at h1
        rw [hblk] at h1
        obtain ⟨hadds, hacc, hunder⟩ := on_fetched_underway
          (fun _ _ _ he hs' => async_deliver_blk_asked he hs') hblk
          (hs.mono (Set.subset_insert ..)) h1
        exact ⟨hadds, hacc, fun _ => hunder⟩
      | qc_of b =>
        cases h1
        exact ⟨.refl _, hs, fun hw => by cases hw⟩
      | answer r hashes =>
        cases h1
        exact ⟨.refl _, hs, fun hw => by cases hw⟩
    obtain ⟨hadds, hacc, hw⟩ := hturn
    obtain ⟨hadds', hacc', hrest⟩ := ih (hadds.core ▸ hblk) hacc h
    refine ⟨hadds.trans hadds', hacc', ?_⟩
    rintro ⟨w', hmem, hd⟩
    rcases List.mem_cons.mp hmem with rfl | hmem
    · exact (hw hd).adds hadds'
    · exact hrest ⟨w', hmem, hd⟩

/-- The entry of a stored block can go once its waiters are resolved. -/
theorem Accounted.erase_entry {blk_hash : Hash} {blk : Block Hash Sig}
    {s : HotStuffBase Hash Sig PeerId} (hs : Accounted E s)
    (hblk : s.core.storage blk_hash = some blk)
    (hdone : (∃ w ∈ s.waiters blk_hash, w.is_deliver = true) → s.Underway blk_hash blk) :
    Accounted E
      { s with
        blk_fetch_waiting := Function.update s.blk_fetch_waiting blk_hash none } := by
  have hunder : ∀ {x b}, s.Underway x b → Underway
      { s with blk_fetch_waiting := Function.update s.blk_fetch_waiting blk_hash none } x b := by
    intro x b hu
    refine ⟨hu.stored, ?_, hu.parents⟩
    by_cases hq : b.qc.obj_hash = blk_hash
    · exact .inr (by simp [hq, hblk])
    · simpa only [waiters, Function.update_of_ne hq] using hu.qc
  intro x hx
  rcases hs x hx with hE | hw | ⟨b, hu⟩
  · exact .inl hE
  · by_cases hxb : x = blk_hash
    · subst hxb
      exact .inr (.inr ⟨blk, hunder (hdone hw)⟩)
    · refine .inr (.inl ?_)
      simpa only [waiters, Function.update_of_ne hxb] using hw
  · exact .inr (.inr ⟨b, hunder hu⟩)

theorem on_fetch_blk_accounted {fuel : ℕ} {blk_hash : Hash}
    {s s' : HotStuffBase Hash Sig PeerId} (hs : Accounted E s)
    (hstored : (s.core.storage blk_hash).isSome) (h : s.on_fetch_blk fuel blk_hash = some s') :
    Accounted E s' := by
  obtain ⟨blk, hblk⟩ := Option.isSome_iff_exists.mp hstored
  unfold on_fetch_blk at h
  split at h
  · cases h
    exact hs
  · rename_i l hl
    obtain ⟨s1, h1, rfl⟩ := Option.map_eq_some_iff.mp h
    obtain ⟨hadds, hacc, hdone⟩ := resolve_all hblk hs h1
    refine hacc.erase_entry (hadds.core ▸ hblk) fun hw => hdone ?_
    have hsame : s1.waiters blk_hash = l := by
      rw [hadds.stored blk_hash hstored, waiters, hl, Option.getD_some]
    rwa [hsame] at hw

/-! ## Changes of the core -/

/-- The core grows, and deliveries only go when the block is delivered. -/
theorem Accounted.grows {s s' : HotStuffBase Hash Sig PeerId} (hs : Accounted E s)
    (hg : HotStuffCore.Grows s.core s'.core)
    (hfetch : s'.blk_fetch_waiting = s.blk_fetch_waiting)
    (hsub : s'.blk_delivery_waiting ⊆ s.blk_delivery_waiting)
    (hdone : ∀ x ∈ s.blk_delivery_waiting,
      s'.core.delivered x = true ∨ x ∈ s'.blk_delivery_waiting) : Accounted E s' := by
  have hwaiters : ∀ x, s'.waiters x = s.waiters x := by
    intro x
    unfold waiters
    rw [hfetch]
  intro x hx
  rcases hs x (hsub hx) with hE | hw | ⟨b, hu⟩
  · exact .inl hE
  · exact .inr (.inl (by rwa [hwaiters]))
  · obtain ⟨b', hb', hdata, -⟩ := hg x b hu.stored
    have hqc : b'.qc = b.qc := congrArg (·.qc) hdata
    refine .inr (.inr ⟨b', hb', ?_, fun p hp => ?_⟩)
    · rw [hqc, hwaiters]
      exact hu.qc.imp_right fun hq => hg.isSome hq
    · have hp' : p ∈ b.parent_hashes := by
        rw [← congrArg (·.parent_hashes) hdata]
        exact hp
      rcases hu.parents p hp' with hd | hmem
      · exact .inl (hg.delivered hd)
      · exact hdone p hmem

theorem add_blk_grows (config : Config Hash Sig) (data : BlockData Hash Sig)
    (s : HotStuffBase Hash Sig PeerId) :
    HotStuffCore.Grows s.core (s.add_blk config data).core :=
  HotStuffCore.call_grows config s.core (.add_blk data) _ rfl

theorem Accounted.add_blk {s : HotStuffBase Hash Sig PeerId} (hs : Accounted E s)
    (config : Config Hash Sig) (data : BlockData Hash Sig) :
    Accounted E (s.add_blk config data) :=
  hs.grows (add_blk_grows config data s) rfl subset_rfl fun _ hx => .inr hx

theorem add_blk_stored_self (config : Config Hash Sig) (data : BlockData Hash Sig)
    (s : HotStuffBase Hash Sig PeerId) :
    ((s.add_blk config data).core.storage (config.get_hash data)).isSome := by
  unfold HotStuffBase.add_blk EntityStorage.add_blk
  dsimp only
  split
  · assumption
  · simp

/-- The parser stores all blocks of a response before the first one is announced. -/
theorem parsed_accounted (config : Config Hash Sig) {blks : List (BlockData Hash Sig)}
    {s : HotStuffBase Hash Sig PeerId} (hs : Accounted E s) :
    Accounted E (blks.foldl (fun s data => s.add_blk config data) s) ∧
      HotStuffCore.Grows s.core (blks.foldl (fun s data => s.add_blk config data) s).core ∧
      ∀ h ∈ blks.map config.get_hash,
        ((blks.foldl (fun s data => s.add_blk config data) s).core.storage h).isSome := by
  induction blks generalizing s with
  | nil => exact ⟨hs, .refl _, by simp⟩
  | cons data blks ih =>
    obtain ⟨hacc, hg, hstored⟩ := ih (hs.add_blk config data)
    refine ⟨hacc, (add_blk_grows config data s).trans hg, fun h hmem => ?_⟩
    rcases List.mem_cons.mp hmem with rfl | hmem
    · exact hg.isSome (add_blk_stored_self config data s)
    · exact hstored h hmem

end

/-! ## Runs -/

section

variable {config : Config Hash Sig} {get_peer_id : ReplicaID → Option PeerId} {id : ReplicaID}
  {s t : HotStuffBase Hash Sig PeerId}

theorem Accounted.call {c : HotStuffCore.Call Hash Sig} (hs : Accounted ∅ s)
    (h : s.call config c = some t) : Accounted ∅ t := by
  obtain ⟨core, hcore, rfl⟩ := Option.map_eq_some_iff.mp h
  exact hs.grows (HotStuffCore.call_grows config s.core c core hcore) rfl subset_rfl
    fun _ hx => .inr hx

/-- An entry goes when its block is delivered, and stays when the delivery throws. -/
theorem Accounted.on_deliver_blk {blk_hash : Hash} (hs : Accounted ∅ s)
    (h : s.on_deliver_blk blk_hash = some t) : Accounted ∅ t := by
  have hgrows := HotStuffCore.on_deliver_blk_grows s.core blk_hash
  unfold HotStuffBase.on_deliver_blk at h
  split at h
  · rename_i core hcore
    obtain rfl := Option.some.inj h
    rw [hcore, Outcome.leaves_ok] at hgrows
    refine hs.grows hgrows rfl (Finset.erase_subset ..) fun x hx => ?_
    by_cases hxb : x = blk_hash
    · subst hxb
      exact .inl (HotStuffCore.delivered_of_on_deliver_blk hcore)
    · exact .inr (Finset.mem_erase.mpr ⟨hxb, hx⟩)
  · rename_i core what hcore
    obtain rfl := Option.some.inj h
    rw [hcore, Outcome.leaves_throw] at hgrows
    exact hs.grows hgrows rfl subset_rfl fun _ hx => .inr hx
  · cases h

/-- The blocks of a response are announced one after the other. -/
theorem Accounted.resp_blk {fuel : ℕ} {blks : List (BlockData Hash Sig)} (hs : Accounted ∅ s)
    (h : s.resp_blk_handler config fuel blks = some t) : Accounted ∅ t := by
  obtain ⟨hparsed, -, hstored⟩ := parsed_accounted config hs
  have hkept := foldlM_keeps (P := fun s1 : HotStuffBase Hash Sig PeerId => Accounted ∅ s1 ∧
    ∀ x ∈ blks.map config.get_hash, (s1.core.storage x).isSome) ?_ ⟨hparsed, hstored⟩ h
  · exact hkept.1
  · intro s1 x s2 hx ⟨hacc, hall⟩ h2
    exact ⟨on_fetch_blk_accounted hacc (hall x hx) h2, fun y hy => by
      rw [(on_fetch_blk_asks h2).1.core]
      exact hall y hy⟩

theorem req_blk_handler_adds (s : HotStuffBase Hash Sig PeerId) (peer : PeerId)
    (blk_hashes : List Hash) :
    Adds s (s.req_blk_handler peer blk_hashes) ∧
      (s.req_blk_handler peer blk_hashes).blk_delivery_waiting = s.blk_delivery_waiting := by
  unfold req_blk_handler
  generalize Waiter.answer peer blk_hashes = waiter
  induction blk_hashes generalizing s with
  | nil => exact ⟨.refl s, rfl⟩
  | cons h hs ih =>
    obtain ⟨hadds, hsame⟩ := ih (s.async_fetch_blk h waiter).1
    exact ⟨(async_fetch_blk_adds s h waiter).trans hadds,
      hsame.trans (async_fetch_blk_deliveries s h waiter)⟩

theorem Accounted.step [DecidableEq PeerId] {e : Event Hash Sig PeerId} (hs : Accounted ∅ s)
    (h : s.step config get_peer_id e = some t) : Accounted ∅ t := by
  cases e with
  | on_deliver_blk blk_hash => exact hs.on_deliver_blk h
  | on_receive_proposal prop => exact hs.call h
  | on_receive_vote vote => exact hs.call h
  | on_propose cmds parents extra => exact hs.call h
  | message fuel peer msg =>
    cases msg with
    | resp_blk blks => exact hs.resp_blk h
    | propose proposer data =>
      cases peer with
      | none => exact Option.some.inj h ▸ hs
      | some peer =>
        simp only [HotStuffBase.step, handle, propose_handler] at h
        split at h
        · exact Option.some.inj h ▸ hs.add_blk config data
        · exact (async_deliver_blk_asked h (hs.add_blk config data)).accounted
    | vote vote =>
      cases peer with
      | none => exact Option.some.inj h ▸ hs
      | some peer => exact (async_deliver_blk_asked h hs).accounted
    | req_blk blk_hashes =>
      cases peer with
      | none => exact Option.some.inj h ▸ hs
      | some peer =>
        obtain ⟨hadds, hsame⟩ := req_blk_handler_adds s peer blk_hashes
        exact Option.some.inj h ▸ hs.adds hadds hsame

/-- Nothing that the delivery waits for is missing but its verification. -/
structure Complete (s : HotStuffBase Hash Sig PeerId) (blk_hash : Hash) (blk : Block Hash Sig) :
    Prop where
  stored : s.core.storage blk_hash = some blk
  qc : (s.core.storage blk.qc.obj_hash).isSome
  parents : ∀ p ∈ blk.parent_hashes, s.core.delivered p = true

theorem Complete.on_deliver_blk {blk_hash : Hash} {blk : Block Hash Sig}
    (h : s.Complete blk_hash blk) (hne : blk.parent_hashes ≠ []) :
    ∃ t, s.on_deliver_blk blk_hash = some t ∧ t.core.delivered blk_hash = true ∧
      blk_hash ∉ t.blk_delivery_waiting := by
  obtain ⟨core, hcore, hd⟩ := HotStuffCore.delivered_once_all_is_there h.stored hne h.parents h.qc
  refine ⟨{ s with core := core, blk_delivery_waiting := s.blk_delivery_waiting.erase blk_hash },
    ?_, hd, Finset.notMem_erase _ _⟩
  rw [HotStuffBase.on_deliver_blk, hcore]

end

end HotStuffBase

end general_hotstuff
