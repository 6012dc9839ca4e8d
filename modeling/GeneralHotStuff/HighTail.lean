-- `PMHighTail` of `liveness.h` beside `HotStuffCore`. The tail for the next block lives in
-- one object and the highest certificate in the other, and three callbacks, which run as
-- soon as their promises resolve, keep the tail above the certified block.
import Mathlib.Data.List.Sort
import GeneralHotStuff.BlockLinks
import GeneralHotStuff.Replay
import GeneralHotStuff.Transitions

namespace general_hotstuff

open quorums (ReplicaID)
open transitions (Runs)

variable {Hash Sig : Type}

/-! ## Tails -/

/-- The order in which a loop visits the set of tails. -/
structure TailOrder (Hash : Type) where
  list : Finset Hash → List Hash
  mem : ∀ t x, x ∈ list t ↔ x ∈ t

namespace HotStuffCore

variable [DecidableEq Hash]

/-- Whether `a` is on the chain of first parents of `b`. -/
def check_ancestry (s : HotStuffCore Hash Sig) (a b : Hash) : Option Bool :=
  (s.walk (s.height a) (s.height b + 1) b).map fun (_, last) => last = a

/-- The turn of the loop of `reg_hqc_update` for one tail, with the best one so far. -/
def higher_tail (s : HotStuffCore Hash Sig) (best tail : Hash) : Option Hash :=
  (s.check_ancestry s.hqc.1 tail).map fun extends_hqc =>
    if extends_hqc && s.height best < s.height tail then tail else best

end HotStuffCore

/-- `PMHighTail` with the core that it is attached to. -/
structure PMHighTail (Hash Sig : Type) where
  hsc : HotStuffCore Hash Sig
  hqc_tail : Hash

namespace PMHighTail

variable [DecidableEq Hash]

def init (config : Config Hash Sig) (id : ReplicaID) : PMHighTail Hash Sig :=
  { hsc := .on_init config id, hqc_tail := config.b0 }

def get_parents (pm : PMHighTail Hash Sig) : List Hash := [pm.hqc_tail]

/-! ## Callbacks -/

/-- The core is in state `s` now. The callback runs when the highest certificate has moved. -/
def reg_hqc_update (order : TailOrder Hash) (pm : PMHighTail Hash Sig)
    (s : HotStuffCore Hash Sig) : Option (PMHighTail Hash Sig) :=
  if s.hqc.1 = pm.hsc.hqc.1 then some { hsc := s, hqc_tail := pm.hqc_tail }
  else
    ((order.list s.tails).foldlM s.higher_tail s.hqc.1).map fun tail =>
      { hsc := s, hqc_tail := tail }

def reg_proposal (prop : Proposal Hash) (pm : PMHighTail Hash Sig) : PMHighTail Hash Sig :=
  { pm with hqc_tail := prop.blk }

def reg_receive_proposal (prop : Proposal Hash) (pm : PMHighTail Hash Sig) :
    Outcome (PMHighTail Hash Sig) :=
  match pm.hsc.check_ancestry pm.hsc.hqc.1 prop.blk with
  | none => .undefined
  | some extends_hqc =>
    .ok
      { pm with
        hqc_tail :=
          if extends_hqc && pm.hsc.height pm.hqc_tail < pm.hsc.height prop.blk then prop.blk
          else pm.hqc_tail }

/-! ## The core with the callbacks -/

/-- A part of `HotStuffCore` that moves the highest certificate at most once. -/
def run (order : TailOrder Hash) (f : HotStuffCore Hash Sig → Outcome (HotStuffCore Hash Sig))
    (pm : PMHighTail Hash Sig) : Outcome (PMHighTail Hash Sig) :=
  match f pm.hsc with
  | .ok s => (pm.reg_hqc_update order s).elim .undefined .ok
  | .throw s what => (pm.reg_hqc_update order s).elim .undefined (.throw · what)
  | .undefined => .undefined

def on_receive_proposal (config : Config Hash Sig) (order : TailOrder Hash)
    (prop : Proposal Hash) (pm : PMHighTail Hash Sig) : Outcome (PMHighTail Hash Sig) :=
  (pm.run order (HotStuffCore.on_receive_proposal config prop)).andThen (reg_receive_proposal prop)

/-- The vote of the replica for a block of its own, which `beat_resp` may send back to it at once:
`voted` is its opinion of the block. -/
def on_own_vote (config : Config Hash Sig) (order : TailOrder Hash) (blk : Hash) (voted : Bool)
    (pm : PMHighTail Hash Sig) : Outcome (PMHighTail Hash Sig) :=
  if voted && !pm.hsc.vote_disabled then
    pm.run order (HotStuffCore.on_receive_vote config
      ⟨pm.hsc.id, blk, ⟨blk, config.sign pm.hsc.id blk⟩⟩)
  else .ok pm

/-- `on_propose` on `get_parents()`. -/
def on_propose (config : Config Hash Sig) (order : TailOrder Hash) (cmds : List Hash)
    (extra : List UInt8) (self_vote : Bool) (pm : PMHighTail Hash Sig) :
    Outcome (PMHighTail Hash Sig) :=
  let bnew := config.get_hash (pm.hsc.proposed cmds pm.get_parents extra)
  let prop : Proposal Hash := ⟨pm.hsc.id, bnew⟩
  (pm.run order fun s =>
      (s.store_proposed config cmds pm.hqc_tail [] extra).on_deliver_blk bnew).andThen fun pm1 =>
    (pm1.run order (HotStuffCore.update config bnew)).andThen fun pm2 =>
      if pm2.hsc.height bnew ≤ pm2.hsc.vheight then .throw pm2 .not_higher_than_vheight
      else
        (pm2.on_receive_proposal config order prop).andThen fun pm3 =>
          (pm3.on_own_vote config order bnew
            (self_vote && pm2.hsc.opinion bnew = some true)).andThen fun pm4 =>
            let pm5 := pm4.reg_proposal prop
            .ok { pm5 with
              hsc := { pm5.hsc with out := pm5.hsc.out ++ [.do_broadcast_proposal prop] } }

/-- What happens at the replica. Blocks arrive by `add_blk`. -/
inductive Event (Hash Sig : Type) where
  | add_blk (data : BlockData Hash Sig)
  | on_deliver_blk (blk : Hash)
  | on_propose (cmds : List Hash) (extra : List UInt8) (self_vote : Bool)
  | on_receive_proposal (prop : Proposal Hash)
  | on_receive_vote (vote : Vote Hash Sig)
  | set_vote_disabled (f : Bool)

def event (config : Config Hash Sig) (order : TailOrder Hash) (pm : PMHighTail Hash Sig) :
    Event Hash Sig → Outcome (PMHighTail Hash Sig)
  | .add_blk data => pm.run order (·.call config (.add_blk data))
  | .on_deliver_blk blk => pm.run order (HotStuffCore.on_deliver_blk blk)
  | .on_propose cmds extra self_vote => pm.on_propose config order cmds extra self_vote
  | .on_receive_proposal prop => pm.on_receive_proposal config order prop
  | .on_receive_vote vote => pm.run order (HotStuffCore.on_receive_vote config vote)
  | .set_vote_disabled f => pm.run order (·.call config (.set_vote_disabled f))

def step (config : Config Hash Sig) (order : TailOrder Hash) (pm : PMHighTail Hash Sig)
    (e : Event Hash Sig) : Option (PMHighTail Hash Sig) := (pm.event config order e).state?

/-- Proposals are received from other replicas. -/
def Received (pm : PMHighTail Hash Sig) : Event Hash Sig → Prop
  | .on_receive_proposal prop => prop.proposer ≠ pm.hsc.id
  | _ => True

end PMHighTail

/-! ## The core by itself -/

namespace HotStuffCore

/-- What the tails and the highest certificate are, whatever the core is called with. -/
structure Attached (config : Config Hash Sig) (s : HotStuffCore Hash Sig) : Prop where
  links : LinksOk config s
  certs : s.CertsOk
  tails : ∀ x ∈ s.tails, s.delivered x = true

/-- The core after a part of it that has kept to its rules. -/
structure Advanced (config : Config Hash Sig) (s s' : HotStuffCore Hash Sig) : Prop where
  core : Attached config s'
  grows : Grows s s'
  id : s'.id = s.id

variable {config : Config Hash Sig} {s s' : HotStuffCore Hash Sig}

theorem Advanced.trans {s'' : HotStuffCore Hash Sig} (h : Advanced config s s')
    (h' : Advanced config s' s'') : Advanced config s s'' :=
  ⟨h'.core, h.grows.trans h'.grows, h'.id.trans h.id⟩

theorem Attached.refl (h : Attached config s) : Advanced config s s := ⟨h, Grows.refl s, rfl⟩

theorem Attached.advanced (h : Attached config s) (hlinks : LinksOk config s' ∧ s'.CertsOk)
    (hg : Grows s s') (hid : s'.id = s.id)
    (ht : ∀ x ∈ s'.tails, x ∈ s.tails ∨ s'.delivered x = true) : Advanced config s s' where
  core := ⟨hlinks.1, hlinks.2, fun x hx => (ht x hx).elim (fun hx => hg.delivered (h.tails x hx))
    fun hx => hx⟩
  grows := hg
  id := hid

variable [DecidableEq Hash]

theorem check_ancestry_eq_true {a b : Hash} (h : s.check_ancestry a b = some true) :
    s.above b a := by
  obtain ⟨⟨passed, last⟩, hw, hlast⟩ := Option.map_eq_some_iff.mp h
  have hlast : last = a := by simpa using hlast
  exact hlast ▸ above_of_walk hw

theorem on_deliver_blk_tails (s : HotStuffCore Hash Sig) (blk : Hash) :
    (s.on_deliver_blk blk).Leaves fun s' =>
      ∀ x ∈ s'.tails, x ∈ s.tails ∨ s'.delivered x = true := by
  cases hb : s.storage blk with
  | none => simp [on_deliver_blk, hb]
  | some b =>
    cases hd : b.delivered with
    | true =>
      rw [on_deliver_blk_of_delivered hb hd, Outcome.leaves_ok]
      exact fun x hx => .inl hx
    | false =>
      refine (on_deliver_blk_leaves hb hd).mono fun s' hs' x hx => ?_
      obtain ⟨b', t, -, rfl, ht⟩ := hs'
      refine (ht x hx).imp_right fun hnew => ?_
      obtain ⟨heq, hd'⟩ := hnew
      rw [heq]
      exact (delivered_eq (storage_put_self s blk b')).trans hd'

theorem store_proposed_tails (config : Config Hash Sig) (s : HotStuffCore Hash Sig)
    (cmds : List Hash) (p : Hash) (ps : List Hash) (extra : List UInt8) :
    (s.store_proposed config cmds p ps extra).tails ⊆ s.tails := Finset.sdiff_subset

/-- A vote moves the highest certificate at most to its block, and leaves the tails alone. -/
theorem on_receive_vote_frame (config : Config Hash Sig) (s : HotStuffCore Hash Sig)
    (vote : Vote Hash Sig) : (s.on_receive_vote config vote).Leaves fun s' =>
      s'.tails = s.tails ∧ (s'.hqc.1 = s.hqc.1 ∨ s'.hqc.1 = vote.blk_hash) := by
  rcases on_receive_vote_cases config vote s with h | h | ⟨b, hb, -, -, -, h⟩
  · exact h ▸ Outcome.leaves_throw.mpr ⟨rfl, .inl rfl⟩
  · exact h ▸ Outcome.leaves_ok.mpr ⟨rfl, .inl rfl⟩
  · generalize s.on_receive_vote config vote = o at h ⊢
    cases h with
    | mismatch => exact Outcome.leaves_throw.mpr ⟨rfl, .inl rfl⟩
    | collected => exact Outcome.leaves_ok.mpr ⟨rfl, .inl rfl⟩
    | computed qc' =>
      rw [Outcome.leaves_ok]
      refine ⟨rfl, ?_⟩
      unfold update_hqc
      split
      · exact .inr rfl
      · exact .inl rfl

/-- What follows the delivery of a proposed block. -/
theorem kept_advanced (config : Config Hash Sig) (s0 : HotStuffCore Hash Sig) :
    Kept config (Advanced config s0) where
  update s nblk h hd s' hs' := by
    obtain ⟨b, hb, -⟩ := exists_of_delivered hd
    have hlinks := (kept_links config).update s nblk ⟨h.core.links, h.core.certs⟩ hd s' hs'
    obtain ⟨hsh, -, ⟨exec, storage, out, rfl⟩, -⟩ := update_leaves config hb s' hs'
    exact h.trans (h.core.advanced hlinks hsh.grows rfl fun x hx => .inl hx)
  vote_on s prop h s' hs' := by
    have hlinks := (kept_links config).vote_on s prop ⟨h.core.links, h.core.certs⟩ s' hs'
    have hg := (vote_on_sameShape config s prop s' hs').grows
    refine h.trans (h.core.advanced hlinks hg (vote_on_quiet config s prop s' hs').id
      fun x hx => .inl ?_)
    rcases vote_on_cases config prop s with ⟨-, ho⟩ | ho | ⟨-, ho⟩
    · rw [ho] at hs'
      cases hs'
    · rw [ho] at hs'
      exact Option.some.inj hs' ▸ hx
    · rw [ho] at hs'
      have heq := Option.some.inj hs'
      subst heq
      exact hx
  broadcast s prop h :=
    h.trans (h.core.advanced ((kept_links config).broadcast s prop ⟨h.core.links, h.core.certs⟩)
      (Grows.refl s) rfl fun x hx => .inl hx)

theorem Attached.on_deliver_blk (h : Attached config s) (blk : Hash) :
    (s.on_deliver_blk blk).Leaves (Advanced config s) := fun s' hs' =>
  h.advanced (call_links config h.links h.certs (.on_deliver_blk blk) s' hs')
    (on_deliver_blk_grows s blk s' hs') (on_deliver_blk_quiet s blk s' hs').id
    (on_deliver_blk_tails s blk s' hs')

theorem Attached.deliver_proposed (h : Attached config s) (cmds : List Hash) (p : Hash)
    (ps : List Hash) (extra : List UInt8) :
    ((s.store_proposed config cmds p ps extra).on_deliver_blk
      (config.get_hash (s.proposed cmds (p :: ps) extra))).Leaves (Advanced config s) := by
  intro s' hs'
  have hq := (store_proposed_quiet config s cmds p ps extra).trans (on_deliver_blk_quiet _ _ s' hs')
  refine h.advanced (deliver_proposed_links h.links h.certs cmds p ps extra s' hs') hq.grows hq.id
    fun _ hx => ?_
  exact (on_deliver_blk_tails _ _ s' hs' _ hx).imp_left
    (store_proposed_tails config s cmds p ps extra ·)

theorem Attached.on_receive_vote (h : Attached config s) (vote : Vote Hash Sig) :
    (s.on_receive_vote config vote).Leaves (Advanced config s) := fun s' hs' =>
  h.advanced (call_links config h.links h.certs (.on_receive_vote vote) s' hs')
    (on_receive_vote_sameShape config s vote s' hs').grows
    (on_receive_vote_quiet config s vote s' hs').id
    fun _ hx => .inl ((on_receive_vote_frame config s vote s' hs').1 ▸ hx)

theorem Attached.add_blk (h : Attached config s) (data : BlockData Hash Sig) :
    (s.call config (.add_blk data)).Leaves (Advanced config s) := fun s' hs' =>
  h.advanced (call_links config h.links h.certs _ s' hs') (call_grows config s _ s' hs')
    (congrArg (·.id) (Option.some.inj hs').symm) fun x hx => by
      have heq := Option.some.inj hs'
      subst heq
      exact .inl hx

theorem Attached.set_vote_disabled (h : Attached config s) (f : Bool) :
    (s.call config (.set_vote_disabled f)).Leaves (Advanced config s) := fun s' hs' =>
  h.advanced (call_links config h.links h.certs _ s' hs') (call_grows config s _ s' hs')
    (congrArg (·.id) (Option.some.inj hs').symm) fun x hx => by
      have heq := Option.some.inj hs'
      subst heq
      exact .inl hx

end HotStuffCore

namespace PMHighTail

open HotStuffCore (Attached Advanced Grows)

variable [DecidableEq Hash] {config : Config Hash Sig} {order : TailOrder Hash}
  {pm pm' : PMHighTail Hash Sig}

/-! ## The tail follows the highest certificate -/

/-- The tail is the certified block, or a delivered one above it. -/
structure Follows (config : Config Hash Sig) (pm : PMHighTail Hash Sig) : Prop where
  core : Attached config pm.hsc
  tail : pm.hqc_tail = pm.hsc.hqc.1 ∨ pm.hsc.delivered pm.hqc_tail = true
  above : pm.hsc.above pm.hqc_tail pm.hsc.hqc.1

omit [DecidableEq Hash] in
theorem Follows.stays (h : Follows config pm) {s : HotStuffCore Hash Sig}
    (hs : Advanced config pm.hsc s) (hhqc : s.hqc.1 = pm.hsc.hqc.1) :
    Follows config { hsc := s, hqc_tail := pm.hqc_tail } where
  core := hs.core
  tail := by
    rw [hhqc]
    exact h.tail.imp_right hs.grows.delivered
  above := by
    rw [hhqc]
    rcases h.tail with heq | hd
    · rw [heq]
      exact .refl
    · exact h.core.links.chained.above_of_grows hs.grows hd h.above

/-- The callback picks the certified block or a tail that descends from it. -/
theorem Follows.of_hqc_update (h : Follows config pm) {s : HotStuffCore Hash Sig}
    (hs : Advanced config pm.hsc s) (hpm : pm.reg_hqc_update order s = some pm') :
    Follows config pm' ∧ pm'.hsc = s := by
  unfold reg_hqc_update at hpm
  split at hpm
  · rename_i hhqc
    exact Option.some.inj hpm ▸ ⟨h.stays hs hhqc, rfl⟩
  · obtain ⟨tail, htail, rfl⟩ := Option.map_eq_some_iff.mp hpm
    have hbest := transitions.foldlM_keeps (f := s.higher_tail)
      (P := fun x => (x = s.hqc.1 ∨ s.delivered x = true) ∧ s.above x s.hqc.1)
      (fun best x t hx hbest ht => ?_) ⟨.inl rfl, .refl⟩ htail
    · exact ⟨⟨hs.core, hbest.1, hbest.2⟩, rfl⟩
    · obtain ⟨extends_hqc, hanc, rfl⟩ := Option.map_eq_some_iff.mp ht
      split
      · rename_i hif
        rw [Bool.and_eq_true] at hif
        rw [hif.1] at hanc
        exact ⟨.inr (hs.core.tails x ((order.mem _ _).mp hx)),
          HotStuffCore.check_ancestry_eq_true hanc⟩
      · exact hbest

/-- A part of the core, and the callback after it. -/
theorem run_state? {f : HotStuffCore Hash Sig → Outcome (HotStuffCore Hash Sig)}
    (h : (pm.run order f).state? = some pm') :
    ∃ s, (f pm.hsc).state? = some s ∧ pm.reg_hqc_update order s = some pm' := by
  unfold run at h
  cases hf : f pm.hsc with
  | ok s =>
    simp only [hf] at h
    cases hr : pm.reg_hqc_update order s with
    | none => simp [hr, Outcome.state?] at h
    | some q => exact ⟨s, rfl, by simpa [hr, Outcome.state?] using h⟩
  | throw s what =>
    simp only [hf] at h
    cases hr : pm.reg_hqc_update order s with
    | none => simp [hr, Outcome.state?] at h
    | some q => exact ⟨s, rfl, by simpa [hr, Outcome.state?] using h⟩
  | undefined => simp [hf, Outcome.state?] at h

theorem run_ok {f : HotStuffCore Hash Sig → Outcome (HotStuffCore Hash Sig)}
    (h : pm.run order f = .ok pm') :
    ∃ s, f pm.hsc = .ok s ∧ pm.reg_hqc_update order s = some pm' := by
  unfold run at h
  cases hf : f pm.hsc with
  | ok s =>
    simp only [hf] at h
    cases hr : pm.reg_hqc_update order s with
    | none => simp [hr] at h
    | some q => exact ⟨s, rfl, by simpa [hr] using h⟩
  | throw s what =>
    simp only [hf] at h
    cases hr : pm.reg_hqc_update order s with
    | none => simp [hr] at h
    | some q => simp [hr] at h
  | undefined => simp [hf] at h

/-- What a part of the core leaves, the callback leaves. -/
theorem Follows.run (h : Follows config pm) (order : TailOrder Hash)
    {f : HotStuffCore Hash Sig → Outcome (HotStuffCore Hash Sig)}
    {Q : HotStuffCore Hash Sig → Prop}
    (hf : (f pm.hsc).Leaves fun s => Advanced config pm.hsc s ∧ Q s) :
    (pm.run order f).Leaves fun pm' => Follows config pm' ∧ Q pm'.hsc := by
  intro pm' hpm'
  obtain ⟨s, hs, hr⟩ := run_state? hpm'
  obtain ⟨hadv, hQ⟩ := hf s hs
  obtain ⟨hpm, rfl⟩ := h.of_hqc_update hadv hr
  exact ⟨hpm, hQ⟩

theorem Follows.reg_receive_proposal (h : Follows config pm) {prop : Proposal Hash}
    (hd : pm.hsc.delivered prop.blk = true) :
    (pm.reg_receive_proposal prop).Leaves fun pm' =>
      Follows config pm' ∧ pm'.hsc = pm.hsc := by
  unfold PMHighTail.reg_receive_proposal
  split
  · exact Outcome.leaves_undefined
  · rename_i extends_hqc hanc
    rw [Outcome.leaves_ok]
    refine ⟨?_, rfl⟩
    split
    · rename_i hif
      rw [Bool.and_eq_true] at hif
      rw [hif.1] at hanc
      exact ⟨h.core, .inr hd, HotStuffCore.check_ancestry_eq_true hanc⟩
    · exact h

/-! ## Events -/

theorem Follows.on_receive_proposal (h : Follows config pm) {prop : Proposal Hash}
    (hne : prop.proposer ≠ pm.hsc.id) :
    (pm.on_receive_proposal config order prop).Leaves (Follows config) := by
  have hk := HotStuffCore.kept_advanced config pm.hsc
  have hrun := h.run order (f := HotStuffCore.on_receive_proposal config prop)
    (Q := fun _ => True) ((hk.on_receive_proposal h.core.refl prop).mono fun s hs => ⟨hs, trivial⟩)
  refine (hrun.mono fun _ hpm => hpm.1).andThen fun pm1 hok h1 => ?_
  -- only a delivered block comes this far
  obtain ⟨s, hs, hr⟩ := run_ok hok
  have hd : pm.hsc.delivered prop.blk = true := by
    by_contra hd
    rw [HotStuffCore.on_receive_proposal, if_neg hne, if_neg hd] at hs
    cases hs
  have hadv : Advanced config pm.hsc s :=
    hk.on_receive_proposal h.core.refl prop s (by rw [hs]; rfl)
  obtain ⟨-, rfl⟩ := h.of_hqc_update hadv hr
  exact (h1.reg_receive_proposal (hadv.grows.delivered hd)).mono fun _ hpm => hpm.1

/-- The replica in the middle of `on_propose`, with its block in the chain above the highest
certificate. -/
structure Proposing (config : Config Hash Sig) (id : ReplicaID) (bnew : Hash)
    (pm : PMHighTail Hash Sig) : Prop where
  follows : Follows config pm
  id : pm.hsc.id = id
  delivered : pm.hsc.delivered bnew = true
  above : pm.hsc.above bnew pm.hsc.hqc.1

theorem Proposing.run {id : ReplicaID} {bnew : Hash} (h : Proposing config id bnew pm)
    {f : HotStuffCore Hash Sig → Outcome (HotStuffCore Hash Sig)}
    (hf : (f pm.hsc).Leaves fun s => Advanced config pm.hsc s ∧
      (s.hqc.1 = pm.hsc.hqc.1 ∨ s.hqc.1 = bnew)) :
    (pm.run order f).Leaves (Proposing config id bnew) := by
  have hfQ := hf.mono (Q := fun s => Advanced config pm.hsc s ∧ Advanced config pm.hsc s ∧
    (s.hqc.1 = pm.hsc.hqc.1 ∨ s.hqc.1 = bnew)) fun s hs => ⟨hs.1, hs.1, hs.2⟩
  refine (h.follows.run order hfQ).mono fun pm' ⟨hpm, hadv, hhqc⟩ => ?_
  refine ⟨hpm, hadv.id.trans h.id, hadv.grows.delivered h.delivered, ?_⟩
  rcases hhqc with heq | heq
  · rw [heq]
    exact h.follows.core.links.chained.above_of_grows hadv.grows h.delivered h.above
  · rw [heq]
    exact .refl

/-- The block enters the chain: its parent is the tail, and its certificate the highest one. -/
theorem Follows.deliver_proposed (hc : config.CollisionFree) (h : Follows config pm)
    (order : TailOrder Hash) (cmds : List Hash) (extra : List UInt8) :
    let bnew := config.get_hash (pm.hsc.proposed cmds pm.get_parents extra)
    let o := pm.run order fun s =>
      (s.store_proposed config cmds pm.hqc_tail [] extra).on_deliver_blk bnew
    o.Leaves (Follows config) ∧ ∀ pm', o = .ok pm' → Proposing config pm.hsc.id bnew pm' ∧
      pm'.hsc.qc_ref bnew = some pm'.hsc.hqc.1 := by
  intro bnew o
  have hdel := h.core.deliver_proposed cmds pm.hqc_tail [] extra
  have hhqc : ((pm.hsc.store_proposed config cmds pm.hqc_tail [] extra).on_deliver_blk bnew).Leaves
      fun s => s.hqc = pm.hsc.hqc := fun s hs => (HotStuffCore.on_deliver_blk_sameVotes _ _ s hs).1
  have hrun := h.run order (f := fun s =>
    (s.store_proposed config cmds pm.hqc_tail [] extra).on_deliver_blk bnew)
    (Q := fun s => Grows pm.hsc s ∧ s.id = pm.hsc.id ∧ s.hqc = pm.hsc.hqc)
    fun s hs => ⟨hdel s hs, (hdel s hs).grows, (hdel s hs).id, hhqc s hs⟩
  refine ⟨hrun.mono fun _ hpm => hpm.1, fun pm' hok => ?_⟩
  obtain ⟨hpm, hg, hid, heq⟩ := hrun pm' (congrArg Outcome.state? hok)
  obtain ⟨s, hs, hr⟩ := run_ok hok
  obtain ⟨-, rfl⟩ := h.of_hqc_update (hdel s (congrArg Outcome.state? hs)) hr
  have hd := HotStuffCore.delivered_of_on_deliver_blk hs
  have hproposed : (pm.hsc.proposed cmds pm.get_parents extra).parent_hashes = [pm.hqc_tail] := rfl
  obtain ⟨hpar, href, -⟩ := hpm.core.links.of_hash hc hproposed hd
  refine ⟨⟨hpm, hid, hd, .head hpar ?_⟩, ?_⟩
  · rw [heq]
    rcases h.tail with htail | htail
    · rw [htail]
    · exact h.core.links.chained.above_of_grows hg htail h.above
  · rw [heq, ← h.core.certs.hqc]
    exact href

theorem Proposing.update {id : ReplicaID} {bnew : Hash} (h : Proposing config id bnew pm)
    (href : pm.hsc.qc_ref bnew = some pm.hsc.hqc.1) :
    (pm.run order (HotStuffCore.update config bnew)).Leaves (Proposing config id bnew) := by
  obtain ⟨b, hb, -⟩ := HotStuffCore.exists_of_delivered h.delivered
  refine h.run fun s hs => ?_
  refine ⟨(HotStuffCore.kept_advanced config pm.hsc).update pm.hsc bnew h.follows.core.refl
    h.delivered s hs, .inl ?_⟩
  obtain ⟨-, -, ⟨exec, storage, out, rfl⟩, -⟩ := HotStuffCore.update_leaves config hb s hs
  rcases pm.hsc.touched_hqc config bnew b with heq | ⟨q, hu, -, hlt⟩
  · exact congrArg Prod.fst heq
  · have hq := (HotStuffCore.undecided_ref_eq_some.mp hu).1
    rw [href, Option.some.injEq] at hq
    rw [hq] at hlt
    exact absurd hlt (Nat.lt_irrefl _)

theorem Proposing.on_own_proposal {id : ReplicaID} {bnew : Hash} (h : Proposing config id bnew pm) :
    (pm.on_receive_proposal config order ⟨id, bnew⟩).Leaves (Proposing config id bnew) := by
  have hvote : (pm.hsc.on_receive_proposal config ⟨id, bnew⟩).Leaves fun s =>
      Advanced config pm.hsc s ∧ (s.hqc.1 = pm.hsc.hqc.1 ∨ s.hqc.1 = bnew) := by
    intro s hs
    rw [HotStuffCore.on_receive_proposal, if_pos h.id.symm] at hs
    refine ⟨(HotStuffCore.kept_advanced config pm.hsc).vote_on pm.hsc _ h.follows.core.refl s hs,
      .inl ?_⟩
    rcases HotStuffCore.vote_on_cases config ⟨id, bnew⟩ pm.hsc with ⟨-, ho⟩ | ho | ⟨-, ho⟩
    · rw [ho] at hs
      cases hs
    · rw [ho] at hs
      exact Option.some.inj hs ▸ rfl
    · rw [ho] at hs
      exact Option.some.inj hs ▸ rfl
  refine (h.run hvote).andThen fun pm1 _ h1 => ?_
  refine (h1.follows.reg_receive_proposal h1.delivered).mono fun pm2 ⟨hpm, hsc⟩ => ⟨hpm, ?_, ?_, ?_⟩
  · rw [hsc]
    exact h1.id
  · rw [hsc]
    exact h1.delivered
  · rw [hsc]
    exact h1.above

theorem Proposing.on_own_vote {id : ReplicaID} {bnew : Hash} (h : Proposing config id bnew pm)
    (voted : Bool) :
    (pm.on_own_vote config order bnew voted).Leaves (Proposing config id bnew) := by
  unfold PMHighTail.on_own_vote
  split
  · exact h.run fun s hs => ⟨h.follows.core.on_receive_vote _ s hs,
      (HotStuffCore.on_receive_vote_frame config pm.hsc _ s hs).2⟩
  · exact Outcome.leaves_ok.mpr h

theorem Follows.on_propose (hc : config.CollisionFree) (h : Follows config pm) (cmds : List Hash)
    (extra : List UInt8) (self_vote : Bool) :
    (pm.on_propose config order cmds extra self_vote).Leaves (Follows config) := by
  unfold PMHighTail.on_propose
  obtain ⟨hleaves, hproposing⟩ := h.deliver_proposed hc order cmds extra
  generalize config.get_hash (pm.hsc.proposed cmds pm.get_parents extra) = bnew at *
  refine hleaves.andThen fun pm1 hok _ => ?_
  obtain ⟨h1, href⟩ := hproposing pm1 hok
  refine (h1.update href).bind (fun pm2 h2 => h2.follows) fun pm2 h2 => ?_
  split
  · exact Outcome.leaves_throw.mpr h2.follows
  refine h2.on_own_proposal.bind (fun pm3 h3 => h3.follows) fun pm3 h3 => ?_
  refine (h3.on_own_vote _).bind (fun pm4 h4 => h4.follows) fun pm4 h4 => ?_
  rw [Outcome.leaves_ok]
  have hadv := (HotStuffCore.kept_advanced config pm4.hsc).broadcast pm4.hsc ⟨pm.hsc.id, bnew⟩
    h4.follows.core.refl
  exact ⟨hadv.core, .inr h4.delivered, h4.above⟩

theorem Follows.event (hc : config.CollisionFree) (h : Follows config pm) {e : Event Hash Sig}
    (he : pm.Received e) : (pm.event config order e).Leaves (Follows config) := by
  have hcore : ∀ f : HotStuffCore Hash Sig → Outcome (HotStuffCore Hash Sig),
      (f pm.hsc).Leaves (Advanced config pm.hsc) → (pm.run order f).Leaves (Follows config) :=
    fun f hf => (h.run order (Q := fun _ => True) fun s hs => ⟨hf s hs, trivial⟩).mono
      fun _ hpm => hpm.1
  cases e with
  | add_blk data => exact hcore (·.call config (.add_blk data)) (h.core.add_blk data)
  | on_deliver_blk blk => exact hcore _ (h.core.on_deliver_blk blk)
  | on_propose cmds extra self_vote => exact h.on_propose hc cmds extra self_vote
  | on_receive_proposal prop => exact h.on_receive_proposal he
  | on_receive_vote vote => exact hcore _ (h.core.on_receive_vote vote)
  | set_vote_disabled f =>
    exact hcore (·.call config (.set_vote_disabled f)) (h.core.set_vote_disabled f)

theorem init_follows (config : Config Hash Sig) (id : ReplicaID) :
    Follows config (init config id) :=
  have ht := HotStuffCore.on_init_tidy config id
  ⟨⟨ht.links, ht.certs, ht.tails⟩, .inl rfl, .refl⟩

theorem Follows.of_runs (hc : config.CollisionFree) {id : ReplicaID}
    (h : Runs (step config order) Received (init config id) pm) : Follows config pm :=
  h.keeps (init_follows config id) fun _ _ _ hpm he hs => hpm.event hc he _ hs

omit [DecidableEq Hash] in
/-- A block with the highest certificate on the tail is on the chain of the certified block. -/
theorem Follows.extends (h : Follows config pm) (cmds : List Hash) (extra : List UInt8) :
    config.Extends (pm.hsc.proposed cmds pm.get_parents extra) := by
  intro p hp
  have hp : pm.hqc_tail = p := Option.some.inj hp
  subst hp
  have hobj : (pm.hsc.proposed cmds pm.get_parents extra).qc.obj_hash = pm.hsc.hqc.1 :=
    h.core.certs.hqc
  rw [hobj]
  rcases h.tail with heq | hd
  · rw [heq]
    exact .refl
  · exact (h.core.links.chained.above_of_above hd h.above).1

/-- In every state the first of the parents for the next block is the block of the highest
certificate or descends from it, so that a replica proposes on the chain that it certifies. -/
theorem own_proposals_extend_what_they_certify (hc : config.CollisionFree)
    (order : TailOrder Hash) (id : ReplicaID)
    (h : Runs (step config order) Received (init config id) pm) :
    (∃ p, pm.get_parents.head? = some p ∧ pm.hsc.above p pm.hsc.hqc.1) ∧
      ∀ cmds extra, config.Extends (pm.hsc.proposed cmds pm.get_parents extra) :=
  have hpm := Follows.of_runs hc h
  ⟨⟨pm.hqc_tail, rfl, hpm.above⟩, hpm.extends⟩

/-- Tails by increasing number. -/
def ascending : TailOrder ℕ where
  list t := Quot.liftOn t.val (fun l => l.insertionSort (· ≤ ·)) fun l l' h =>
    List.Perm.eq_of_pairwise' (List.pairwise_insertionSort (· ≤ ·) l)
      (List.pairwise_insertionSort (· ≤ ·) l')
      ((List.perm_insertionSort _ l).trans
        (List.Perm.trans h (List.perm_insertionSort _ l').symm))
  mem t x := by
    obtain ⟨⟨l⟩, h⟩ := t
    exact List.mem_insertionSort (· ≤ ·)

instance (pm : PMHighTail Hash Sig) : ∀ e, Decidable (pm.Received e)
  | .add_blk _ => .isTrue trivial
  | .on_deliver_blk _ => .isTrue trivial
  | .on_propose _ _ _ => .isTrue trivial
  | .on_receive_proposal prop => inferInstanceAs (Decidable (prop.proposer ≠ pm.hsc.id))
  | .on_receive_vote _ => .isTrue trivial
  | .set_vote_disabled _ => .isTrue trivial

/-- The block arrives, is delivered and is proposed by replica 1. -/
def proposed_by_1 (data : BlockData ℕ (ReplicaID × ℕ)) : List (Event ℕ (ReplicaID × ℕ)) :=
  [.add_blk data, .on_deliver_blk (block_code data), .on_receive_proposal ⟨1, block_code data⟩]

/-- Two blocks in a row. The second one has a certificate on the first. -/
def two_in_a_row : List (Event ℕ (ReplicaID × ℕ)) :=
  proposed_by_1 (chain_block 0) ++ proposed_by_1 (chain_block 1)

theorem the_third_block_in_a_row_extends_the_first :
    ∃ pm, transitions.play (step (coded_replicas false) ascending) Received
        (init (coded_replicas false) 0) two_in_a_row = some pm ∧
      pm.hsc.hqc.1 = chain_code 1 ∧ pm.get_parents = [chain_code 2] ∧
      pm.hsc.above (chain_code 2) (chain_code 1) ∧
      ∀ cmds extra, (coded_replicas false).Extends
        (pm.hsc.proposed cmds pm.get_parents extra) := by
  obtain ⟨pm, hpm⟩ := Option.isSome_iff_exists.mp
    (show (transitions.play (step (coded_replicas false) ascending) Received
      (init (coded_replicas false) 0) two_in_a_row).isSome by decide +kernel)
  have hstate : (transitions.play (step (coded_replicas false) ascending) Received
      (init (coded_replicas false) 0) two_in_a_row).map (fun pm => (pm.hsc.hqc.1, pm.hqc_tail)) =
      some (chain_code 1, chain_code 2) := by decide +kernel
  rw [hpm, Option.map_some, Option.some.injEq, Prod.mk.injEq] at hstate
  obtain ⟨⟨p, hp, habove⟩, hextends⟩ := own_proposals_extend_what_they_certify
    (coded_collisionFree false) ascending 0 (Runs.of_play hpm)
  have hp : pm.hqc_tail = p := Option.some.inj hp
  rw [← hp, hstate.1, hstate.2] at habove
  exact ⟨pm, hpm, hstate.1, congrArg ([·]) hstate.2, habove, hextends⟩

end PMHighTail

end general_hotstuff
