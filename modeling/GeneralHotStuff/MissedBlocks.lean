-- The blocks that a replica has loaded before it gets any of their proposals: each hangs on
-- its parent, and its certificate is on one of its ancestors.
import GeneralHotStuff.BlockLinks

namespace general_hotstuff

open quorums (ReplicaID)

variable {Hash Sig : Type}

namespace HotStuffCore

/-! ## The blocks to catch up on -/

/-- Blocks arrive and are delivered, and nothing else happens. -/
def Loading (_ : HotStuffCore Hash Sig) : Call Hash Sig → Prop
  | .add_blk _ => True
  | .on_deliver_blk _ => True
  | _ => False

/-- Three certificates in a row lead from `nblk` down to `blk`, the last two of them on parents. -/
def Committable (s : HotStuffCore Hash Sig) (nblk blk : Hash) : Prop :=
  ∃ blk2 blk1, s.qc_ref nblk = some blk2 ∧ s.qc_ref blk2 = some blk1 ∧ s.qc_ref blk1 = some blk ∧
    (s.parents blk2).head? = some blk1 ∧ (s.parents blk1).head? = some blk

/-- The blocks are delivered, with all that they name. Each certificate is on an ancestor, no two
certified blocks have the same height and no two committable ones conflict. -/
structure Consistent (config : Config Hash Sig) (s : HotStuffCore Hash Sig) (B : Finset Hash) :
    Prop where
  delivered : ∀ x ∈ B, s.delivered x = true
  parents : ∀ x ∈ B, ∀ p ∈ s.parents x, p ∈ B
  refs : ∀ x ∈ B, ∀ q, s.qc_ref x = some q → q ∈ B
  descends : ∀ x ∈ B, x ≠ config.b0 → ∀ q, s.qc_ref x = some q →
    ∃ p, (s.parents x).head? = some p ∧ s.above p q
  heights : ∀ x ∈ B, ∀ y ∈ B, ∀ q q', s.qc_ref x = some q → s.qc_ref y = some q' →
    s.height q = s.height q' → q = q'
  agree : ∀ x ∈ B, ∀ y ∈ B, ∀ c c', s.Committable x c → s.Committable y c' →
    s.above c c' ∨ s.above c' c

/-- No height in `B` has wrapped around. -/
def Unwrapped (config : Config Hash Sig) (s : HotStuffCore Hash Sig) (B : Finset Hash) : Prop :=
  ∀ x ∈ B, x ≠ config.b0 → s.height x ≠ 0

/-! ## After loading -/

/-- A replica that has done nothing but to load blocks. -/
structure Fresh (config : Config Hash Sig) (s : HotStuffCore Hash Sig) : Prop where
  links : LinksOk config s
  certs : s.CertsOk
  log : LogOk config s
  hqc : s.hqc.1 = config.b0
  b_lock : s.b_lock = config.b0
  b_exec : s.b_exec = config.b0
  refs : ∀ x, (s.qc_ref x).isSome → s.delivered x = true

section Loaded

variable [DecidableEq Hash] {config : Config Hash Sig} {s s' : HotStuffCore Hash Sig}

theorem on_init_fresh (config : Config Hash Sig) (id : ReplicaID) :
    Fresh config (on_init config id) where
  links := on_init_links config id
  certs := on_init_certsOk config id
  log := on_init_logOk config id
  hqc := rfl
  b_lock := rfl
  b_exec := rfl
  refs := fun _ hx => (on_init_tidy config id).blank.delivered_of_qc_ref hx

omit [DecidableEq Hash] in
theorem Fresh.quiet (h : Fresh config s) (hlinks : LinksOk config s' ∧ s'.CertsOk)
    (hq : Quiet s s') (hhqc : s'.hqc = s.hqc) (hlock : s'.b_lock = s.b_lock)
    (hrefs : ∀ x, (s'.qc_ref x).isSome → (s.qc_ref x).isSome ∨ s'.delivered x = true) :
    Fresh config s' where
  links := hlinks.1
  certs := hlinks.2
  log := h.log.quiet h.links.grounded hq
  hqc := (congrArg Prod.fst hhqc).trans h.hqc
  b_lock := hlock.trans h.b_lock
  b_exec := hq.b_exec.trans h.b_exec
  refs x hx := (hrefs x hx).elim (fun hx => hq.grows.delivered (h.refs x hx))
    fun hx => hx

/-- A certificate is looked up when its block is delivered. -/
theorem qc_ref_put {x y : Hash} {b : Block Hash Sig}
    (hb : b.qc_ref.isSome → (s.qc_ref x).isSome ∨ b.delivered = true)
    (hy : ((s.put x b).qc_ref y).isSome) :
    (s.qc_ref y).isSome ∨ (s.put x b).delivered y = true := by
  by_cases heq : y = x
  · subst heq
    rw [qc_ref_eq (storage_put_self s y b)] at hy
    exact (hb hy).imp_right (delivered_eq (storage_put_self s y b)).trans
  · rw [qc_ref, storage_put_of_ne s b heq] at hy
    exact .inl hy

theorem Fresh.load (h : Fresh config s) {c : Call Hash Sig} (hc : s.Loading c) :
    (s.call config c).Leaves (Fresh config) := by
  intro s' hs'
  have hlinks := call_links config h.links h.certs c s' hs'
  cases c with
  | add_blk data =>
    cases hb : s.storage (config.get_hash data) with
    | none =>
      rw [call_add_blk_of_none hb] at hs'
      obtain rfl := Option.some.inj hs'
      exact h.quiet hlinks (Quiet.put_new hb rfl) rfl rfl fun _ =>
        qc_ref_put fun hq => by simp [Block.unserialize] at hq
    | some b =>
      rw [call_add_blk_of_isSome (by simp [hb])] at hs'
      exact Option.some.inj hs' ▸ h
  | on_deliver_blk blk =>
    have hq := on_deliver_blk_quiet s blk s' hs'
    cases hb : s.storage blk with
    | none => simp [HotStuffCore.call, on_deliver_blk, hb, Outcome.state?] at hs'
    | some b =>
      cases hd : b.delivered with
      | true =>
        rw [HotStuffCore.call, on_deliver_blk_of_delivered hb hd] at hs'
        exact Option.some.inj hs' ▸ h
      | false =>
        obtain ⟨b', t, hdel, rfl, -⟩ := on_deliver_blk_leaves hb hd s' hs'
        refine h.quiet hlinks hq rfl rfl fun y hy => ?_
        refine qc_ref_put (s := s) (fun hb' => ?_) hy
        rw [qc_ref_eq hb]
        cases hdel with
        | blocked => exact .inl hb'
        | unfetched => exact .inl hb'
        | delivered => exact .inr rfl
  | on_propose cmds parents extra => exact hc.elim
  | on_receive_proposal prop => exact hc.elim
  | on_receive_vote vote => exact hc.elim
  | set_vote_disabled f => exact hc.elim

theorem Run.fresh {id : ReplicaID} (h : Run config id Loading s) : Fresh config s := by
  induction h with
  | init => exact on_init_fresh config id
  | step _ hc hs ih => exact ih.load hc _ hs

end Loaded

/-! ## Chains of the blocks -/

/-- The blocks to catch up on, whatever was decided of them. -/
structure Missed (config : Config Hash Sig) (s : HotStuffCore Hash Sig) (B : Finset Hash) :
    Prop where
  links : LinksOk config s
  refs : ∀ x, (s.qc_ref x).isSome → s.delivered x = true
  consistent : Consistent config s B
  unwrapped : Unwrapped config s B

section Chains

variable {config : Config Hash Sig} {s s' : HotStuffCore Hash Sig} {B : Finset Hash}

theorem Missed.of_sameShape (h : Missed config s B) (hsh : SameShape s s') :
    Missed config s' B := by
  obtain ⟨hheight, hpar, href, hdel⟩ := hsh.reads
  have habove : s'.above = s.above := by rw [above, above, hpar]
  have hcom : s'.Committable = s.Committable := by
    funext x c
    rw [Committable, Committable, href, hpar]
  have hB := h.consistent
  refine ⟨(storedLaw_link config).of_sameShape hsh h.links, ?_, ⟨?_, ?_, ?_, ?_, ?_, ?_⟩, ?_⟩
  · rw [href, hdel]
    exact h.refs
  · rw [hdel]
    exact hB.delivered
  · rw [hpar]
    exact hB.parents
  · rw [href]
    exact hB.refs
  · rw [href, hpar, habove]
    exact hB.descends
  · rw [href, hheight]
    exact hB.heights
  · rw [hcom, habove]
    exact hB.agree
  · rw [Unwrapped, hheight]
    exact h.unwrapped

theorem Missed.parent_of (h : Missed config s B) {x p : Hash} (hx : x ∈ B)
    (hp : (s.parents x).head? = some p) : p ∈ B ∧ s.height x = s.height p + 1 := by
  have hne : x ≠ config.b0 := by
    intro heq
    rw [heq, h.links.b0_parents] at hp
    cases hp
  obtain ⟨b, q, -, -, -, hq, hheight, -⟩ := h.links.joined hne (h.consistent.delivered x hx)
  rw [hp, Option.some.injEq] at hq
  subst hq
  refine ⟨h.consistent.parents x hx p (List.mem_of_head? hp), ?_⟩
  have hlt := h.links.height_lt (h.links.parent hp)
  have hpos := h.unwrapped x hx hne
  omega

theorem Missed.parent (h : Missed config s B) {x : Hash} (hx : x ∈ B) (hne : x ≠ config.b0) :
    ∃ p, (s.parents x).head? = some p := by
  obtain ⟨b, p, -, -, -, hp, -⟩ := h.links.joined hne (h.consistent.delivered x hx)
  exact ⟨p, hp⟩

theorem Missed.falling (h : Missed config s B) : s.Falling (· ∈ B) := fun x p hx hp =>
  have hparent := h.parent_of hx hp
  ⟨hparent.1, by rw [hparent.2]; omega⟩

theorem Missed.eq_of_above (h : Missed config s B) {x y : Hash} (hx : x ∈ B)
    (hxy : s.above x y) (hle : s.height x ≤ s.height y) : x = y := by
  rcases Relation.ReflTransGen.cases_head hxy with heq | ⟨p, hp, hpy⟩
  · exact heq
  · obtain ⟨hpB, hheight⟩ := h.parent_of hx hp
    have := (h.falling.above_le hpB hpy).2
    omega

theorem Missed.above_b0 (h : Missed config s B) {x : Hash} (hx : x ∈ B) :
    s.above x config.b0 := by
  generalize hn : s.height x = n
  induction n using Nat.strong_induction_on generalizing x with
  | _ n ih =>
    by_cases hne : x = config.b0
    · rw [hne]
      exact .refl
    · obtain ⟨p, hp⟩ := h.parent hx hne
      obtain ⟨hpB, hheight⟩ := h.parent_of hx hp
      exact .head hp (ih (s.height p) (by omega) hpB rfl)

theorem Missed.b0_mem (h : Missed config s B) {x : Hash} (hx : x ∈ B) : config.b0 ∈ B :=
  (h.falling.above_le hx (h.above_b0 hx)).1

theorem Missed.b0_ref (h : Missed config s B) : s.qc_ref config.b0 = some config.b0 := by
  obtain ⟨g, hg, hsh⟩ := h.links.genesis_block
  rw [qc_ref_eq hg]
  exact congrArg (·.qc_ref) hsh

/-- The certificate of a block is on a lower one. -/
theorem Missed.ref (h : Missed config s B) {x : Hash} (hx : x ∈ B) (hne : x ≠ config.b0) :
    ∃ q, s.qc_ref x = some q ∧ q ∈ B ∧ s.height q < s.height x := by
  obtain ⟨b, -, -, -, -, -, -, hq⟩ := h.links.joined hne (h.consistent.delivered x hx)
  obtain ⟨p, hp, hpq⟩ := h.consistent.descends x hx hne _ hq
  obtain ⟨hpB, hheight⟩ := h.parent_of hx hp
  have hle := (h.falling.above_le hpB hpq).2
  exact ⟨_, hq, h.consistent.refs x hx _ hq, by omega⟩

theorem Missed.ref_le (h : Missed config s B) {x : Hash} (hx : x ∈ B) :
    ∃ q, s.qc_ref x = some q ∧ q ∈ B ∧ s.height q ≤ s.height x := by
  by_cases hne : x = config.b0
  · exact ⟨config.b0, hne ▸ h.b0_ref, h.b0_mem hx, by rw [hne]⟩
  · obtain ⟨q, hq, hqB, hlt⟩ := h.ref hx hne
    exact ⟨q, hq, hqB, hlt.le⟩

theorem Missed.walk_isSome (h : Missed config s B) (bound : ℕ) {fuel : ℕ} {x : Hash}
    (hx : x ∈ B) (hfuel : s.height x < fuel) : (s.walk bound fuel x).isSome := by
  induction fuel generalizing x with
  | zero => cases hfuel
  | succ fuel ih =>
    by_cases hlt : bound < s.height x
    · have hne : x ≠ config.b0 := by
        intro heq
        rw [heq, h.links.b0_height] at hlt
        cases hlt
      obtain ⟨p, hp⟩ := h.parent hx hne
      obtain ⟨hpB, hheight⟩ := h.parent_of hx hp
      have hrest := ih hpB (by omega)
      simp only [walk, if_pos hlt, hp, Option.bind_some, Option.isSome_map]
      exact hrest
    · simp [walk, hlt]

end Chains

end HotStuffCore

end general_hotstuff
