-- What each function of `HotStuffCore` can do, once per function: the later modules
-- reason from these cases and do not open the functions again.
import Mathlib.Data.List.TakeWhile
import GeneralHotStuff.BlockShapes

namespace general_hotstuff

open quorums (ReplicaID)

namespace HotStuffCore

variable {Hash Sig : Type}

/-! ## on_deliver_blk -/

/-- What `on_deliver_blk` makes of an undelivered block. -/
inductive Delivery (s : HotStuffCore Hash Sig) (b : Block Hash Sig) : Block Hash Sig → Prop where
  | blocked (h : (b.parent_hashes.takeWhile s.delivered).length < b.parent_hashes.length) :
      Delivery s b { b with parents := b.parent_hashes.takeWhile s.delivered }
  | unfetched (p : Hash) (ps : List Hash) (hp : b.parent_hashes = p :: ps)
      (hd : ∀ x ∈ p :: ps, s.delivered x = true) (hq : s.storage b.qc.obj_hash = none) :
      Delivery s b { b with parents := p :: ps, height := (s.height p + 1) % 2 ^ 32 }
  | delivered (p : Hash) (ps : List Hash) (hp : b.parent_hashes = p :: ps)
      (hd : ∀ x ∈ p :: ps, s.delivered x = true) (hq : (s.storage b.qc.obj_hash).isSome) :
      Delivery s b
        { b with
          parents := p :: ps
          height := (s.height p + 1) % 2 ^ 32
          qc_ref := some b.qc.obj_hash
          delivered := true }

theorem Delivery.toBlockData_eq {s : HotStuffCore Hash Sig} {b b' : Block Hash Sig}
    (h : Delivery s b b') : b'.toBlockData = b.toBlockData := by
  cases h with
  | blocked => rfl
  | unfetched => rfl
  | delivered => rfl

theorem Delivery.votes_eq {s : HotStuffCore Hash Sig} {b b' : Block Hash Sig}
    (h : Delivery s b b') :
    b'.self_qc = b.self_qc ∧ b'.voted = b.voted ∧ b'.decision = b.decision := by
  cases h with
  | blocked => exact ⟨rfl, rfl, rfl⟩
  | unfetched => exact ⟨rfl, rfl, rfl⟩
  | delivered => exact ⟨rfl, rfl, rfl⟩

theorem takeWhile_eq_of_length {α : Type} {p : α → Bool} {l : List α}
    (h : ¬ (l.takeWhile p).length < l.length) : l.takeWhile p = l :=
  (List.takeWhile_sublist p).eq_of_length_le (Nat.le_of_not_lt h)

variable [DecidableEq Hash]

theorem on_deliver_blk_of_delivered {s : HotStuffCore Hash Sig} {blk : Hash}
    {b : Block Hash Sig} (hb : s.storage blk = some b) (hd : b.delivered = true) :
    s.on_deliver_blk blk = .ok s := by
  simp [on_deliver_blk, hb, hd]

/-- An undelivered block is written, and only `tails` changes beside it: the block joins them once
it is delivered. -/
theorem on_deliver_blk_leaves {s : HotStuffCore Hash Sig} {blk : Hash} {b : Block Hash Sig}
    (hb : s.storage blk = some b) (hd : b.delivered = false) :
    (s.on_deliver_blk blk).Leaves fun s' =>
      ∃ b' t, Delivery s b b' ∧ s' = { s.put blk b' with tails := t } ∧
        ∀ x ∈ t, x ∈ s.tails ∨ x = blk ∧ b'.delivered = true := by
  simp only [on_deliver_blk, hb, modify_eq_put hb, put_modify]
  rw [if_neg (by simp [hd])]
  split
  · rename_i hlt
    rw [Outcome.leaves_throw]
    exact ⟨_, s.tails, .blocked hlt, rfl, fun x hx => .inl hx⟩
  · rename_i hle
    have hall := takeWhile_eq_of_length hle
    split
    · exact Outcome.leaves_undefined
    · rename_i p ps hps
      have hp : b.parent_hashes = p :: ps := hall.symm.trans hps
      have hdel : ∀ x ∈ p :: ps, s.delivered x = true := by
        rw [← hps]
        exact fun x hx => List.mem_takeWhile_imp hx
      split
      · rename_i hq
        rw [Outcome.leaves_ok]
        refine ⟨_, _, .delivered p ps hp hdel hq, by rw [hps], fun x hx => ?_⟩
        rcases Finset.mem_insert.mp hx with rfl | hx
        · exact .inr ⟨rfl, rfl⟩
        · exact .inl (Finset.mem_sdiff.mp hx).1
      · rename_i hq
        rw [Outcome.leaves_throw]
        exact ⟨_, s.tails, .unfetched p ps hp hdel (by simpa using hq), by rw [hps]; rfl,
          fun x hx => .inl hx⟩

/-- A block is delivered when its parents are and the block of its certificate is there. -/
theorem on_deliver_blk_ok {s : HotStuffCore Hash Sig} {blk p : Hash} {t : List Hash}
    {b : Block Hash Sig} (hb : s.storage blk = some b) (hd : b.delivered = false)
    (hp : b.parent_hashes = p :: t) (hdel : ∀ x ∈ p :: t, s.delivered x = true)
    (hq : (s.storage b.qc.obj_hash).isSome) :
    s.on_deliver_blk blk = .ok
      { s.put blk
          { b with
            parents := p :: t
            height := (s.height p + 1) % 2 ^ 32
            qc_ref := some b.qc.obj_hash
            delivered := true } with
        tails := insert blk (s.tails \ (p :: t).toFinset) } := by
  have hall : b.parent_hashes.takeWhile s.delivered = p :: t := by
    rw [hp]
    exact List.takeWhile_eq_self_iff.mpr hdel
  simp only [on_deliver_blk, hb, modify_eq_put hb, put_modify, hall]
  rw [if_neg (by simp [hd]), if_neg (by simp [hp]), if_pos hq]

/-! ## New blocks -/

theorem call_add_blk_of_none {config : Config Hash Sig} {s : HotStuffCore Hash Sig}
    {data : BlockData Hash Sig} (hb : s.storage (config.get_hash data) = none) :
    s.call config (.add_blk data) = .ok (s.put (config.get_hash data) (.unserialize data)) := by
  simp [call, EntityStorage.add_blk, hb, put]

theorem call_add_blk_of_isSome {config : Config Hash Sig} {s : HotStuffCore Hash Sig}
    {data : BlockData Hash Sig} (hb : (s.storage (config.get_hash data)).isSome) :
    s.call config (.add_blk data) = .ok s := by
  simp [call, EntityStorage.add_blk, hb]

/-- The block with the certificate that `on_propose` starts. -/
def with_empty_qc (config : Config Hash Sig) (h : Hash) (b : Block Hash Sig) : Block Hash Sig :=
  { b with self_qc := some (.create_quorum_cert config h) }

theorem store_proposed_of_none {config : Config Hash Sig} {s : HotStuffCore Hash Sig}
    {cmds : List Hash} {p : Hash} {ps : List Hash} {extra : List UInt8}
    (hb : s.storage (config.get_hash (s.proposed cmds (p :: ps) extra)) = none) :
    s.store_proposed config cmds p ps extra =
      { s.put (config.get_hash (s.proposed cmds (p :: ps) extra))
          (with_empty_qc config (config.get_hash (s.proposed cmds (p :: ps) extra))
            (s.new_block cmds p ps extra)) with
        tails := s.tails \ (p :: ps).toFinset } := by
  simp [store_proposed, EntityStorage.add_blk, hb, put, EntityStorage.modify, with_empty_qc]

/-- A block that is there under the same hash only gets an empty certificate. -/
theorem store_proposed_of_some {config : Config Hash Sig} {s : HotStuffCore Hash Sig}
    {cmds : List Hash} {p : Hash} {ps : List Hash} {extra : List UInt8} {b : Block Hash Sig}
    (hb : s.storage (config.get_hash (s.proposed cmds (p :: ps) extra)) = some b) :
    s.store_proposed config cmds p ps extra =
      { s.put (config.get_hash (s.proposed cmds (p :: ps) extra))
          (with_empty_qc config (config.get_hash (s.proposed cmds (p :: ps) extra)) b) with
        tails := s.tails \ (p :: ps).toFinset } := by
  simp [store_proposed, EntityStorage.add_blk, hb, put, EntityStorage.modify, with_empty_qc]

/-! ## update -/

omit [DecidableEq Hash] in
theorem undecided_ref_eq_some {s : HotStuffCore Hash Sig} {h q : Hash} :
    s.undecided_ref h = some q ↔ s.qc_ref h = some q ∧ s.decision q = false := by
  simp [undecided_ref, Option.filter_eq_some_iff]

omit [DecidableEq Hash] in
theorem undecided_ref_of_storage_eq {s s' : HotStuffCore Hash Sig} (h : s'.storage = s.storage) :
    s'.undecided_ref = s.undecided_ref := by
  funext x
  simp [undecided_ref, qc_ref, decision, h]

omit [DecidableEq Hash] in
theorem update_hqc_eq (s : HotStuffCore Hash Sig) (h : Hash) (qc : QuorumCert Hash Sig) :
    s.update_hqc h qc = { s with hqc := (s.update_hqc h qc).hqc } := by
  unfold update_hqc
  split <;> rfl

omit [DecidableEq Hash] in
theorem raise_lock_eq (s : HotStuffCore Hash Sig) (hqc : Hash × QuorumCert Hash Sig) (h : Hash) :
    raise_lock h { s with hqc := hqc } =
      { s with hqc := hqc, b_lock := (s.raise_lock h).b_lock } := by
  unfold raise_lock
  split <;> split <;> first | rfl | contradiction

/-- The block that `update` may lock. -/
def lock_ref (config : Config Hash Sig) (s : HotStuffCore Hash Sig) (nblk : Hash) : Option Hash :=
  if config.two_step then s.undecided_ref nblk else (s.undecided_ref nblk).bind s.undecided_ref

/-- The state of `update` before it commits. -/
def touched (config : Config Hash Sig) (nblk : Hash) (b : Block Hash Sig)
    (s : HotStuffCore Hash Sig) : HotStuffCore Hash Sig :=
  { s with
    hqc := ((s.undecided_ref nblk).elim s fun q => s.update_hqc q b.qc).hqc
    b_lock := ((s.lock_ref config nblk).elim s s.raise_lock).b_lock }

/-- The condition under which `update` goes on to commit `blk`. -/
structure Commits (config : Config Hash Sig) (s : HotStuffCore Hash Sig) (nblk blk1 blk : Hash) :
    Prop where
  lock_ref : s.lock_ref config nblk = some blk1
  undecided_ref : s.undecided_ref blk1 = some blk
  parent : (s.parents blk1).head? = some blk
  three_step : config.two_step = false →
    ∃ blk2, s.undecided_ref nblk = some blk2 ∧ s.undecided_ref blk2 = some blk1 ∧
      (s.parents blk2).head? = some blk1

omit [DecidableEq Hash] in
theorem touched_hqc (config : Config Hash Sig) (nblk : Hash) (b : Block Hash Sig)
    (s : HotStuffCore Hash Sig) :
    (s.touched config nblk b).hqc = s.hqc ∨
      ∃ q, s.undecided_ref nblk = some q ∧ (s.touched config nblk b).hqc = (q, b.qc) ∧
        s.height s.hqc.1 < s.height q := by
  cases hq : s.undecided_ref nblk with
  | none => exact .inl (by simp [touched, hq])
  | some q =>
    by_cases hlt : s.height s.hqc.1 < s.height q
    · exact .inr ⟨q, rfl, by simp [touched, hq, update_hqc, hlt], hlt⟩
    · exact .inl (by simp [touched, hq, update_hqc, hlt])

omit [DecidableEq Hash] in
theorem touched_b_lock (config : Config Hash Sig) (nblk : Hash) (b : Block Hash Sig)
    (s : HotStuffCore Hash Sig) :
    (s.touched config nblk b).b_lock = s.b_lock ∨
      ∃ q, s.lock_ref config nblk = some q ∧ (s.touched config nblk b).b_lock = q ∧
        s.height s.b_lock < s.height q := by
  cases hq : s.lock_ref config nblk with
  | none => exact .inl (by simp [touched, hq])
  | some q =>
    by_cases hlt : s.height s.b_lock < s.height q
    · exact .inr ⟨q, rfl, by simp [touched, hq, raise_lock, hlt], hlt⟩
    · exact .inl (by simp [touched, hq, raise_lock, hlt])

omit [DecidableEq Hash] in
theorem b_lock_le_touched (config : Config Hash Sig) (nblk : Hash) (b : Block Hash Sig)
    (s : HotStuffCore Hash Sig) :
    s.height s.b_lock ≤ s.height (s.touched config nblk b).b_lock := by
  rcases s.touched_b_lock config nblk b with h | ⟨q, -, h, hlt⟩
  · rw [h]
  · rw [h]
    exact hlt.le

omit [DecidableEq Hash] in
theorem lock_ref_le_touched {config : Config Hash Sig} {nblk q : Hash} (b : Block Hash Sig)
    {s : HotStuffCore Hash Sig} (hq : s.lock_ref config nblk = some q) :
    s.height q ≤ s.height (s.touched config nblk b).b_lock := by
  by_cases hlt : s.height s.b_lock < s.height q
  · simp [touched, hq, raise_lock, hlt]
  · simpa [touched, hq, raise_lock, hlt] using Nat.le_of_not_lt hlt

omit [DecidableEq Hash] in
theorem hqc_le_touched (config : Config Hash Sig) (nblk : Hash) (b : Block Hash Sig)
    (s : HotStuffCore Hash Sig) :
    s.height s.hqc.1 ≤ s.height (s.touched config nblk b).hqc.1 := by
  rcases s.touched_hqc config nblk b with h | ⟨q, -, h, hlt⟩
  · rw [h]
  · rw [h]
    exact hlt.le

omit [DecidableEq Hash] in
theorem undecided_ref_le_touched (config : Config Hash Sig) {nblk q : Hash} (b : Block Hash Sig)
    {s : HotStuffCore Hash Sig} (hq : s.undecided_ref nblk = some q) :
    s.height q ≤ s.height (s.touched config nblk b).hqc.1 := by
  by_cases hlt : s.height s.hqc.1 < s.height q
  · simp [touched, hq, update_hqc, hlt]
  · simpa [touched, hq, update_hqc, hlt] using Nat.le_of_not_lt hlt

/-- `update` without an outcome has read `parents[0]` of an undecided block without parents. -/
def Orphaned (s : HotStuffCore Hash Sig) : Prop :=
  ∃ x, s.decision x = false ∧ s.parents x = [] ∧ (s.qc_ref x).isSome

theorem if_direct_parent_cases (s : HotStuffCore Hash Sig) (blk p : Hash)
    (next : HotStuffCore Hash Sig → Outcome (HotStuffCore Hash Sig)) :
    s.parents blk = [] ∧ if_direct_parent blk p next s = .undefined ∨
      if_direct_parent blk p next s = .ok s ∨
      (s.parents blk).head? = some p ∧ if_direct_parent blk p next s = next s := by
  cases hp : s.parents blk with
  | nil => exact .inl ⟨rfl, by simp [if_direct_parent, hp]⟩
  | cons q qs =>
    by_cases hq : q = p
    · exact .inr (.inr ⟨by simp [hq], by simp [if_direct_parent, hp, hq]⟩)
    · exact .inr (.inl (by simp [if_direct_parent, hp, hq]))

theorem update_two_step_cases (config : Config Hash Sig) (htwo : config.two_step = true)
    (s : HotStuffCore Hash Sig) (nblk : Hash) (b : Block Hash Sig) :
    s.update_two_step nblk b = .ok (s.touched config nblk b) ∨
      s.Orphaned ∧ s.update_two_step nblk b = .undefined ∨
      ∃ blk1 blk, s.Commits config nblk blk1 blk ∧
        s.update_two_step nblk b = (s.touched config nblk b).commit blk := by
  cases h1 : s.undecided_ref nblk with
  | none => exact .inl (by simp [update_two_step, h1, touched, lock_ref])
  | some blk1 =>
    have hlock : s.lock_ref config nblk = some blk1 := by rw [lock_ref, htwo, if_pos rfl, h1]
    have htouched : (s.update_hqc blk1 b.qc).raise_lock blk1 = s.touched config nblk b := by
      rw [update_hqc_eq, raise_lock_eq, touched, h1, hlock]
      rfl
    have hrefs : (s.touched config nblk b).undecided_ref = s.undecided_ref :=
      undecided_ref_of_storage_eq rfl
    simp only [update_two_step, h1, htouched, hrefs]
    cases h2 : s.undecided_ref blk1 with
    | none => exact .inl rfl
    | some blk =>
      have hund := (undecided_ref_eq_some.mp h1).2
      rcases if_direct_parent_cases (s.touched config nblk b) blk1 blk (commit blk) with
        ⟨hp, h⟩ | h | ⟨hp, h⟩
      · exact .inr (.inl ⟨⟨blk1, hund, hp, by simp [(undecided_ref_eq_some.mp h2).1]⟩, h⟩)
      · exact .inl h
      · exact .inr (.inr ⟨blk1, blk, ⟨hlock, h2, hp, by simp [htwo]⟩, h⟩)

theorem update_three_step_cases (config : Config Hash Sig) (htwo : config.two_step = false)
    (s : HotStuffCore Hash Sig) (nblk : Hash) (b : Block Hash Sig) :
    s.update_three_step nblk b = .ok (s.touched config nblk b) ∨
      s.Orphaned ∧ s.update_three_step nblk b = .undefined ∨
      ∃ blk1 blk, s.Commits config nblk blk1 blk ∧
        s.update_three_step nblk b = (s.touched config nblk b).commit blk := by
  cases h1 : s.undecided_ref nblk with
  | none => exact .inl (by simp [update_three_step, h1, touched, lock_ref, htwo])
  | some blk2 =>
    have hhqc : (s.update_hqc blk2 b.qc).undecided_ref = s.undecided_ref :=
      undecided_ref_of_storage_eq (by rw [update_hqc_eq])
    simp only [update_three_step, h1, hhqc]
    cases h2 : s.undecided_ref blk2 with
    | none =>
      refine .inl ?_
      simp only [touched, lock_ref, htwo, h1, h2, Bool.false_eq_true, if_false, Option.bind_some,
        Option.elim_none, Option.elim_some]
      rw [update_hqc_eq]
    | some blk1 =>
      have hlock : s.lock_ref config nblk = some blk1 := by
        rw [lock_ref, htwo, if_neg Bool.false_ne_true, h1, Option.bind_some, h2]
      have htouched : (s.update_hqc blk2 b.qc).raise_lock blk1 = s.touched config nblk b := by
        rw [update_hqc_eq, raise_lock_eq, touched, h1, hlock]
        rfl
      have hrefs : (s.touched config nblk b).undecided_ref = s.undecided_ref :=
        undecided_ref_of_storage_eq rfl
      simp only [htouched, hrefs]
      cases h3 : s.undecided_ref blk1 with
      | none => exact .inl rfl
      | some blk =>
        have hund2 := (undecided_ref_eq_some.mp h1).2
        have hund1 := (undecided_ref_eq_some.mp h2).2
        rcases if_direct_parent_cases (s.touched config nblk b) blk2 blk1
          (if_direct_parent blk1 blk (commit blk)) with ⟨hp, h⟩ | h | ⟨hp2, h⟩
        · exact .inr (.inl ⟨⟨blk2, hund2, hp, by simp [(undecided_ref_eq_some.mp h2).1]⟩, h⟩)
        · exact .inl h
        rcases if_direct_parent_cases (s.touched config nblk b) blk1 blk (commit blk) with
          ⟨hp, h'⟩ | h' | ⟨hp1, h'⟩
        · exact .inr (.inl
            ⟨⟨blk1, hund1, hp, by simp [(undecided_ref_eq_some.mp h3).1]⟩, h.trans h'⟩)
        · exact .inl (h.trans h')
        · exact .inr (.inr
            ⟨blk1, blk, ⟨hlock, h3, hp1, fun _ => ⟨blk2, h1, h2, hp2⟩⟩, h.trans h'⟩)

theorem update_cases (config : Config Hash Sig) {s : HotStuffCore Hash Sig} {nblk : Hash}
    {b : Block Hash Sig} (hb : s.storage nblk = some b) :
    s.update config nblk = .ok (s.touched config nblk b) ∨
      s.Orphaned ∧ s.update config nblk = .undefined ∨
      ∃ blk1 blk, s.Commits config nblk blk1 blk ∧
        s.update config nblk = (s.touched config nblk b).commit blk := by
  cases htwo : config.two_step with
  | true => simpa [update, hb, htwo] using update_two_step_cases config htwo s nblk b
  | false => simpa [update, hb, htwo] using update_three_step_cases config htwo s nblk b

theorem if_direct_parent_of_head {s : HotStuffCore Hash Sig} {blk p : Hash}
    (hp : (s.parents blk).head? = some p)
    (next : HotStuffCore Hash Sig → Outcome (HotStuffCore Hash Sig)) :
    if_direct_parent blk p next s = next s := by
  cases hq : s.parents blk with
  | nil => simp [hq] at hp
  | cons q qs =>
    rw [hq, List.head?_cons, Option.some.injEq] at hp
    simp [if_direct_parent, hq, hp]

/-- `update` commits what it can. -/
theorem update_of_commits {config : Config Hash Sig} {s : HotStuffCore Hash Sig}
    {nblk blk1 blk : Hash} {b : Block Hash Sig} (hb : s.storage nblk = some b)
    (h : Commits config s nblk blk1 blk) :
    s.update config nblk = (s.touched config nblk b).commit blk := by
  have hrefs : (s.touched config nblk b).undecided_ref = s.undecided_ref :=
    undecided_ref_of_storage_eq rfl
  have hlock := h.lock_ref
  cases htwo : config.two_step with
  | true =>
    have h1 : s.undecided_ref nblk = some blk1 := by
      rw [← hlock, HotStuffCore.lock_ref, htwo, if_pos rfl]
    have htouched : (s.update_hqc blk1 b.qc).raise_lock blk1 = s.touched config nblk b := by
      rw [update_hqc_eq, raise_lock_eq, touched, h1, hlock]
      rfl
    simp only [update, hb, htwo, if_true, update_two_step, h1, htouched, hrefs, h.undecided_ref]
    exact if_direct_parent_of_head (s := s.touched config nblk b) h.parent _
  | false =>
    obtain ⟨blk2, h1, h2, hp2⟩ := h.three_step htwo
    have hhqc : (s.update_hqc blk2 b.qc).undecided_ref = s.undecided_ref :=
      undecided_ref_of_storage_eq (by rw [update_hqc_eq])
    have htouched : (s.update_hqc blk2 b.qc).raise_lock blk1 = s.touched config nblk b := by
      rw [update_hqc_eq, raise_lock_eq, touched, h1, hlock]
      rfl
    simp only [update, hb, htwo, Bool.false_eq_true, if_false, update_three_step, h1, hhqc, h2,
      htouched, hrefs, h.undecided_ref]
    rw [if_direct_parent_of_head (s := s.touched config nblk b) hp2]
    exact if_direct_parent_of_head (s := s.touched config nblk b) h.parent _

/-! ## The commit loop -/

omit [DecidableEq Hash] in
theorem walk_congr {s s' : HotStuffCore Hash Sig} (hheight : s'.height = s.height)
    (hparents : s'.parents = s.parents) (bound fuel : ℕ) (x : Hash) :
    s'.walk bound fuel x = s.walk bound fuel x := by
  induction fuel generalizing x with
  | zero => rfl
  | succ fuel ih => simp only [walk, hheight, hparents, ih]

omit [DecidableEq Hash] in
theorem walk_of_storage_eq {s s' : HotStuffCore Hash Sig} (h : s'.storage = s.storage)
    (bound fuel : ℕ) (x : Hash) : s'.walk bound fuel x = s.walk bound fuel x := by
  refine walk_congr (funext fun y => ?_) (funext fun y => ?_) bound fuel x
  · rw [height, h, height]
  · rw [parents, h, parents]

omit [DecidableEq Hash] in
/-- The walk from `h` along first parents: everything passed is higher than the bound, and its
last block is not. -/
theorem walk_spec {s : HotStuffCore Hash Sig} {bound fuel : ℕ} {h last : Hash}
    {passed : List Hash} (hw : s.walk bound fuel h = some (passed, last)) :
    (passed ++ [last]).head? = some h ∧
      List.IsChain (fun a b => (s.parents a).head? = some b) (passed ++ [last]) ∧
      (∀ x ∈ passed, bound < s.height x) ∧ s.height last ≤ bound := by
  induction fuel generalizing h passed with
  | zero => simp [walk] at hw
  | succ fuel ih =>
    by_cases hlt : bound < s.height h
    · simp only [walk, if_pos hlt, Option.bind_eq_some_iff, Option.map_eq_some_iff] at hw
      obtain ⟨p, hp, ⟨passed', last'⟩, hw', heq⟩ := hw
      simp only [Prod.mk.injEq] at heq
      obtain ⟨rfl, rfl⟩ := heq
      obtain ⟨hhead, hchain, hpassed, hlast⟩ := ih hw'
      refine ⟨rfl, ?_, ?_, hlast⟩
      · rw [List.cons_append, List.isChain_cons]
        refine ⟨fun y hy => ?_, hchain⟩
        rw [hhead, Option.mem_def, Option.some.injEq] at hy
        rw [← hy, hp]
      · intro x hx
        rcases List.mem_cons.mp hx with rfl | hx
        · exact hlt
        · exact hpassed x hx
    · simp only [walk, if_neg hlt, Option.some.injEq, Prod.mk.injEq] at hw
      obtain ⟨rfl, rfl⟩ := hw
      exact ⟨rfl, by simp, by simp, Nat.le_of_not_lt hlt⟩

theorem commit_cases (s : HotStuffCore Hash Sig) (blk : Hash) :
    (s.walk (s.height s.b_exec) (s.height blk + 1) blk = none ∨
        (∃ passed last, s.walk (s.height s.b_exec) (s.height blk + 1) blk = some (passed, last) ∧
          last ≠ s.b_exec) ∧ (s.parent_hashes blk = [] ∨ s.parent_hashes s.b_exec = [])) ∧
        s.commit blk = .undefined ∨
      s.commit blk = .throw s .safety_breached ∨
      ∃ passed, s.walk (s.height s.b_exec) (s.height blk + 1) blk = some (passed, s.b_exec) ∧
        s.commit blk = .ok { passed.reverse.foldl commit_one s with b_exec := blk } := by
  cases hw : s.walk (s.height s.b_exec) (s.height blk + 1) blk with
  | none => exact .inl ⟨.inl rfl, by simp [commit, hw]⟩
  | some r =>
    obtain ⟨passed, last⟩ := r
    by_cases hlast : last = s.b_exec
    · exact .inr (.inr ⟨passed, by rw [hlast], by simp [commit, hw, hlast]⟩)
    · by_cases hbare : s.parent_hashes blk = [] ∨ s.parent_hashes s.b_exec = []
      · exact .inl ⟨.inr ⟨⟨passed, last, rfl, hlast⟩, hbare⟩, by simp [commit, hw, hlast, hbare]⟩
      · exact .inr (.inl (by simp [commit, hw, hlast, hbare]))

theorem walk_of_commit_throw {s s' : HotStuffCore Hash Sig} {blk : Hash} {what : Fault}
    (h : s.commit blk = .throw s' what) :
    ∃ passed last, s.walk (s.height s.b_exec) (s.height blk + 1) blk = some (passed, last) ∧
      last ≠ s.b_exec := by
  unfold commit at h
  split at h
  · cases h
  · rename_i passed last hw
    split at h
    · rename_i hne
      exact ⟨passed, last, hw, hne⟩
    · cases h

/-- The message of the exception reads what is not there. -/
theorem commit_undefined_of_walk_ne {s : HotStuffCore Hash Sig} {blk last : Hash}
    {passed : List Hash}
    (hw : s.walk (s.height s.b_exec) (s.height blk + 1) blk = some (passed, last))
    (hne : last ≠ s.b_exec) (hbare : s.parent_hashes s.b_exec = []) :
    s.commit blk = .undefined := by
  simp [commit, hw, hne, hbare]

/-! ## Proposals and votes -/

/-- The replica after its vote for `blk`. -/
def voted_for (config : Config Hash Sig) (prop : Proposal Hash) (s : HotStuffCore Hash Sig) :
    HotStuffCore Hash Sig :=
  { s with
    vheight := s.height prop.blk
    out := s.out ++ if s.vote_disabled then [] else
      [.do_vote prop.proposer ⟨s.id, prop.blk, ⟨prop.blk, config.sign s.id prop.blk⟩⟩] }

theorem vote_on_cases (config : Config Hash Sig) (prop : Proposal Hash)
    (s : HotStuffCore Hash Sig) :
    s.opinion prop.blk = none ∧ s.vote_on config prop = .undefined ∨
      s.vote_on config prop = .ok s ∨
      s.opinion prop.blk = some true ∧ s.vote_on config prop = .ok (s.voted_for config prop) := by
  cases ho : s.opinion prop.blk with
  | none => exact .inl ⟨rfl, by simp [vote_on, ho]⟩
  | some o =>
    cases o with
    | false => exact .inr (.inl (by simp [vote_on, ho]))
    | true =>
      refine .inr (.inr ⟨rfl, ?_⟩)
      cases hd : s.vote_disabled with
      | false => simp [vote_on, ho, hd, voted_for]
      | true => simp [vote_on, ho, hd, voted_for]

/-- A replica votes above its last vote, for a block whose certificate is on a block higher than
the lock, or which extends the lock. -/
theorem opinion_eq_true {s : HotStuffCore Hash Sig} {bnew : Hash}
    (ho : s.opinion bnew = some true) : s.vheight < s.height bnew ∧
      ((∃ q, s.qc_ref bnew = some q ∧ s.height s.b_lock < s.height q) ∨
        ∃ passed, s.walk (s.height s.b_lock) (s.height bnew + 1) bnew =
          some (passed, s.b_lock)) := by
  unfold opinion at ho
  split at ho
  · simp at ho
  · rename_i hv
    refine ⟨Nat.lt_of_not_le hv, ?_⟩
    split at ho
    · rename_i hlt
      cases hq : s.qc_ref bnew with
      | none => simp [hq] at hlt
      | some q => exact .inl ⟨q, rfl, by simpa [hq] using hlt⟩
    · obtain ⟨⟨passed, last⟩, hw, hlast⟩ := Option.map_eq_some_iff.mp ho
      have hlast : last = s.b_lock := by simpa using hlast
      exact .inr ⟨passed, by rw [hw, hlast]⟩

/-- What `on_receive_vote` does with a vote that it counts, on block `b` with certificate `qc`. -/
inductive Counted (config : Config Hash Sig) (vote : Vote Hash Sig) (s : HotStuffCore Hash Sig)
    (b : Block Hash Sig) (qc : QuorumCert Hash Sig) : Outcome (HotStuffCore Hash Sig) → Prop where
  | mismatch (h : qc.add_part vote.voter vote.cert = none) :
      Counted config vote s b qc
        (.throw (s.put vote.blk_hash
          { b with voted := insert vote.voter b.voted, self_qc := some qc }) .cert_mismatch)
  | collected (qc' : QuorumCert Hash Sig) (h : qc.add_part vote.voter vote.cert = some qc')
      (hq : config.rule.becomesQuorum b.voted.card (insert vote.voter b.voted) = false) :
      Counted config vote s b qc
        (.ok (s.put vote.blk_hash
          { b with voted := insert vote.voter b.voted, self_qc := some qc' }))
  | computed (qc' : QuorumCert Hash Sig) (h : qc.add_part vote.voter vote.cert = some qc')
      (hq : config.rule.becomesQuorum b.voted.card (insert vote.voter b.voted) = true) :
      Counted config vote s b qc
        (.ok
          { s.put vote.blk_hash
              { b with
                voted := insert vote.voter b.voted
                self_qc := some (qc'.compute config) } with
            hqc := (update_hqc vote.blk_hash (qc'.compute config) (s.put vote.blk_hash
              { b with
                voted := insert vote.voter b.voted
                self_qc := some (qc'.compute config) })).hqc
            out := s.out ++ [.certificate vote.blk_hash (qc'.compute config)] })

theorem on_receive_vote_cases (config : Config Hash Sig) (vote : Vote Hash Sig)
    (s : HotStuffCore Hash Sig) :
    s.on_receive_vote config vote = .throw s .block_not_delivered ∨
      s.on_receive_vote config vote = .ok s ∨
      ∃ b, s.storage vote.blk_hash = some b ∧ b.delivered = true ∧
        config.rule.isQuorum b.voted = false ∧ vote.voter ∉ b.voted ∧
        Counted config vote s b (b.self_qc.getD (.create_quorum_cert config vote.blk_hash))
          (s.on_receive_vote config vote) := by
  cases hb : s.storage vote.blk_hash with
  | none => exact .inl (by simp [on_receive_vote, hb])
  | some b =>
    by_cases hd : b.delivered = true
    swap
    · exact .inl (by simp [on_receive_vote, hb, hd])
    by_cases hq : config.rule.isQuorum b.voted = true
    · exact .inr (.inl (by simp [on_receive_vote, hb, hd, hq]))
    by_cases hv : vote.voter ∈ b.voted
    · exact .inr (.inl (by simp [on_receive_vote, hb, hd, hv]))
    refine .inr (.inr ⟨b, rfl, hd, by simpa using hq, hv, ?_⟩)
    simp only [on_receive_vote, hb, modify_eq_put hb]
    rw [if_neg (by simp [hd]), if_neg hq, if_neg hv]
    cases ha : (b.self_qc.getD (.create_quorum_cert config vote.blk_hash)).add_part vote.voter
        vote.cert with
    | none => exact .mismatch ha
    | some qc' =>
      by_cases hbq : config.rule.becomesQuorum b.voted.card (insert vote.voter b.voted) = true
      · simp only [if_pos hbq]
        rw [update_hqc_eq]
        exact .computed qc' ha hbq
      · simp only [if_neg hbq]
        exact .collected qc' ha (by simpa using hbq)

end HotStuffCore

end general_hotstuff
