-- The outcome of a call, and what stays of the stored blocks when one of them is written:
-- the wire fields always, and everything but votes and decisions once a block is
-- delivered.
import GeneralHotStuff.Consensus

namespace general_hotstuff

open quorums (ReplicaID)

/-! ## Outcomes -/

namespace Outcome

variable {σ : Type}

/-- In whatever state the call leaves the replica, `P` holds. -/
def Leaves (o : Outcome σ) (P : σ → Prop) : Prop := ∀ s, o.state? = some s → P s

@[simp] theorem leaves_ok {s : σ} {P : σ → Prop} : (ok s).Leaves P ↔ P s := by
  simp [Leaves, state?]

@[simp] theorem leaves_throw {s : σ} {what : Fault} {P : σ → Prop} :
    (throw s what).Leaves P ↔ P s := by
  simp [Leaves, state?]

@[simp] theorem leaves_undefined {P : σ → Prop} : (undefined : Outcome σ).Leaves P := by
  simp [Leaves, state?]

theorem Leaves.mono {o : Outcome σ} {P Q : σ → Prop} (h : o.Leaves P) (hPQ : ∀ s, P s → Q s) :
    o.Leaves Q := fun s hs => hPQ s (h s hs)

theorem Leaves.bind {o : Outcome σ} {f : σ → Outcome σ} {P Q : σ → Prop} (h : o.Leaves P)
    (hthrow : ∀ s, P s → Q s) (hok : ∀ s, P s → (f s).Leaves Q) : (o.andThen f).Leaves Q := by
  cases o with
  | ok s => exact hok s (leaves_ok.mp h)
  | throw s what => exact leaves_throw.mpr (hthrow s (leaves_throw.mp h))
  | undefined => exact leaves_undefined

theorem Leaves.andThen {o : Outcome σ} {f : σ → Outcome σ} {P : σ → Prop} (h : o.Leaves P)
    (hf : ∀ s, o = ok s → P s → (f s).Leaves P) : (o.andThen f).Leaves P := by
  cases o with
  | ok s => exact hf s rfl (leaves_ok.mp h)
  | throw s what => exact leaves_throw.mpr (leaves_throw.mp h)
  | undefined => exact leaves_undefined

theorem andThen_eq_ok {o : Outcome σ} {f : σ → Outcome σ} {t : σ} :
    o.andThen f = ok t ↔ ∃ s, o = ok s ∧ f s = ok t := by
  cases o with
  | ok s => simp [andThen]
  | throw s what => simp [andThen]
  | undefined => simp [andThen]

/-- The call has an outcome. -/
def Defined : Outcome σ → Prop
  | undefined => False
  | _ => True

theorem Defined.andThen {o : Outcome σ} {f : σ → Outcome σ} (hd : o.Defined)
    (hf : ∀ s, o = ok s → (f s).Defined) : (o.andThen f).Defined := by
  cases o with
  | ok s => exact hf s rfl
  | throw s what => trivial
  | undefined => exact hd

end Outcome

namespace HotStuffCore

variable {Hash Sig : Type}

/-! ## Reading the storage -/

theorem height_eq {s : HotStuffCore Hash Sig} {h : Hash} {b : Block Hash Sig}
    (hb : s.storage h = some b) : s.height h = b.height := by
  simp [height, hb]

theorem delivered_eq {s : HotStuffCore Hash Sig} {h : Hash} {b : Block Hash Sig}
    (hb : s.storage h = some b) : s.delivered h = b.delivered := by
  simp [delivered, hb]

theorem decision_eq {s : HotStuffCore Hash Sig} {h : Hash} {b : Block Hash Sig}
    (hb : s.storage h = some b) : s.decision h = b.decision := by
  simp [decision, hb]

theorem parents_eq {s : HotStuffCore Hash Sig} {h : Hash} {b : Block Hash Sig}
    (hb : s.storage h = some b) : s.parents h = b.parents := by
  simp [parents, hb]

theorem qc_ref_eq {s : HotStuffCore Hash Sig} {h : Hash} {b : Block Hash Sig}
    (hb : s.storage h = some b) : s.qc_ref h = b.qc_ref := by
  simp [qc_ref, hb]

theorem exists_of_delivered {s : HotStuffCore Hash Sig} {h : Hash} (hd : s.delivered h = true) :
    ∃ b, s.storage h = some b ∧ b.delivered = true := by
  cases hb : s.storage h with
  | none => simp [delivered, hb] at hd
  | some b => exact ⟨b, rfl, (delivered_eq hb).symm.trans hd⟩

/-! ## Shapes -/

/-- The fields of a block that only `on_deliver_blk` writes. -/
def shape (b : Block Hash Sig) : Block Hash Sig :=
  { b with self_qc := none, decision := false, voted := ∅ }

/-- Both states hold a block of the same shape there, or none. -/
def SameAt (s s' : HotStuffCore Hash Sig) (h : Hash) : Prop :=
  (s'.storage h).map shape = (s.storage h).map shape

/-- The two states hold the same blocks, up to votes and decisions. -/
def SameShape (s s' : HotStuffCore Hash Sig) : Prop := ∀ h, SameAt s s' h

theorem SameShape.refl (s : HotStuffCore Hash Sig) : SameShape s s := fun _ => rfl

theorem SameShape.trans {s s' s'' : HotStuffCore Hash Sig} (h : SameShape s s')
    (h' : SameShape s' s'') : SameShape s s'' := fun x => (h' x).trans (h x)

theorem SameShape.symm {s s' : HotStuffCore Hash Sig} (h : SameShape s s') : SameShape s' s :=
  fun x => (h x).symm

theorem SameShape.of_storage_eq {s s' : HotStuffCore Hash Sig} (h : s'.storage = s.storage) :
    SameShape s s' := fun x => by rw [SameAt, h]

theorem SameAt.block {s s' : HotStuffCore Hash Sig} {h : Hash} (hs : SameAt s s' h)
    {b : Block Hash Sig} (hb : s.storage h = some b) :
    ∃ b', s'.storage h = some b' ∧ shape b' = shape b := by
  rw [SameAt, hb] at hs
  cases hb' : s'.storage h with
  | none => rw [hb'] at hs; cases hs
  | some b' =>
    rw [hb', Option.map_some, Option.map_some, Option.some.injEq] at hs
    exact ⟨b', rfl, hs⟩

theorem SameAt.none {s s' : HotStuffCore Hash Sig} {h : Hash} (hs : SameAt s s' h)
    (hb : s.storage h = none) : s'.storage h = none := by
  rw [SameAt, hb] at hs
  exact Option.map_eq_none_iff.mp hs

theorem SameAt.height {s s' : HotStuffCore Hash Sig} {h : Hash} (hs : SameAt s s' h) :
    s'.height h = s.height h := by
  cases hb : s.storage h with
  | none => simp [HotStuffCore.height, hb, hs.none hb]
  | some b =>
    obtain ⟨b', hb', hsh⟩ := hs.block hb
    rw [height_eq hb, height_eq hb']
    exact congrArg (·.height) hsh

theorem SameAt.delivered {s s' : HotStuffCore Hash Sig} {h : Hash} (hs : SameAt s s' h) :
    s'.delivered h = s.delivered h := by
  cases hb : s.storage h with
  | none => simp [HotStuffCore.delivered, hb, hs.none hb]
  | some b =>
    obtain ⟨b', hb', hsh⟩ := hs.block hb
    rw [delivered_eq hb, delivered_eq hb']
    exact congrArg (·.delivered) hsh

theorem SameAt.parents {s s' : HotStuffCore Hash Sig} {h : Hash} (hs : SameAt s s' h) :
    s'.parents h = s.parents h := by
  cases hb : s.storage h with
  | none => simp [HotStuffCore.parents, hb, hs.none hb]
  | some b =>
    obtain ⟨b', hb', hsh⟩ := hs.block hb
    rw [parents_eq hb, parents_eq hb']
    exact congrArg (·.parents) hsh

theorem SameAt.qc_ref {s s' : HotStuffCore Hash Sig} {h : Hash} (hs : SameAt s s' h) :
    s'.qc_ref h = s.qc_ref h := by
  cases hb : s.storage h with
  | none => simp [HotStuffCore.qc_ref, hb, hs.none hb]
  | some b =>
    obtain ⟨b', hb', hsh⟩ := hs.block hb
    rw [qc_ref_eq hb, qc_ref_eq hb']
    exact congrArg (·.qc_ref) hsh

theorem SameShape.reads {s s' : HotStuffCore Hash Sig} (h : SameShape s s') :
    s'.height = s.height ∧ s'.parents = s.parents ∧ s'.qc_ref = s.qc_ref ∧
      s'.delivered = s.delivered :=
  ⟨funext fun x => (h x).height, funext fun x => (h x).parents, funext fun x => (h x).qc_ref,
    funext fun x => (h x).delivered⟩

/-! ## Growth -/

/-- The blocks that are there stay, with their wire fields, and a delivered one keeps its shape. -/
def Grows (s s' : HotStuffCore Hash Sig) : Prop :=
  ∀ h b, s.storage h = some b →
    ∃ b', s'.storage h = some b' ∧ b'.toBlockData = b.toBlockData ∧
      (b.delivered = true → shape b' = shape b)

theorem SameShape.grows {s s' : HotStuffCore Hash Sig} (h : SameShape s s') : Grows s s' := by
  intro x b hb
  obtain ⟨b', hb', hsh⟩ := (h x).block hb
  exact ⟨b', hb', congrArg (·.toBlockData) hsh, fun _ => hsh⟩

theorem Grows.refl (s : HotStuffCore Hash Sig) : Grows s s := (SameShape.refl s).grows

theorem Grows.trans {s s' s'' : HotStuffCore Hash Sig} (h : Grows s s') (h' : Grows s' s'') :
    Grows s s'' := by
  intro x b hb
  obtain ⟨b', hb', hdata, hsh⟩ := h x b hb
  obtain ⟨b'', hb'', hdata', hsh'⟩ := h' x b' hb'
  refine ⟨b'', hb'', hdata'.trans hdata, fun hd => ?_⟩
  have hd' : b'.delivered = true := (congrArg (·.delivered) (hsh hd)).trans hd
  exact (hsh' hd').trans (hsh hd)

theorem Grows.isSome {s s' : HotStuffCore Hash Sig} (hg : Grows s s') {h : Hash}
    (hs : (s.storage h).isSome) : (s'.storage h).isSome := by
  obtain ⟨b, hb⟩ := Option.isSome_iff_exists.mp hs
  obtain ⟨b', hb', -⟩ := hg h b hb
  rw [hb']
  rfl

theorem Grows.sameAt {s s' : HotStuffCore Hash Sig} (hg : Grows s s') {h : Hash}
    (hd : s.delivered h = true) : SameAt s s' h := by
  obtain ⟨b, hb, hbd⟩ := exists_of_delivered hd
  obtain ⟨b', hb', -, hsh⟩ := hg h b hb
  rw [SameAt, hb, hb', Option.map_some, Option.map_some, hsh hbd]

theorem Grows.delivered {s s' : HotStuffCore Hash Sig} (hg : Grows s s') {h : Hash}
    (hd : s.delivered h = true) : s'.delivered h = true := (hg.sameAt hd).delivered.trans hd

/-! ## Writes to the storage -/

section Writes

variable [DecidableEq Hash]

@[simp] theorem storage_modify_self (s : HotStuffCore Hash Sig) (h : Hash)
    (f : Block Hash Sig → Block Hash Sig) : (s.modify h f).storage h = (s.storage h).map f := by
  simp [modify, EntityStorage.modify]

theorem storage_modify_of_ne (s : HotStuffCore Hash Sig) {h x : Hash}
    (f : Block Hash Sig → Block Hash Sig) (hx : x ≠ h) :
    (s.modify h f).storage x = s.storage x := by
  simp [modify, EntityStorage.modify, hx]

/-- The state with another block at `h`. -/
def put (s : HotStuffCore Hash Sig) (h : Hash) (b : Block Hash Sig) : HotStuffCore Hash Sig :=
  { s with storage := Function.update s.storage h (some b) }

theorem modify_eq_put {s : HotStuffCore Hash Sig} {h : Hash} {b : Block Hash Sig}
    (hb : s.storage h = some b) (f : Block Hash Sig → Block Hash Sig) :
    s.modify h f = s.put h (f b) := by
  simp [modify, EntityStorage.modify, put, hb]

theorem put_modify (s : HotStuffCore Hash Sig) (h : Hash) (b : Block Hash Sig)
    (f : Block Hash Sig → Block Hash Sig) : (s.put h b).modify h f = s.put h (f b) := by
  simp [modify, EntityStorage.modify, put]

@[simp] theorem storage_put_self (s : HotStuffCore Hash Sig) (h : Hash) (b : Block Hash Sig) :
    (s.put h b).storage h = some b := by
  simp [put]

theorem storage_put_of_ne (s : HotStuffCore Hash Sig) {h x : Hash} (b : Block Hash Sig)
    (hx : x ≠ h) : (s.put h b).storage x = s.storage x := by
  simp [put, hx]

theorem SameShape.modify (s : HotStuffCore Hash Sig) (h : Hash)
    {f : Block Hash Sig → Block Hash Sig} (hf : ∀ b, shape (f b) = shape b) :
    SameShape s (s.modify h f) := by
  intro x
  by_cases hx : x = h
  · rw [hx, SameAt, storage_modify_self, Option.map_map]
    exact congrArg (Option.map · (s.storage h)) (funext hf)
  · rw [SameAt, storage_modify_of_ne s f hx]

theorem Grows.put {s : HotStuffCore Hash Sig} {h : Hash} {b b' : Block Hash Sig}
    (hb : s.storage h = some b) (hd : b.delivered = false)
    (hdata : b'.toBlockData = b.toBlockData) : Grows s (s.put h b') := by
  intro x c hc
  by_cases hx : x = h
  · subst hx
    rw [hb, Option.some.injEq] at hc
    subst hc
    exact ⟨b', storage_put_self s x b', hdata, fun hd' => absurd hd' (by simp [hd])⟩
  · exact ⟨c, (storage_put_of_ne s b' hx).trans hc, rfl, fun _ => rfl⟩

/-- A new block does not touch the others. -/
theorem Grows.put_new {s : HotStuffCore Hash Sig} {h : Hash} (hb : s.storage h = none)
    (b' : Block Hash Sig) : Grows s (s.put h b') := by
  intro x c hc
  have hx : x ≠ h := by
    intro hx
    rw [hx, hb] at hc
    cases hc
  exact ⟨c, (storage_put_of_ne s b' hx).trans hc, rfl, fun _ => rfl⟩

end Writes

end HotStuffCore

end general_hotstuff
