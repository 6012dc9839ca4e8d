-- `prune` of `consensus.cpp`. It takes the parents of old blocks away along the stack of a
-- depth first search, and erases the blocks that nothing else refers to. It always ends.
import Mathlib.Algebra.BigOperators.Group.Finset.Basic
import Mathlib.Algebra.Order.BigOperators.Group.Finset
import GeneralHotStuff.BlockLinks
import GeneralHotStuff.Transitions

/-! ## Taking a graph apart -/

namespace unlinking

variable {α : Type*} [DecidableEq α]

/-- One turn of a loop with a stack: the last edge of the vertex on top is cut and followed, and a
vertex without edges is left. -/
def turn (edges : α → List α) (x : α) (rest : List α) : (α → List α) × List α :=
  match (edges x).getLast? with
  | none => (edges, rest)
  | some p => (Function.update edges x (edges x).dropLast, p :: x :: rest)

/-- It decreases in every turn. The vertices with edges are in `t`. -/
def weight (t : Finset α) (edges : α → List α) (stack : List α) : ℕ :=
  2 * ∑ x ∈ t, (edges x).length + stack.length

theorem weight_turn {t : Finset α} {edges : α → List α} {x : α} (ht : edges x ≠ [] → x ∈ t)
    (rest : List α) :
    weight t (turn edges x rest).1 (turn edges x rest).2 < weight t edges (x :: rest) := by
  unfold turn weight
  cases hx : (edges x).getLast? with
  | none => simp
  | some p =>
    have hne : edges x ≠ [] := by
      intro hnil
      simp [hnil] at hx
    have hpos : 0 < (edges x).length := List.length_pos_of_ne_nil hne
    -- the other vertices keep their edges
    have hold := Finset.add_sum_erase t (fun y => (edges y).length) (ht hne)
    have hnew := Finset.add_sum_erase t
      (fun y => (Function.update edges x (edges x).dropLast y).length) (ht hne)
    have hrest : ∑ y ∈ t.erase x, (Function.update edges x (edges x).dropLast y).length =
        ∑ y ∈ t.erase x, (edges y).length := by
      refine Finset.sum_congr rfl fun y hy => ?_
      rw [Function.update_of_ne (Finset.ne_of_mem_erase hy)]
    simp only [Function.update_self, List.length_dropLast] at hnew
    simp only [List.length_cons]
    omega

/-- No edge is new. -/
theorem turn_prefix (edges : α → List α) (x : α) (rest : List α) (y : α) :
    (turn edges x rest).1 y <+: edges y := by
  unfold turn
  split
  · exact List.prefix_rfl
  · by_cases hy : y = x
    · subst hy
      simp only [Function.update_self]
      exact List.dropLast_prefix _
    · simp only [Function.update_of_ne hy]
      exact List.prefix_rfl

end unlinking

namespace general_hotstuff

open quorums (ReplicaID)
open transitions (Anything Runs)

variable {Hash Sig : Type}

namespace HotStuffCore

/-! ## prune -/

section Prune

variable [DecidableEq Hash]

/-- `get_cnt` of `blk`: the references to it from local variables and from the code around the
core (the list), from the core, and from the stored blocks. -/
abbrev RefCount (Hash Sig : Type) : Type := List Hash → HotStuffCore Hash Sig → Hash → ℕ

/-- A block that only the stack and the storage refer to is erased. -/
def try_release_blk (get_cnt : ℕ) (blk : Hash) (s : HotStuffCore Hash Sig) :
    HotStuffCore Hash Sig :=
  if get_cnt = 2 then { s with storage := Function.update s.storage blk none } else s

/-- The turn of the loop for the block on top of the stack. -/
def prune_turn (get_cnt : RefCount Hash Sig) (refs : List Hash) (blk : Hash) (rest : List Hash)
    (s : HotStuffCore Hash Sig) : HotStuffCore Hash Sig × List Hash :=
  match (s.parents blk).getLast? with
  | none => (s.try_release_blk (get_cnt (blk :: rest ++ refs) s blk) blk, rest)
  | some p =>
    (s.modify blk fun b => { b with qc_ref := none, parents := b.parents.dropLast },
      p :: blk :: rest)

/-- There is no result where the fuel does not last. -/
def prune_loop (get_cnt : RefCount Hash Sig) (refs : List Hash) :
    ℕ → List Hash → HotStuffCore Hash Sig → Option (HotStuffCore Hash Sig)
  | _, [], s => some s
  | 0, _ :: _, _ => none
  | fuel + 1, blk :: rest, s =>
    let (s, stack) := s.prune_turn get_cnt refs blk rest
    prune_loop get_cnt refs fuel stack s

/-- `start = start->parents[0]`, `staleness` times, unless a block without parents is met. -/
def stale (s : HotStuffCore Hash Sig) : ℕ → Hash → Option Hash
  | 0, start => some start
  | staleness + 1, start => (s.parents start).head?.bind (s.stale staleness)

/-- `held` are the blocks that the code around the core refers to. -/
def prune (get_cnt : RefCount Hash Sig) (held : List Hash) (fuel staleness : ℕ)
    (s : HotStuffCore Hash Sig) : Option (HotStuffCore Hash Sig) :=
  match s.stale staleness s.b_exec with
  | none => some s
  | some start =>
    prune_loop get_cnt (start :: held) fuel [start] (s.modify start ({ · with qc_ref := none }))

/-- The calls of a replica, and `prune` between them. -/
inductive PruneEvent (Hash Sig : Type) where
  | call (c : Call Hash Sig)
  | prune (held : List Hash) (fuel staleness : ℕ)

def prune_event (config : Config Hash Sig) (get_cnt : RefCount Hash Sig)
    (s : HotStuffCore Hash Sig) : PruneEvent Hash Sig → Option (HotStuffCore Hash Sig)
  | .call c => (s.call config c).state?
  | .prune held fuel staleness => s.prune get_cnt held fuel staleness

end Prune

/-- Neither the core nor a stored block refers to `x`. -/
structure Unreferred (s : HotStuffCore Hash Sig) (x : Hash) : Prop where
  exec : x ≠ s.b_exec
  lock : x ≠ s.b_lock
  hqc : x ≠ s.hqc.1
  parents : ∀ y, x ∉ s.parents y
  qc_ref : ∀ y, s.qc_ref y ≠ some x

/-- Where a stored block is referred to by a local variable, a count of two leaves no further
reference. -/
def Counts (get_cnt : RefCount Hash Sig) : Prop :=
  ∀ refs s x, x ∈ refs → (s.storage x).isSome → get_cnt refs s x = 2 → s.Unreferred x

variable {config : Config Hash Sig} {s s' : HotStuffCore Hash Sig} [DecidableEq Hash]

/-! ## What a turn writes -/

/-- A block without its last parents and its reference. -/
def trim (x : Hash) (b : Block Hash Sig) (ps : List Hash) (s : HotStuffCore Hash Sig) :
    HotStuffCore Hash Sig := s.put x { b with qc_ref := none, parents := ps }

theorem storage_trim_self (s : HotStuffCore Hash Sig) (x : Hash) (b : Block Hash Sig)
    (ps : List Hash) :
    (s.trim x b ps).storage x = some { b with qc_ref := none, parents := ps } :=
  storage_put_self s x _

theorem storage_trim_of_ne (s : HotStuffCore Hash Sig) {x y : Hash} (b : Block Hash Sig)
    (ps : List Hash) (hy : y ≠ x) : (s.trim x b ps).storage y = s.storage y :=
  storage_put_of_ne s _ hy

theorem trim_height {x : Hash} {b : Block Hash Sig} (hb : s.storage x = some b) (ps : List Hash)
    (y : Hash) : (s.trim x b ps).height y = s.height y := by
  by_cases hy : y = x
  · subst hy
    rw [height_eq hb, height_eq (storage_trim_self s y b ps)]
  · simp [HotStuffCore.height, storage_trim_of_ne s b ps hy]

theorem trim_delivered {x : Hash} {b : Block Hash Sig} (hb : s.storage x = some b)
    (ps : List Hash) (y : Hash) : (s.trim x b ps).delivered y = s.delivered y := by
  by_cases hy : y = x
  · subst hy
    rw [delivered_eq hb, delivered_eq (storage_trim_self s y b ps)]
  · simp [HotStuffCore.delivered, storage_trim_of_ne s b ps hy]

theorem trim_isSome {x : Hash} {b : Block Hash Sig} (hb : s.storage x = some b) (ps : List Hash)
    (y : Hash) : ((s.trim x b ps).storage y).isSome = (s.storage y).isSome := by
  by_cases hy : y = x
  · subst hy
    simp [storage_trim_self, hb]
  · simp [storage_trim_of_ne s b ps hy]

theorem trim_parents (x : Hash) (b : Block Hash Sig) (ps : List Hash) :
    (s.trim x b ps).parents = Function.update s.parents x ps := by
  funext y
  by_cases hy : y = x
  · subst hy
    rw [parents_eq (storage_trim_self s y b ps), Function.update_self]
  · simp [HotStuffCore.parents, storage_trim_of_ne s b ps hy, hy]

/-- The storage without a block. -/
def release (x : Hash) (s : HotStuffCore Hash Sig) : HotStuffCore Hash Sig :=
  { s with storage := Function.update s.storage x none }

theorem storage_release_of_ne (s : HotStuffCore Hash Sig) {x y : Hash} (hy : y ≠ x) :
    (s.release x).storage y = s.storage y := by
  simp [release, hy]

theorem storage_of_release {x y : Hash} {b : Block Hash Sig}
    (hb : (s.release x).storage y = some b) : y ≠ x ∧ s.storage y = some b := by
  have hy : y ≠ x := by
    rintro rfl
    simp [release] at hb
  exact ⟨hy, (storage_release_of_ne s hy).symm.trans hb⟩

theorem release_height_of_ne (s : HotStuffCore Hash Sig) {x y : Hash} (hy : y ≠ x) :
    (s.release x).height y = s.height y := by
  simp [HotStuffCore.height, storage_release_of_ne s hy]

theorem release_parents {x : Hash} (hx : s.parents x = []) : (s.release x).parents = s.parents := by
  funext y
  by_cases hy : y = x
  · rw [hy, hx]
    simp [HotStuffCore.parents, release]
  · simp [HotStuffCore.parents, storage_release_of_ne s hy]

/-! ## The loop of prune -/

/-- What a turn does, with the reference count that it has read. -/
theorem prune_turn_cases (get_cnt : RefCount Hash Sig) (refs : List Hash) (blk : Hash)
    (rest : List Hash) (s : HotStuffCore Hash Sig) :
    s.parents blk = [] ∧ s.prune_turn get_cnt refs blk rest = (s, rest) ∨
      s.parents blk = [] ∧ get_cnt (blk :: rest ++ refs) s blk = 2 ∧
        s.prune_turn get_cnt refs blk rest = (s.release blk, rest) ∨
      ∃ b p, s.storage blk = some b ∧ b.parents.getLast? = some p ∧
        s.prune_turn get_cnt refs blk rest =
          (s.trim blk b b.parents.dropLast, p :: blk :: rest) := by
  cases hp : s.parents blk with
  | nil =>
    by_cases hcnt : get_cnt (blk :: rest ++ refs) s blk = 2
    · refine .inr (.inl ⟨rfl, hcnt, ?_⟩)
      simp only [prune_turn, hp, List.getLast?_nil, try_release_blk, if_pos hcnt]
      rfl
    · refine .inl ⟨rfl, ?_⟩
      simp only [prune_turn, hp, List.getLast?_nil, try_release_blk, if_neg hcnt]
  | cons q qs =>
    cases hb : s.storage blk with
    | none => simp [HotStuffCore.parents, hb] at hp
    | some b =>
      rw [parents_eq hb] at hp
      have hlast : b.parents.getLast? = some ((q :: qs).getLast (List.cons_ne_nil q qs)) := by
        rw [hp, List.getLast?_eq_some_getLast]
      refine .inr (.inr ⟨b, _, rfl, hlast, ?_⟩)
      simp only [prune_turn, parents_eq hb, hlast, modify_eq_put hb]
      rfl

/-- The loop takes the graph of the parents apart. -/
theorem prune_turn_edges (get_cnt : RefCount Hash Sig) (refs : List Hash) (blk : Hash)
    (rest : List Hash) (s : HotStuffCore Hash Sig) :
    ((s.prune_turn get_cnt refs blk rest).1.parents, (s.prune_turn get_cnt refs blk rest).2) =
      unlinking.turn s.parents blk rest := by
  rcases prune_turn_cases get_cnt refs blk rest s with
    ⟨hnil, ht⟩ | ⟨hnil, -, ht⟩ | ⟨b, p, hb, hp, ht⟩
  · rw [ht]
    simp [unlinking.turn, hnil]
  · rw [ht, release_parents hnil]
    simp [unlinking.turn, hnil]
  · rw [ht, trim_parents]
    simp [unlinking.turn, parents_eq hb, hp]

/-- What every turn keeps of the state and the stack, the loop keeps. -/
theorem prune_loop_keeps {get_cnt : RefCount Hash Sig} {refs : List Hash}
    {P : HotStuffCore Hash Sig → List Hash → Prop}
    (hP : ∀ s blk rest, P s (blk :: rest) →
      P (s.prune_turn get_cnt refs blk rest).1 (s.prune_turn get_cnt refs blk rest).2)
    {fuel : ℕ} {stack : List Hash} (h : P s stack)
    (hs : prune_loop get_cnt refs fuel stack s = some s') : P s' [] := by
  induction fuel generalizing s stack with
  | zero =>
    cases stack with
    | nil => exact Option.some.inj hs ▸ h
    | cons blk rest => cases hs
  | succ fuel ih =>
    cases stack with
    | nil => exact Option.some.inj hs ▸ h
    | cons blk rest => exact ih (hP s blk rest h) hs

/-! ## The end of the loop -/

theorem Bounded.turn (h : s.Bounded) (get_cnt : RefCount Hash Sig) (refs : List Hash) (blk : Hash)
    (rest : List Hash) : (s.prune_turn get_cnt refs blk rest).1.Bounded := by
  rcases prune_turn_cases get_cnt refs blk rest s with
    ⟨-, ht⟩ | ⟨-, -, ht⟩ | ⟨b, p, hb, -, ht⟩
  · rw [ht]
    exact h
  · rw [ht]
    refine h.of_new ∅ fun x hn => .inl ?_
    by_cases hx : x = blk
    · simp [release, hx]
    · exact (storage_release_of_ne s hx).trans hn
  · rw [ht]
    refine h.of_new ∅ fun x hn => .inl ?_
    have hsame := trim_isSome hb b.parents.dropLast x
    rw [hn] at hsame
    exact Option.isNone_iff_eq_none.mp (by simpa using hsame)

theorem Bounded.modify (h : s.Bounded) (x : Hash) (f : Block Hash Sig → Block Hash Sig) :
    (s.modify x f).Bounded := by
  refine h.of_new ∅ fun y hn => .inl ?_
  by_cases hy : y = x
  · rw [hy] at hn
    rw [hy, storage_modify_self, hn, Option.map_none]
  · rw [storage_modify_of_ne s f hy, hn]

theorem Bounded.prune {get_cnt : RefCount Hash Sig} (h : s.Bounded) {held : List Hash}
    {fuel staleness : ℕ} (hs : s.prune get_cnt held fuel staleness = some s') : s'.Bounded := by
  unfold HotStuffCore.prune at hs
  split at hs
  · exact Option.some.inj hs ▸ h
  · rename_i start _
    exact prune_loop_keeps (P := fun s _ => s.Bounded)
      (fun s blk rest hb => hb.turn get_cnt (start :: held) blk rest) (h.modify start _) hs

/-- The loop ends: the graph loses an edge or the stack a block in every turn. -/
theorem prune_loop_isSome (get_cnt : RefCount Hash Sig) (refs : List Hash) {t : Finset Hash}
    (ht : ∀ x, s.parents x ≠ [] → x ∈ t) {fuel : ℕ} {stack : List Hash}
    (hfuel : unlinking.weight t s.parents stack ≤ fuel) :
    (prune_loop get_cnt refs fuel stack s).isSome := by
  induction fuel generalizing s stack with
  | zero =>
    cases stack with
    | nil => rfl
    | cons blk rest => simp [unlinking.weight] at hfuel
  | succ fuel ih =>
    cases stack with
    | nil => rfl
    | cons blk rest =>
      have hedges := prune_turn_edges get_cnt refs blk rest s
      have hweight := unlinking.weight_turn (ht blk) rest
      have hsub := unlinking.turn_prefix s.parents blk rest
      rw [← hedges] at hweight hsub
      have hrest : ∀ x, (s.prune_turn get_cnt refs blk rest).1.parents x ≠ [] → x ∈ t := by
        intro x hx
        refine ht x fun hnil => hx ?_
        have hx := hsub x
        rw [hnil] at hx
        exact List.prefix_nil.mp hx
      exact ih hrest (Nat.le_of_lt_succ (lt_of_lt_of_le hweight hfuel))

/-- `prune` ends. -/
theorem Bounded.prune_isSome (get_cnt : RefCount Hash Sig) (h : s.Bounded) (held : List Hash)
    (staleness : ℕ) : ∃ fuel, ∀ more ≥ fuel, (s.prune get_cnt held more staleness).isSome := by
  cases hs : s.stale staleness s.b_exec with
  | none => exact ⟨0, fun more _ => by simp [HotStuffCore.prune, hs]⟩
  | some start =>
    obtain ⟨t, ht⟩ := h.modify start ({ · with qc_ref := none })
    have hstored : ∀ x, (s.modify start ({ · with qc_ref := none })).parents x ≠ [] → x ∈ t := by
      intro x hx
      refine ht x ?_
      cases hc : (s.modify start ({ · with qc_ref := none })).storage x with
      | none => simp [HotStuffCore.parents, hc] at hx
      | some c => rfl
    refine ⟨unlinking.weight t
      (s.modify start ({ · with qc_ref := none })).parents [start], fun more hmore => ?_⟩
    simp only [HotStuffCore.prune, hs]
    exact prune_loop_isSome get_cnt (start :: held) hstored hmore

theorem Bounded.of_runs {get_cnt : RefCount Hash Sig} {id : ReplicaID}
    (h : Runs (prune_event config get_cnt) Anything (on_init config id) s) : s.Bounded := by
  refine h.keeps ?_ fun t e u ht _ he => ?_
  · refine ⟨{config.b0}, fun x hx => ?_⟩
    by_contra hne
    rw [Finset.mem_singleton] at hne
    simp [on_init, hne] at hx
  · cases e with
    | call c => exact ht.call config c u he
    | prune held fuel staleness => exact ht.prune he

end HotStuffCore

end general_hotstuff
