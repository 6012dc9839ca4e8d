-- The laws of the insertion algorithm: what a formula's span program accepts is
-- the formula itself, evaluated with the positions of the children taken modulo
-- the field. One inserted node is one step, the rest is induction on the formula.
import GeneralHotStuff.Quorums
import GeneralHotStuff.UnitSpan
import Mathlib.Data.List.GetD

namespace general_hotstuff.quorums

open general_hotstuff.linalg unit_span

/-! ## Formulas -/

namespace Theta

/-- Every node of the formula has the property `P` of its threshold and number of children. -/
inductive AllNodes (P : ℤ → ℕ → Prop) : Theta → Prop
  | mk {k : ℤ} {es : List ReplicaID} {ts : List Theta} (here : P k (es.length + ts.length))
      (nested : ∀ t ∈ ts, AllNodes P t) : AllNodes P (.mk k es ts)

theorem AllNodes.mono {P Q : ℤ → ℕ → Prop} (h : ∀ k n, P k n → Q k n) {t : Theta}
    (ht : AllNodes P t) : AllNodes Q t := by
  induction ht with
  | mk here _ ih => exact .mk (h _ _ here) ih

end Theta

mutual

/-- The leaves of a formula: the own elements first, then those of the nested formulas. -/
def leaves : Theta → List ReplicaID
  | .mk _ elements nestedElements => elements ++ leavesNested nestedElements

def leavesNested : List Theta → List ReplicaID
  | [] => []
  | t :: rest => leaves t ++ leavesNested rest

end

/-- The positions that `sat` marks. -/
def marked (sat : List Bool) : Finset ℕ :=
  (Finset.range sat.length).filter fun i => sat.getD i false

/-- Whether the children that `sat` marks satisfy a node when child `i` stands at the point
`i + 1` modulo `p`: a child at point zero does so alone, and children at one point count once. -/
def satisfiedAt (p : ℕ) (threshold : ℤ) (sat : List Bool) : Bool :=
  decide ((∃ i ∈ marked sat, (i + 1) % p = 0) ∨
    threshold ≤ ((marked sat).image fun i => (i + 1) % p).card)

mutual

/-- The formula with its children at points modulo `p`. -/
def evalResidues (p : ℕ) : Theta → Finset ReplicaID → Bool
  | .mk threshold elements nestedElements, reps =>
    satisfiedAt p threshold
      (elements.map (fun rid => decide (rid ∈ reps)) ++ residuesNested p nestedElements reps)

def residuesNested (p : ℕ) : List Theta → Finset ReplicaID → List Bool
  | [], _ => []
  | t :: rest, reps => evalResidues p t reps :: residuesNested p rest reps

end

theorem residuesNested_eq (p : ℕ) (ts : List Theta) (A : Finset ReplicaID) :
    residuesNested p ts A = ts.map fun t => evalResidues p t A := by
  induction ts with
  | nil => rfl
  | cons t ts ih => rw [residuesNested, ih, List.map_cons]

theorem evalNested_eq (ts : List Theta) (A : Finset ReplicaID) :
    evalNested ts A = ts.countP fun t => evalFomula t A := by
  induction ts with
  | nil => rfl
  | cons t ts ih =>
    rw [evalNested, ih, List.countP_cons]
    omega

/-! ## One node -/

variable {p : ℕ}

/-- The rows of a Vandermonde matrix decide a node. -/
theorem spansE1_vandermonde [Fact p.Prime] (k : ℤ) (sat : List Bool) :
    SpansE1 sat.length k.toNat (fun i j => ((i + 1 : ℕ) : ZMod p) ^ j)
      (fun i => sat.getD i false = true) ↔ satisfiedAt p k sat = true := by
  have hzero : ∀ i : ℕ, ((i + 1 : ℕ) : ZMod p) = 0 ↔ (i + 1) % p = 0 := by
    intro i
    rw [ZMod.natCast_eq_zero_iff, Nat.dvd_iff_mod_eq_zero]
  have hcard : (points sat.length (fun i => ((i + 1 : ℕ) : ZMod p))
      (fun i => sat.getD i false = true)).card =
      ((marked sat).image fun i => (i + 1) % p).card := by
    rw [← Finset.card_image_of_injOn (f := fun r : ℕ => (r : ZMod p))]
    · congr 1
      ext a
      simp only [mem_points, marked, Finset.mem_image, Finset.mem_filter, Finset.mem_range,
        and_assoc]
      constructor
      · rintro ⟨i, hi, hs, rfl⟩
        exact ⟨_, ⟨i, hi, hs, rfl⟩, ZMod.natCast_mod _ _⟩
      · rintro ⟨_, ⟨i, hi, hs, rfl⟩, rfl⟩
        exact ⟨i, hi, hs, (ZMod.natCast_mod _ _).symm⟩
    · intro a ha b hb hab
      simp only [Finset.coe_image, Set.mem_image] at ha hb
      obtain ⟨i, _, rfl⟩ := ha
      obtain ⟨j, _, rfl⟩ := hb
      simp only [ZMod.natCast_eq_natCast_iff', Nat.mod_mod] at hab
      exact hab
  rw [spansE1_powers_iff, hcard, satisfiedAt, decide_eq_true_iff]
  apply or_congr
  · simp only [marked, Finset.mem_filter, Finset.mem_range, hzero, and_assoc]
  · exact Int.toNat_le

/-- Inside of the current matrix an insertion never fails. -/
theorem performInsertion_eq {M1 : Mat (ZMod p)} (M2 : Mat (ZMod p)) {r : ℕ}
    (hr : r < M1.NumRows) (hd : 0 < M2.NumCols) :
    performInsertion M1 M2 r =
      some ⟨M1.NumRows + M2.NumRows - 1, M1.NumCols + M2.NumCols - 1,
        insertRows r M2.NumRows M1.NumCols M1.entry M2.entry⟩ := by
  unfold performInsertion
  simp only [hr, true_and]
  rw [if_pos (Or.inl (Nat.succ_le_of_lt hd))]
  rfl

/-- Insertion composes. The rows `S` of the result span the first unit vector exactly when the
rows of `M1` that `S` keeps do, together with row `r` when the inserted rows of `S` span the
first unit vector in `M2`. -/
theorem an_insertion_stands_for_its_row [Fact p.Prime] {M1 M2 : Mat (ZMod p)}
    (hd1 : 1 ≤ M1.NumCols) (hd2 : 1 ≤ M2.NumCols)
    (hone : ∀ i < M2.NumRows, M2.entry i 0 = 1) {r : ℕ} (hr : r < M1.NumRows) :
    ∃ M, performInsertion M1 M2 r = some M ∧ ∀ S : ℕ → Prop,
      SpansE1 M.NumRows M.NumCols M.entry S ↔
        SpansE1 M1.NumRows M1.NumCols M1.entry (collapse r M2.NumRows
          (SpansE1 M2.NumRows M2.NumCols M2.entry fun i => S (r + i)) S) := by
  refine ⟨_, performInsertion_eq M2 hr hd2, ?_⟩
  intro S
  exact spansE1_insertRows_iff hr hd1 hd2 hone

/-- Two points inserted in the last of two rows. -/
theorem two_points_stand_for_the_last_row :
    ∃ M, performInsertion ⟨2, 2, ident 3⟩ ⟨2, 2, fun i j => ((i + 1 : ℕ) : ZMod 3) ^ j⟩ 1 =
        some M ∧ ∀ S : ℕ → Prop,
      SpansE1 M.NumRows M.NumCols M.entry S ↔
        SpansE1 2 2 (ident 3) (collapse 1 2
          (SpansE1 2 2 (fun i j => ((i + 1 : ℕ) : ZMod 3) ^ j) fun i => S (1 + i)) S) :=
  an_insertion_stands_for_its_row (by decide) (by decide) (fun _ _ => pow_zero _) (by decide)

theorem getVandermonde_eq {k : ℤ} (hk : 1 ≤ k) (n : ℕ) :
    getVandermonde p k n = some ⟨n, k.toNat, fun i j => ((i + 1 : ℕ) : ZMod p) ^ j⟩ := by
  unfold getVandermonde
  rw [if_pos (by omega)]

/-! ## The whole formula -/

/-- `w` rows from `r` on taken for the `l` rows that replace them: row `r + i` stands when
`holds i`. -/
def block (r w l : ℕ) (holds : ℕ → Prop) (S : ℕ → Prop) : ℕ → Prop := fun i =>
  (i < r ∧ S i) ∨ (r ≤ i ∧ i < r + w ∧ holds (i - r)) ∨ (r + w ≤ i ∧ S (i + l - w))

theorem block_before {r w l i : ℕ} {holds S : ℕ → Prop} (h : i < r) :
    block r w l holds S i ↔ S i := by
  unfold block
  simp only [h, true_and, show ¬ r ≤ i by omega, show ¬ r + w ≤ i by omega, false_and, or_false]

theorem block_inside {r w l i : ℕ} {holds S : ℕ → Prop} (h : r ≤ i) (hi : i < r + w) :
    block r w l holds S i ↔ holds (i - r) := by
  unfold block
  simp only [h, hi, true_and, show ¬ i < r by omega, show ¬ r + w ≤ i by omega, false_and,
    false_or, or_false]

theorem block_after {r w l i : ℕ} {holds S : ℕ → Prop} (h : r + w ≤ i) :
    block r w l holds S i ↔ S (i + l - w) := by
  unfold block
  simp only [h, true_and, show ¬ i < r by omega, show ¬ i < r + w by omega, false_and, and_false,
    false_or]

/-- One replaced row and then the rest of them. -/
theorem block_cons (r w a b : ℕ) (q : Prop) (holds S : ℕ → Prop) (i : ℕ) :
    block r 1 a (fun _ => q) (block (r + a) w b holds S) i ↔
      block r (w + 1) (a + b) (fun i => if i = 0 then q else holds (i - 1)) S i := by
  rcases Nat.lt_trichotomy i r with hi | rfl | hi
  · rw [block_before hi, block_before (by omega), block_before hi]
  · rw [block_inside (Nat.le_refl i) (by omega), block_inside (Nat.le_refl i) (by omega)]
    simp
  · rw [block_after (by omega)]
    by_cases hw : i < r + (w + 1)
    · rw [block_inside (by omega) (by omega), block_inside (by omega) hw, if_neg (by omega),
        show i + a - 1 - (r + a) = i - r - 1 by omega]
    · rw [block_after (by omega), block_after (by omega),
        show i + a - 1 + b - w = i + (a + b) - (w + 1) by omega]

/-- The rows `S` are owned as `labels` says, from row `r` on, by the replicas `A`. -/
def Owned (A : Finset ReplicaID) (r : ℕ) (labels : List ReplicaID) (S : ℕ → Prop) : Prop :=
  ∀ k (hk : k < labels.length), S (r + k) ↔ labels[k] ∈ A

/-- How `st'` comes from `st` when `w` of its rows are replaced by one row for each of `labels`,
and the replaced rows stand for `holds`. -/
structure Replaces (A : Finset ReplicaID) (w : ℕ) (holds : ℕ → Prop) (labels : List ReplicaID)
    [Fact p.Prime] (st st' : InsertState p) : Prop where
  rows : st'.M.NumRows + w = st.M.NumRows + labels.length
  cols : 0 < st'.M.NumCols
  label : st'.L = st.L ++ labels
  index : st'.insertionIndex = st.insertionIndex + labels.length
  spans : ∀ S, Owned A st.insertionIndex labels S →
    (SpansE1 st'.M.NumRows st'.M.NumCols st'.M.entry S ↔
      SpansE1 st.M.NumRows st.M.NumCols st.M.entry
        (block st.insertionIndex w labels.length holds S))

/-- What the recursion does for one formula. -/
def InsertsTheta (p : ℕ) [Fact p.Prime] (A : Finset ReplicaID) (t : Theta) : Prop :=
  ∀ st : InsertState p, st.insertionIndex < st.M.NumRows → 0 < st.M.NumCols →
    ∃ st', insertNextTheta st t = some st' ∧
      Replaces A 1 (fun _ => evalResidues p t A = true) (leaves t) st st'

theorem Owned.left {A : Finset ReplicaID} {r : ℕ} {ls ks : List ReplicaID} {S : ℕ → Prop}
    (h : Owned A r (ls ++ ks) S) : Owned A r ls S := by
  intro k hk
  rw [h k (by rw [List.length_append]; omega), List.getElem_append_left hk]

theorem Owned.right {A : Finset ReplicaID} {r : ℕ} {ls ks : List ReplicaID} {S : ℕ → Prop}
    (h : Owned A r (ls ++ ks) S) : Owned A (r + ls.length) ks S := by
  intro k hk
  have := h (ls.length + k) (by rw [List.length_append]; omega)
  rw [← Nat.add_assoc] at this
  rw [this, List.getElem_append_right (by omega)]
  simp

/-- The nested formulas of a node are inserted one after the other. -/
theorem insertNested_spec [Fact p.Prime] {A : Finset ReplicaID} (ts : List Theta)
    (h : ∀ t ∈ ts, InsertsTheta p A t) (st : InsertState p)
    (hr : st.insertionIndex + ts.length ≤ st.M.NumRows) (hc : 0 < st.M.NumCols) :
    ∃ st', insertNested st ts = some st' ∧
      Replaces A ts.length (fun i => (residuesNested p ts A).getD i false = true)
        (leavesNested ts) st st' := by
  induction ts generalizing st with
  | nil =>
    refine ⟨st, rfl, rfl, hc, by simp [leavesNested], by simp [leavesNested], ?_⟩
    intro S _
    apply spansE1_congr
    intro i _
    rcases Nat.lt_or_ge i st.insertionIndex with hi | hi
    · rw [block_before hi]
    · rw [block_after hi]
      rfl
  | cons t ts ih =>
    rw [List.length_cons] at hr
    obtain ⟨st1, h1, rep1⟩ := h t (List.mem_cons_self) st (by omega) hc
    have hrows := rep1.rows
    have hidx := rep1.index
    obtain ⟨st2, h2, rep2⟩ := ih (fun s hs => h s (List.mem_cons_of_mem _ hs)) st1
      (by omega) rep1.cols
    have hrows2 := rep2.rows
    refine ⟨st2, ?_, ?_, rep2.cols, ?_, ?_, ?_⟩
    · rw [insertNested, h1, Option.bind_some, h2]
    · simp only [leavesNested, List.length_append, List.length_cons]
      omega
    · rw [rep2.label, rep1.label, leavesNested, List.append_assoc]
    · rw [rep2.index, rep1.index, leavesNested, List.length_append]
      omega
    · intro S hS
      rw [leavesNested] at hS ⊢
      have hS2 := hS.right
      rw [← hidx] at hS2
      rw [rep2.spans S hS2, rep1.spans]
      · apply spansE1_congr
        intro i _
        rw [hidx, List.length_append, block_cons, List.length_cons]
        apply iff_of_eq
        congr 1
        funext k
        cases k with
        | zero => simp [residuesNested]
        | succ k => simp [residuesNested]
      · intro k hk
        rw [← hS.left k hk]
        exact block_before (by omega)

/-- The rows of a node right after its insertion: which of them stand is what `sat` says. -/
theorem block_children {A : Finset ReplicaID} {r l : ℕ} {es ks : List ReplicaID} {sat : List Bool}
    {S : ℕ → Prop} (h : Owned A r (es ++ ks) S) (i : ℕ) (hi : i < es.length + sat.length) :
    block (r + es.length) sat.length l (fun i => sat.getD i false = true) S (r + i) ↔
      (es.map (fun rid => decide (rid ∈ A)) ++ sat).getD i false = true := by
  by_cases hie : i < es.length
  · rw [block_before (by omega), h.left i hie]
    rw [List.getD_append _ _ _ _ (by rw [List.length_map]; omega)]
    simp [hie]
  · rw [block_inside (by omega) (by omega), show r + i - (r + es.length) = i - es.length by omega]
    rw [List.getD_append_right _ _ _ _ (by rw [List.length_map]; omega), List.length_map]

/-- The insertion of a formula never fails, and its rows stand for the formula at points
modulo `p`. -/
theorem insertNextTheta_spec [Fact p.Prime] (A : Finset ReplicaID) {t : Theta}
    (ht : t.AllNodes fun k _ => 1 ≤ k) : InsertsTheta p A t := by
  induction ht with
  | @mk k es ts hk _ ih =>
    intro st hr hc
    generalize hl : es.length + ts.length = l
    let V : Mat (ZMod p) := ⟨l, k.toNat, fun i j => ((i + 1 : ℕ) : ZMod p) ^ j⟩
    have hk0 : 0 < k.toNat := by omega
    have hV : 0 < V.NumCols := hk0
    let st1 : InsertState p :=
      { M := ⟨st.M.NumRows + l - 1, st.M.NumCols + k.toNat - 1,
          insertRows st.insertionIndex l st.M.NumCols st.M.entry V.entry⟩
        L := st.L ++ es
        insertionIndex := st.insertionIndex + es.length }
    obtain ⟨st2, h2, rep⟩ := insertNested_spec ts ih st1 (by simp only [st1]; omega)
      (by simp only [st1]; omega)
    have hrows := rep.rows
    simp only [st1] at hrows
    refine ⟨st2, ?_, ?_, rep.cols, ?_, ?_, ?_⟩
    · rw [insertNextTheta, getVandermonde_eq hk, Option.bind_some, hl,
        performInsertion_eq V hr hV, Option.bind_some]
      exact h2
    · rw [leaves, List.length_append]
      omega
    · rw [rep.label, leaves, List.append_assoc]
    · rw [rep.index, leaves, List.length_append]
      simp only [st1]
      omega
    · intro S hS
      rw [leaves] at hS ⊢
      rw [rep.spans S hS.right]
      simp only [st1]
      rw [spansE1_insertRows_iff hr hc hk0 fun i _ => by simp [V]]
      have hsat : (residuesNested p ts A).length = ts.length := by
        rw [residuesNested_eq, List.length_map]
      have hinner : SpansE1 l k.toNat V.entry (fun i => block (st.insertionIndex + es.length)
          ts.length (leavesNested ts).length
          (fun i => (residuesNested p ts A).getD i false = true) S (st.insertionIndex + i)) ↔
          evalResidues p (.mk k es ts) A = true := by
        rw [evalResidues, ← spansE1_vandermonde, List.length_append, List.length_map, hsat, hl]
        apply spansE1_congr
        intro i hi
        rw [← hsat]
        exact block_children hS i (by omega)
      apply spansE1_congr
      intro i _
      rw [List.length_append]
      unfold collapse
      rcases Nat.lt_trichotomy i st.insertionIndex with hi | hi | hi
      · rw [block_before hi, block_before (by omega)]
        simp only [hi, true_and, show i ≠ st.insertionIndex by omega,
          show ¬ st.insertionIndex < i by omega, false_and, or_false]
      · subst hi
        simp only [lt_irrefl, false_and, false_or, true_and, or_false]
        rw [hinner, block_inside (Nat.le_refl _) (Nat.lt_succ_self _)]
      · simp only [hi, true_and, show i ≠ st.insertionIndex by omega,
          show ¬ i < st.insertionIndex by omega, false_and, false_or]
        rw [block_after (by omega), block_after (by omega),
          show i + l - 1 + (leavesNested ts).length - ts.length =
            i + (es.length + (leavesNested ts).length) - 1 by omega]

/-! ## The points modulo `p` against the formula -/

theorem card_marked (sat : List Bool) : (marked sat).card = sat.countP id := by
  unfold marked
  induction sat using List.reverseRecOn with
  | nil => rfl
  | append_singleton l b ih =>
    have hsame : (Finset.range l.length).filter (fun i => (l ++ [b]).getD i false) =
        (Finset.range l.length).filter fun i => l.getD i false := by
      apply Finset.filter_congr
      intro i hi
      rw [List.getD_append _ _ _ _ (Finset.mem_range.mp hi)]
    rw [List.length_append, List.length_singleton, Finset.range_add_one, Finset.filter_insert,
      hsame, List.countP_append, ← ih]
    cases b with
    | true => simp
    | false => simp

theorem satisfiedAt_iff {k : ℤ} {sat : List Bool} :
    satisfiedAt p k sat = true ↔ (∃ i ∈ marked sat, (i + 1) % p = 0) ∨
      k ≤ ((marked sat).image fun i => (i + 1) % p).card :=
  decide_eq_true_iff

/-- With fewer children than `p` no point is zero and no two agree. -/
theorem satisfiedAt_of_lt {k : ℤ} {sat : List Bool} (hp : sat.length < p) :
    satisfiedAt p k sat = true ↔ k ≤ sat.countP id := by
  have hmod : ∀ i ∈ marked sat, (i + 1) % p = i + 1 := by
    intro i hi
    have := Finset.mem_range.mp (Finset.mem_filter.mp hi).1
    exact Nat.mod_eq_of_lt (by omega)
  have hcard : ((marked sat).image fun i => (i + 1) % p).card = (marked sat).card := by
    apply Finset.card_image_of_injOn
    intro i hi j hj hij
    simp only [hmod i hi, hmod j hj] at hij
    omega
  rw [satisfiedAt_iff, hcard, card_marked]
  constructor
  · rintro (⟨i, hi, hz⟩ | hk)
    · rw [hmod i hi] at hz
      omega
    · exact hk
  · exact Or.inr

/-- One satisfied child is enough for threshold one, wherever it stands. -/
theorem count_pos_of_satisfiedAt {sat : List Bool} (h : satisfiedAt p 1 sat = true) :
    1 ≤ sat.countP id := by
  rw [← card_marked, Nat.succ_le_iff, Finset.card_pos]
  rcases satisfiedAt_iff.mp h with ⟨i, hi, -⟩ | hk
  · exact ⟨i, hi⟩
  · have hpos : 0 < ((marked sat).image fun i => (i + 1) % p).card := by omega
    exact (Finset.image_nonempty.mp (Finset.card_pos.mp hpos))

/-- The children of a node that are satisfied at points modulo `p`. -/
theorem countP_children (f : Theta → Bool) (es : List ReplicaID) (ts : List Theta)
    (A : Finset ReplicaID) :
    (es.map (fun rid => decide (rid ∈ A)) ++ ts.map f).countP id =
      es.countP (· ∈ A) + ts.countP f := by
  rw [List.countP_append, List.countP_map, List.countP_map]
  rfl

/-- With fewer children than `p` in every node the span program decides the formula itself. -/
theorem evalResidues_of_lt {t : Theta} (A : Finset ReplicaID)
    (ht : t.AllNodes fun _ n => n < p) : evalResidues p t A = evalFomula t A := by
  induction ht with
  | @mk k es ts hn _ ih =>
    rw [Bool.eq_iff_iff, evalResidues, residuesNested_eq, List.map_congr_left ih,
      satisfiedAt_of_lt (by simpa using hn), countP_children, evalFomula, evalNested_eq,
      decide_eq_true_iff]

/-- A node with threshold one or with fewer children than `p` accepts no more than the formula. -/
theorem evalFomula_of_evalResidues {t : Theta} {A : Finset ReplicaID}
    (ht : t.AllNodes fun k n => k = 1 ∨ n < p) (h : evalResidues p t A = true) :
    evalFomula t A = true := by
  induction ht with
  | @mk k es ts hn _ ih =>
    have hmono : ts.countP (fun t => evalResidues p t A) ≤ ts.countP fun t => evalFomula t A :=
      List.countP_mono_left ih
    have hk : k ≤ (es.countP (· ∈ A) + ts.countP fun t => evalResidues p t A : ℕ) := by
      rw [← countP_children, ← residuesNested_eq]
      rw [evalResidues] at h
      rcases hn with rfl | hn
      · exact_mod_cast count_pos_of_satisfiedAt h
      · exact (satisfiedAt_of_lt (by simpa [residuesNested_eq] using hn)).mp h
    rw [evalFomula, evalNested_eq, decide_eq_true_iff]
    push_cast at hk ⊢
    omega

end general_hotstuff.quorums
