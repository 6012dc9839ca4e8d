-- The laws of the span program: what `create` prepares decides a formula exactly,
-- its sharing gives nothing away to an unauthorized set, and what becomes of both
-- when a node has as many children as the field has elements.
import GeneralHotStuff.InsertionLaws
import GeneralHotStuff.SubstitutionLaws
import Mathlib.Tactic.NormNum.Prime

namespace general_hotstuff.quorums

open general_hotstuff.linalg row_echelon unit_span

variable {p : ℕ}

/-! ## The prepared factorization -/

namespace Msp

/-- `U` and `y` are the rows of `M`, as columns, and the first unit vector after one change of
basis. -/
structure Prepared [Fact p.Prime] (msp : Msp p) : Prop where
  pos : 0 < msp.d
  U_rows : msp.U.NumRows = msp.d
  U_cols : msp.U.NumCols = msp.m
  len : msp.y.length = msp.d
  change : ∃ E : Matrix (Fin msp.d) (Fin msp.d) (ZMod p), IsUnit E.det ∧
    window msp.d msp.m msp.U.entry = E * window msp.d msp.m msp.M.transpose.entry ∧
    (fun i : Fin msp.d => msp.y.entry i) = E.mulVec (unit_span.e1 msp.d)

/-- The rows of `M` that replicas of `reps` own. -/
def Owns (msp : Msp p) (reps : Finset ReplicaID) (i : ℕ) : Prop := msp.L.getD i 0 ∈ reps

/-- The coefficients `x` combine the owned rows, in their order, to the first unit vector. -/
def Recombines (msp : Msp p) (reps : Finset ReplicaID) (x : ℕ → ZMod p) : Prop :=
  ∀ i < msp.d, ∑ j ∈ Finset.range (msp.ownedRows reps).length,
    msp.M.entry ((msp.ownedRows reps).getD j 0) i * x j = if i = 0 then 1 else 0

end Msp

/-- `performPLU` never fails on a matrix with a column. -/
theorem performPLU_spec [Fact p.Prime] {msp : Msp p} (hd : 0 < msp.d) :
    ∃ msp', performPLU msp = some msp' ∧ msp'.M = msp.M ∧ msp'.L = msp.L ∧ msp'.Prepared := by
  obtain ⟨f, hf, hfac⟩ := PLU_spec msp.M.transpose
  obtain ⟨y, hy, hlen, hchange⟩ := hfac.forward ⟨msp.d, fun j => if j = 0 then 1 else 0⟩
  refine ⟨{ msp with U := f.U, y := y }, ?_, rfl, rfl, hd, hfac.U_rows, hfac.U_cols, hlen, hchange⟩
  unfold performPLU Msp.e1
  simp only [hf, hd, if_true, Option.bind_some, hy, Option.map_some]

/-- The columns of `U` with `y` come from those of the transposed `M` with the first unit vector
by row operations. -/
theorem Msp.Prepared.rowEquiv [Fact p.Prime] {msp : Msp p} (h : msp.Prepared) {cols : List ℕ}
    (hcols : ∀ i ∈ cols, i < msp.m) :
    RowEquiv msp.d (cols.length + 1)
      (augment cols.length (fun i j => msp.M.entry (cols.getD j 0) i)
        fun i => if i = 0 then 1 else 0)
      (augment cols.length (fun i j => msp.U.entry i (cols.getD j 0)) msp.y.entry) := by
  obtain ⟨E, hE, hU, hy⟩ := h.change
  refine ⟨E, hE, ?_⟩
  ext i j
  rw [Matrix.mul_apply]
  simp only [window_apply, augment]
  by_cases hj : j.val < cols.length
  · simp only [hj, if_true]
    have hmem : cols.getD j 0 < msp.m := by
      rw [List.getD_eq_getElem _ _ hj]
      exact hcols _ (List.getElem_mem hj)
    have := congrFun (congrFun hU i) ⟨cols.getD j 0, hmem⟩
    rw [Matrix.mul_apply] at this
    exact this
  · simp only [hj, if_false]
    exact congrFun hy i

theorem Msp.ownedRows_lt {msp : Msp p} {reps : Finset ReplicaID} :
    ∀ i ∈ msp.ownedRows reps, i < msp.m := by
  intro i hi
  exact List.mem_range.mp (List.mem_filter.mp hi).1

/-- The system that `getAugmentedMatrix` sets up has the solutions of `Ma^T x = e1`. -/
theorem Msp.Prepared.solves_iff [Fact p.Prime] {msp : Msp p} (h : msp.Prepared)
    (reps : Finset ReplicaID) (x : ℕ → ZMod p) :
    Solves msp.d (msp.ownedRows reps).length
      (augment (msp.ownedRows reps).length (msp.getColsOfUOwnedByReps reps).entry msp.y.entry) x ↔
    msp.Recombines reps x := by
  unfold Msp.Recombines
  rw [← solves_augment, ← (h.rowEquiv Msp.ownedRows_lt).solves_iff]
  rfl

theorem Msp.spansE1_iff [Fact p.Prime] {msp : Msp p} (reps : Finset ReplicaID) :
    SpansE1 msp.m msp.d msp.M.entry (msp.Owns reps) ↔ ∃ x, msp.Recombines reps x := by
  unfold Msp.Recombines Msp.ownedRows
  rw [← spansE1_iff_columns]
  apply spansE1_congr
  intro i _
  simp [Msp.Owns]

theorem Msp.Prepared.augmented [Fact p.Prime] {msp : Msp p} (h : msp.Prepared)
    (reps : Finset ReplicaID) :
    Msp.getAugmentedMatrix (msp.getColsOfUOwnedByReps reps) msp.y =
      some ⟨msp.d, (msp.ownedRows reps).length + 1,
        augment (msp.ownedRows reps).length (msp.getColsOfUOwnedByReps reps).entry
          msp.y.entry⟩ := by
  have hlen : (msp.getColsOfUOwnedByReps reps).NumRows = msp.y.length := h.len.symm
  unfold Msp.getAugmentedMatrix
  rw [if_pos hlen]
  rfl

/-- The rank comparison decides whether the owned rows span the first unit vector. -/
theorem Msp.Prepared.isAuthorized [Fact p.Prime] {msp : Msp p} (h : msp.Prepared)
    (reps : Finset ReplicaID) :
    ∃ b, msp.isAuthorizedGroupWithPLU reps = some b ∧
      (b = true ↔ SpansE1 msp.m msp.d msp.M.entry (msp.Owns reps)) := by
  obtain ⟨B, piv, hg, -⟩ := gauss_spec (msp.getColsOfUOwnedByReps reps)
  obtain ⟨B', piv', hg', -⟩ := gauss_spec (⟨msp.d, (msp.ownedRows reps).length + 1,
    augment (msp.ownedRows reps).length (msp.getColsOfUOwnedByReps reps).entry
      msp.y.entry⟩ : Mat (ZMod p))
  refine ⟨decide (piv.length = piv'.length), ?_, ?_⟩
  · unfold Msp.isAuthorizedGroupWithPLU
    simp only [h.augmented, hg, hg', Option.bind_some, Option.map_some]
  · rw [decide_eq_true_iff, gauss_rank hg, gauss_rank hg', Msp.spansE1_iff]
    refine (rank_augment_eq_iff msp.d (msp.ownedRows reps).length _ _).trans ?_
    exact exists_congr fun x => h.solves_iff reps x

/-- For an authorized set the recombination vector exists, with one entry for each owned row, and
each turn of the backward substitution stays inside of the matrix and of the vector. -/
theorem Msp.Prepared.recombination_turns [Fact p.Prime] {msp : Msp p} (h : msp.Prepared)
    {reps : Finset ReplicaID} (hs : SpansE1 msp.m msp.d msp.M.entry (msp.Owns reps)) :
    ∃ Ua_augm B piv x,
      Msp.getAugmentedMatrix (msp.getColsOfUOwnedByReps reps) msp.y = some Ua_augm ∧
      gauss Ua_augm = some (B, piv) ∧
      (∀ q ∈ piv.zipIdx, q.2 < B.NumRows ∧ q.1 < (msp.ownedRows reps).length ∧
        B.entry q.2 q.1 ≠ 0) ∧
      msp.getRecombinationVector reps = some x ∧ x.length = (msp.ownedRows reps).length ∧
      msp.Recombines reps x.entry := by
  obtain ⟨c, hc⟩ := (Msp.spansE1_iff reps).mp hs
  let A : Mat (ZMod p) := ⟨msp.d, (msp.ownedRows reps).length + 1,
    augment (msp.ownedRows reps).length (msp.getColsOfUOwnedByReps reps).entry msp.y.entry⟩
  have hsol : Solves A.NumRows (msp.ownedRows reps).length A.entry c :=
    (h.solves_iff reps c).mpr hc
  obtain ⟨B, piv, x, hg, hturns, hx, hlen, hsolx, -⟩ := gauss_backward_spec rfl hsol
  refine ⟨A, B, piv, x, h.augmented reps, hg, hturns, ?_, hlen,
    (h.solves_iff reps x.entry).mp hsolx⟩
  unfold Msp.getRecombinationVector
  simp only [h.augmented, Option.bind_some]
  rw [hg, Option.bind_some]
  exact hx

theorem Msp.Prepared.recombination [Fact p.Prime] {msp : Msp p} (h : msp.Prepared)
    {reps : Finset ReplicaID} (hs : SpansE1 msp.m msp.d msp.M.entry (msp.Owns reps)) :
    ∃ x, msp.getRecombinationVector reps = some x ∧ x.length = (msp.ownedRows reps).length ∧
      msp.Recombines reps x.entry := by
  obtain ⟨-, -, -, x, -, -, -, hx⟩ := h.recombination_turns hs
  exact ⟨x, hx⟩

/-- The recombination vector gives the first entry of the dealing vector from the shares. -/
theorem Msp.Recombines.sum_shares [Fact p.Prime] {msp : Msp p} {reps : Finset ReplicaID}
    {x : ℕ → ZMod p} (h : msp.Recombines reps x) (hd : 0 < msp.d) (v : ℕ → ZMod p) :
    ∑ j ∈ Finset.range (msp.ownedRows reps).length,
      x j * ∑ i ∈ Finset.range msp.d, msp.M.entry ((msp.ownedRows reps).getD j 0) i * v i =
        v 0 := by
  refine sum_shares_eq (A := fun j i => msp.M.entry ((msp.ownedRows reps).getD j 0) i) hd ?_ v
  intro i hi
  rw [← h i hi]
  apply Finset.sum_congr rfl
  intro j _
  exact mul_comm _ _

/-! ## The two ways to decide -/

theorem Msp.e1_of_pos {msp : Msp p} (hd : 0 < msp.d) :
    msp.e1 = some ⟨msp.d, fun j => if j = 0 then 1 else 0⟩ := by
  unfold Msp.e1
  rw [if_pos hd]

/-- The system of the plain path is that of the rows of `M`, as columns, with the first unit
vector. -/
theorem Msp.augmented_rows {msp : Msp p} (reps : Finset ReplicaID) :
    Msp.getAugmentedMatrix (msp.getRowsOfMOwnedByReps reps).transpose
        ⟨msp.d, fun j => if j = 0 then 1 else 0⟩ =
      some ⟨msp.d, (msp.ownedRows reps).length + 1,
        augment (msp.ownedRows reps).length
          (fun i j => msp.M.entry ((msp.ownedRows reps).getD j 0) i)
          fun i => if i = 0 then 1 else 0⟩ := by
  have hrows : (msp.getRowsOfMOwnedByReps reps).transpose.NumRows = msp.d := rfl
  unfold Msp.getAugmentedMatrix
  rw [if_pos hrows]
  rfl

/-- The plain path decides whether the owned rows span the first unit vector. -/
theorem isAuthorizedGroupWithoutPLU_spec [Fact p.Prime] {ntl_gauss : Mat (ZMod p) → ℕ}
    (hgauss : ∀ A, ntl_gauss A = (window A.NumRows A.NumCols A.entry).rank) {msp : Msp p}
    (hd : 0 < msp.d) (reps : Finset ReplicaID) :
    ∃ b, msp.isAuthorizedGroupWithoutPLU ntl_gauss reps = some b ∧
      (b = true ↔ SpansE1 msp.m msp.d msp.M.entry (msp.Owns reps)) := by
  let Ma_T := (msp.getRowsOfMOwnedByReps reps).transpose
  let Ma_T_augm : Mat (ZMod p) := ⟨msp.d, (msp.ownedRows reps).length + 1,
    augment (msp.ownedRows reps).length (fun i j => msp.M.entry ((msp.ownedRows reps).getD j 0) i)
      fun i => if i = 0 then 1 else 0⟩
  refine ⟨decide (ntl_gauss Ma_T = ntl_gauss Ma_T_augm), ?_, ?_⟩
  · unfold Msp.isAuthorizedGroupWithoutPLU
    rw [Msp.e1_of_pos hd, Option.bind_some, Msp.augmented_rows, Option.map_some]
  · rw [decide_eq_true_iff, hgauss, hgauss, Msp.spansE1_iff]
    refine (rank_augment_eq_iff msp.d (msp.ownedRows reps).length _ _).trans ?_
    exact exists_congr fun x => solves_augment

/-- For every matrix with a column and every labelling of its rows, the prepared program decides
as the plain path does. -/
theorem the_prepared_program_decides_as_the_plain_one {p : ℕ} (hp : p.Prime)
    {ntl_gauss : Mat (ZMod p) → ℕ}
    (hgauss : ∀ A, ntl_gauss A = (window A.NumRows A.NumCols A.entry).rank) {msp : Msp p}
    (hd : 0 < msp.d) :
    ∃ msp', performPLU msp = some msp' ∧ ∀ A, ∃ b,
      msp'.isAuthorizedGroupWithPLU A = some b ∧
      msp'.isAuthorizedGroupWithoutPLU ntl_gauss A = some b ∧
      (b = true ↔ ∃ c : ℕ → ZMod p, (∀ i, msp.L.getD i 0 ∉ A → c i = 0) ∧
        ∀ j < msp.d, ∑ i ∈ Finset.range msp.m, c i * msp.M.entry i j =
          if j = 0 then 1 else 0) := by
  have : Fact p.Prime := ⟨hp⟩
  obtain ⟨msp', hplu, hM, hL, hprep⟩ := performPLU_spec hd
  refine ⟨msp', hplu, ?_⟩
  intro A
  obtain ⟨b, hb, hspan⟩ := hprep.isAuthorized A
  obtain ⟨b', hb', hspan'⟩ := isAuthorizedGroupWithoutPLU_spec hgauss hprep.pos A
  have hsame : b' = b := by
    rw [Bool.eq_iff_iff, hspan, hspan']
  refine ⟨b, hb, hsame ▸ hb', hspan.trans ?_⟩
  unfold SpansE1 Msp.m Msp.d Msp.Owns
  rw [hM, hL]

/-- The rank as `gauss` counts it. -/
def countPivots (A : Mat (ZMod 5)) : ℕ := ((gauss A).map fun r => r.2.length).getD 0

/-- Its third row is the sum of the others. -/
def dependentRows : Msp 5 where
  M := ⟨3, 2, fun i j => if i = 2 then 1 else if i = j then 1 else 0⟩
  L := [0, 1, 2]
  U := ⟨0, 0, fun _ _ => 0⟩
  y := ⟨0, fun _ => 0⟩

theorem countPivots_eq_rank [Fact (Nat.Prime 5)] (A : Mat (ZMod 5)) :
    countPivots A = (window A.NumRows A.NumCols A.entry).rank := by
  obtain ⟨B, piv, hg, -⟩ := gauss_spec A
  unfold countPivots
  rw [hg, ← gauss_rank hg]
  rfl

theorem dependent_rows_decide_as_the_plain_path :
    0 < dependentRows.d ∧ (∀ A, countPivots A = (window A.NumRows A.NumCols A.entry).rank) ∧
    ∃ msp', performPLU dependentRows = some msp' ∧ ∀ A, ∃ b,
      msp'.isAuthorizedGroupWithPLU A = some b ∧
      msp'.isAuthorizedGroupWithoutPLU countPivots A = some b ∧
      (b = true ↔ ∃ c : ℕ → ZMod 5, (∀ i, dependentRows.L.getD i 0 ∉ A → c i = 0) ∧
        ∀ j < dependentRows.d, ∑ i ∈ Finset.range dependentRows.m,
          c i * dependentRows.M.entry i j = if j = 0 then 1 else 0) := by
  have : Fact (Nat.Prime 5) := ⟨by decide⟩
  exact ⟨by decide, countPivots_eq_rank,
    the_prepared_program_decides_as_the_plain_one (by decide) countPivots_eq_rank (by decide)⟩

/-! ## The span program of a formula -/

/-- The insertion algorithm gives one row for each leaf, and these rows stand for the formula
at points modulo `p`. -/
theorem createMsp_spec [Fact p.Prime] {t : Theta} (ht : t.AllNodes fun k _ => 1 ≤ k) :
    ∃ msp, createMspWithInsertionAlgorithm p t = some msp ∧ 0 < msp.d ∧
      msp.m = (leaves t).length ∧ msp.L = leaves t ∧
      ∀ A, SpansE1 msp.m msp.d msp.M.entry (msp.Owns A) ↔ evalResidues p t A = true := by
  let st : InsertState p := ⟨⟨1, 1, fun _ _ => 1⟩, [], 0⟩
  obtain ⟨st', h', rep⟩ := insertNextTheta_spec ∅ ht st Nat.one_pos Nat.one_pos
  refine ⟨⟨st'.M, st'.L, ⟨0, 0, fun _ _ => 0⟩, ⟨0, fun _ => 0⟩⟩, ?_, rep.cols, ?_, ?_, ?_⟩
  · unfold createMspWithInsertionAlgorithm
    rw [h']
    rfl
  · have := rep.rows
    simp only [st] at this
    simp only [Msp.m]
    omega
  · simpa [st] using rep.label
  · intro A
    obtain ⟨st'', h'', rep'⟩ := insertNextTheta_spec A ht st Nat.one_pos Nat.one_pos
    rw [h'] at h''
    cases h''
    have hL : st'.L = leaves t := by simpa [st] using rep'.label
    have hown : Owned A st.insertionIndex (leaves t) fun i => st'.L.getD i 0 ∈ A := by
      intro k hk
      simp [st, hL, hk]
    refine (rep'.spans _ hown).trans ?_
    have hone : (block st.insertionIndex 1 (leaves t).length
        (fun _ => evalResidues p t A = true) fun i => st'.L.getD i 0 ∈ A) 0 ↔
        evalResidues p t A = true := block_inside (Nat.le_refl 0) Nat.one_pos
    constructor
    · rintro ⟨c, hc, hsum⟩
      by_contra hno
      have hc0 := hc 0 fun hb => hno (hone.mp hb)
      have := hsum 0 Nat.one_pos
      simp [st, hc0] at this
    · intro he
      refine ⟨fun i => if i = 0 then 1 else 0, ?_, ?_⟩
      · intro i hi
        apply if_neg
        rintro rfl
        exact hi (hone.mpr he)
      · intro j hj
        have hj0 : j = 0 := Nat.lt_one_iff.mp hj
        simp [st, hj0]

/-- `create` never fails on a formula with thresholds of at least one. Its program owns one row
for each leaf and decides the formula at points modulo `p`. -/
theorem create_spec [Fact p.Prime] {t : Theta} (ht : t.AllNodes fun k _ => 1 ≤ k) :
    ∃ msp, create p t = some msp ∧ msp.Prepared ∧ msp.m = (leaves t).length ∧
      msp.L = leaves t ∧
      ∀ A, SpansE1 msp.m msp.d msp.M.entry (msp.Owns A) ↔ evalResidues p t A = true := by
  obtain ⟨msp, hm, hd, hlen, hL, hspan⟩ := createMsp_spec (p := p) ht
  obtain ⟨msp', hp, hM, hL', hprep⟩ := performPLU_spec hd
  refine ⟨msp', ?_, hprep, ?_, hL'.trans hL, ?_⟩
  · rw [create, hm, Option.bind_some, hp]
  · rw [Msp.m, hM]
    exact hlen
  · intro A
    have hown : msp'.Owns A = msp.Owns A := by
      funext i
      simp only [Msp.Owns, hL']
    rw [← hspan A, hown]
    simp only [Msp.m, Msp.d, hM]

/-- What the program accepts, for every formula with thresholds of at least one. -/
theorem isAuthorized_create [Fact p.Prime] {t : Theta} (ht : t.AllNodes fun k _ => 1 ≤ k)
    (A : Finset ReplicaID) :
    (create p t).bind (fun msp => msp.isAuthorizedGroupWithPLU A) = some (evalResidues p t A) := by
  obtain ⟨msp, hc, hprep, -, -, hspan⟩ := create_spec (p := p) ht
  obtain ⟨b, hb, hiff⟩ := hprep.isAuthorized A
  rw [hc, Option.bind_some, hb]
  congr 1
  rw [Bool.eq_iff_iff, hiff, hspan]

/-! ## The formula and its span program -/

/-- With fewer children than `p` in every node, the program accepts a set of replicas exactly
when the formula does. -/
theorem the_span_program_decides_the_formula {p : ℕ} (hp : p.Prime) {t : Theta}
    (ht : t.AllNodes fun k n => 1 ≤ k ∧ n < p) (A : Finset ReplicaID) :
    (create p t).bind (fun msp => msp.isAuthorizedGroupWithPLU A) = some (evalFomula t A) := by
  have : Fact p.Prime := ⟨hp⟩
  rw [isAuthorized_create (ht.mono fun k n h => h.1) A,
    evalResidues_of_lt A (ht.mono fun k n h => h.2)]

/-- Two of replica 0, replica 1 and a group that replica 2 satisfies alone. -/
def twoOfThree : Theta := .mk 2 [0, 1] [.mk 1 [2, 2] []]

theorem twoOfThree_bounded : twoOfThree.AllNodes fun k n => 1 ≤ k ∧ n < 5 := by
  refine .mk (by decide) ?_
  intro t ht
  rw [List.mem_singleton.mp ht]
  exact .mk (by decide) (by simp)

theorem the_span_program_decides_two_of_three :
    (create 5 twoOfThree).bind (fun msp => msp.isAuthorizedGroupWithPLU {0, 2}) =
      some (evalFomula twoOfThree {0, 2}) := by
  exact the_span_program_decides_the_formula (by decide) twoOfThree_bounded {0, 2}

/-! ## Recombination -/

theorem Msp.mem_ownedRows {msp : Msp p} (hL : msp.L.length = msp.m) {reps : Finset ReplicaID}
    {i : ℕ} : i ∈ msp.ownedRows reps ↔ ∃ rid ∈ reps, msp.L[i]? = some rid := by
  unfold Msp.ownedRows
  rw [List.mem_filter, List.mem_range, ← hL, decide_eq_true_iff]
  constructor
  · rintro ⟨hi, hmem⟩
    refine ⟨msp.L.getD i 0, hmem, ?_⟩
    rw [List.getD_eq_getElem _ _ hi, List.getElem?_eq_getElem hi]
  · rintro ⟨rid, hmem, hi⟩
    refine ⟨(List.getElem?_eq_some_iff.mp hi).1, ?_⟩
    rwa [List.getD_eq_getElem?_getD, hi, Option.getD_some]

theorem Msp.ownedRows_increasing (msp : Msp p) (reps : Finset ReplicaID) :
    (msp.ownedRows reps).Pairwise (· < ·) := by
  unfold Msp.ownedRows
  exact List.pairwise_lt_range.filter _

/-- The recombination vector of a set that the formula accepts has one entry for each row that
the set owns, in increasing order, and takes the shares of these rows to the secret. On the way
`L` and `U` are read in their range, and each turn of the backward substitution stays inside of the
matrix and of the vector and inverts an entry that is not zero. -/
theorem the_recombination_vector_gives_the_secret {p : ℕ} (hp : p.Prime) {t : Theta}
    (ht : t.AllNodes fun k n => 1 ≤ k ∧ n < p) {A : Finset ReplicaID}
    (hA : evalFomula t A = true) :
    ∃ msp x, create p t = some msp ∧ msp.getRecombinationVector A = some x ∧
      (msp.L.length = msp.m ∧ msp.U.NumRows = msp.d ∧ msp.U.NumCols = msp.m ∧
        ∀ i ∈ msp.ownedRows A, i < msp.m) ∧
      (∃ Ua_augm B piv,
        Msp.getAugmentedMatrix (msp.getColsOfUOwnedByReps A) msp.y = some Ua_augm ∧
        gauss Ua_augm = some (B, piv) ∧
        ∀ q ∈ piv.zipIdx, q.2 < B.NumRows ∧ q.1 < x.length ∧ B.entry q.2 q.1 ≠ 0) ∧
      x.length = (msp.ownedRows A).length ∧ (msp.ownedRows A).Pairwise (· < ·) ∧
      (∀ i, i ∈ msp.ownedRows A ↔ ∃ rid ∈ A, msp.L[i]? = some rid) ∧
      ∀ v : Vec (ZMod p), v.length = msp.d →
        ∑ j ∈ Finset.range x.length,
          x.entry j * (msp.M.mulVec v).entry ((msp.ownedRows A).getD j 0) = v.entry 0 := by
  have : Fact p.Prime := ⟨hp⟩
  obtain ⟨msp, hc, hprep, hm, hL, hspan⟩ := create_spec (p := p) (ht.mono fun k n h => h.1)
  have hs : SpansE1 msp.m msp.d msp.M.entry (msp.Owns A) := by
    rw [hspan, evalResidues_of_lt A (ht.mono fun k n h => h.2), hA]
  obtain ⟨Ua_augm, B, piv, x, haugm, hg, hturns, hx, hlen, hrec⟩ := hprep.recombination_turns hs
  have howners : msp.L.length = msp.m := by rw [hL, hm]
  refine ⟨msp, x, hc, hx, ⟨howners, hprep.U_rows, hprep.U_cols, Msp.ownedRows_lt⟩,
    ⟨Ua_augm, B, piv, haugm, hg, by rwa [hlen]⟩, hlen, msp.ownedRows_increasing A, ?_, ?_⟩
  · intro i
    exact Msp.mem_ownedRows howners
  · intro v _
    rw [hlen]
    exact hrec.sum_shares hprep.pos v.entry

theorem the_recombination_vector_of_two_of_three :
    ∃ msp x, create 5 twoOfThree = some msp ∧ msp.getRecombinationVector {0, 2} = some x ∧
      (msp.L.length = msp.m ∧ msp.U.NumRows = msp.d ∧ msp.U.NumCols = msp.m ∧
        ∀ i ∈ msp.ownedRows {0, 2}, i < msp.m) ∧
      (∃ Ua_augm B piv,
        Msp.getAugmentedMatrix (msp.getColsOfUOwnedByReps {0, 2}) msp.y = some Ua_augm ∧
        gauss Ua_augm = some (B, piv) ∧
        ∀ q ∈ piv.zipIdx, q.2 < B.NumRows ∧ q.1 < x.length ∧ B.entry q.2 q.1 ≠ 0) ∧
      x.length = (msp.ownedRows {0, 2}).length ∧ (msp.ownedRows {0, 2}).Pairwise (· < ·) ∧
      (∀ i, i ∈ msp.ownedRows {0, 2} ↔ ∃ rid ∈ ({0, 2} : Finset ReplicaID),
        msp.L[i]? = some rid) ∧
      ∀ v : Vec (ZMod 5), v.length = msp.d →
        ∑ j ∈ Finset.range x.length,
          x.entry j * (msp.M.mulVec v).entry ((msp.ownedRows {0, 2}).getD j 0) = v.entry 0 := by
  exact the_recombination_vector_gives_the_secret (by decide) twoOfThree_bounded (by decide)

/-! ## Secrecy -/

/-- The dealing vector with the entries `v`. -/
def drawn {d : ℕ} (v : Fin d → ZMod p) : Vec (ZMod p) :=
  ⟨d, fun j => if h : j < d then v ⟨j, h⟩ else 0⟩

/-- Dealing `w` shares the secret `s`, and gives the replicas of `A` the shares that `v` does. -/
def SameView (msp : Msp p) (A : Finset ReplicaID) (v : Fin msp.d → ZMod p) (s : ZMod p)
    (w : Fin msp.d → ZMod p) : Prop :=
  (msp.shareRandSecret (drawn w)).secret = s ∧
    ∀ i < msp.m, (msp.shareRandSecret (drawn w)).owners.getD i 0 ∈ A →
      (msp.shareRandSecret (drawn w)).shares.entry i =
        (msp.shareRandSecret (drawn v)).shares.entry i

theorem shares_drawn [Fact p.Prime] (msp : Msp p) (v : Fin msp.d → ZMod p) (i : ℕ) :
    (msp.shareRandSecret (drawn v)).shares.entry i = ∑ j : Fin msp.d, msp.M.entry i j * v j := by
  have hd : msp.M.NumCols = msp.d := rfl
  simp only [Msp.shareRandSecret, Mat.mulVec, drawn, hd, Finset.sum_range]
  apply Finset.sum_congr rfl
  intro j _
  rw [dif_pos j.isLt]

theorem sameView_iff [Fact p.Prime] {msp : Msp p} (hd : 0 < msp.d) (A : Finset ReplicaID)
    (v w : Fin msp.d → ZMod p) (s : ZMod p) :
    SameView msp A v s w ↔ Alike msp.m hd msp.M.entry (msp.Owns A) v s w := by
  unfold SameView Alike
  simp only [shares_drawn]
  have hsecret : (msp.shareRandSecret (drawn w)).secret = w ⟨0, hd⟩ := by
    simp [Msp.shareRandSecret, drawn, hd]
  rw [hsecret]
  rfl

/-- The shares of a set that the formula rejects fit every secret, and each equally often. -/
theorem an_unauthorized_set_learns_nothing_of_the_secret {p : ℕ} (hp : p.Prime) {t : Theta}
    (ht : t.AllNodes fun k n => 1 ≤ k ∧ n < p) {A : Finset ReplicaID}
    (hA : evalFomula t A = false) :
    ∃ msp, create p t = some msp ∧ ∀ (v : Fin msp.d → ZMod p) (s : ZMod p),
      (∃ w, SameView msp A v s w) ∧
        ∀ s', Nat.card {w // SameView msp A v s w} = Nat.card {w // SameView msp A v s' w} := by
  have : Fact p.Prime := ⟨hp⟩
  obtain ⟨msp, hc, hprep, -, -, hspan⟩ := create_spec (p := p) (ht.mono fun k n h => h.1)
  have hno : ¬ SpansE1 msp.m msp.d msp.M.entry (msp.Owns A) := by
    rw [hspan, evalResidues_of_lt A (ht.mono fun k n h => h.2), hA]
    simp
  refine ⟨msp, hc, ?_⟩
  intro v s
  simp only [sameView_iff hprep.pos]
  exact ⟨exists_alike hprep.pos hno v s, card_alike_eq hprep.pos hno v s⟩

theorem one_replica_of_two_of_three_learns_nothing :
    ∃ msp, create 5 twoOfThree = some msp ∧ ∀ (v : Fin msp.d → ZMod 5) (s : ZMod 5),
      (∃ w, SameView msp {1} v s w) ∧
        ∀ s', Nat.card {w // SameView msp {1} v s w} = Nat.card {w // SameView msp {1} v s' w} := by
  exact an_unauthorized_set_learns_nothing_of_the_secret (by decide) twoOfThree_bounded
    (by decide)

/-! ## The deployed modulus -/

instance : Fact appModulus.Prime := ⟨by norm_num [appModulus]⟩

/-- At the deployed modulus the program rejects what the formula rejects exactly when the
formula at points modulo 101 does: a child at a position that 101 divides must not carry its
node alone. -/
theorem the_deployed_program_is_sound_iff {t : Theta}
    (ht : t.AllNodes fun k n => 1 ≤ k ∧ k ≤ n) (A : Finset ReplicaID) :
    (evalFomula t A = false →
      (create appModulus t).bind (fun msp => msp.isAuthorizedGroup A) = some false) ↔
    (evalFomula t A = true ∨ evalResidues appModulus t A = false) := by
  have hmsp : (create appModulus t).bind (fun msp => msp.isAuthorizedGroup A) =
      some (evalResidues appModulus t A) := isAuthorized_create (ht.mono fun k n h => h.1) A
  rw [hmsp, Option.some.injEq]
  cases evalFomula t A with
  | false => simp
  | true => simp

/-- With at most 100 children in every node that asks for more than one, the deployed program
is sound. -/
theorem the_deployed_program_is_sound_for_small_nodes {t : Theta}
    (ht : t.AllNodes fun k n => 1 ≤ k ∧ (k = 1 ∨ n < appModulus)) {A : Finset ReplicaID}
    (hA : evalFomula t A = false) :
    (create appModulus t).bind (fun msp => msp.isAuthorizedGroup A) = some false := by
  have hmsp : (create appModulus t).bind (fun msp => msp.isAuthorizedGroup A) =
      some (evalResidues appModulus t A) := isAuthorized_create (ht.mono fun k n h => h.1) A
  rw [hmsp, Option.some.injEq, ← Bool.not_eq_true]
  intro hres
  rw [evalFomula_of_evalResidues (ht.mono fun k n h => h.2) hres] at hA
  cases hA

/-- The shipped `quorums_thres_101.json`. -/
def quorums_thres_101 : Theta := .mk 68 (List.range 101) []

theorem quorums_thres_101_bounded :
    quorums_thres_101.AllNodes fun k n => 1 ≤ k ∧ k ≤ n := .mk (by simp) (by simp)

/-- The last of its 101 replicas passes alone for the 68 that the formula asks for. -/
theorem the_last_of_101_replicas_is_accepted_alone :
    (quorums_thres_101.AllNodes fun k n => 1 ≤ k ∧ k ≤ n) ∧
      evalFomula quorums_thres_101 {100} = false ∧
      (create appModulus quorums_thres_101).bind (fun msp => msp.isAuthorizedGroup {100}) =
        some true := by
  have hmsp : (create appModulus quorums_thres_101).bind
      (fun msp => msp.isAuthorizedGroup {100}) =
      some (evalResidues appModulus quorums_thres_101 {100}) :=
    isAuthorized_create (quorums_thres_101_bounded.mono fun k n h => h.1) {100}
  refine ⟨quorums_thres_101_bounded, by decide +kernel, ?_⟩
  rw [hmsp]
  decide +kernel

theorem the_deployed_program_is_sound_for_67_of_101 :
    (evalFomula quorums_thres_101 (Finset.range 67) = false →
      (create appModulus quorums_thres_101).bind
        (fun msp => msp.isAuthorizedGroup (Finset.range 67)) = some false) ↔
    (evalFomula quorums_thres_101 (Finset.range 67) = true ∨
      evalResidues appModulus quorums_thres_101 (Finset.range 67) = false) :=
  the_deployed_program_is_sound_iff quorums_thres_101_bounded (Finset.range 67)

end general_hotstuff.quorums
