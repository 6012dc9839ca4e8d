-- The shape of the span program that the insertion algorithm builds: one row for
-- each leaf of the formula, in the order of the leaves, and in each row the powers
-- of the leaf's position in every node above it.
import GeneralHotStuff.InsertionLaws

namespace general_hotstuff.quorums

open general_hotstuff.linalg unit_span

/-! ## Paths -/

/-- The children of a node in the order of the rows of its Vandermonde matrix. -/
def Theta.children : Theta → List (ReplicaID ⊕ Theta)
  | .mk _ elements nestedElements => elements.map .inl ++ nestedElements.map .inr

/-- A node on the way to a leaf: the first column past those that were there when the node was
inserted, its threshold, and which of its children the way goes to. -/
structure Step where
  column : ℕ
  threshold : ℤ
  child : ℕ

/-- The column after the last one that the node adds. -/
def Step.stop (s : Step) : ℕ := s.column + (s.threshold - 1).toNat

mutual

/-- How many columns the nodes of a formula add. -/
def width : Theta → ℕ
  | .mk threshold _ nestedElements => (threshold - 1).toNat + widthNested nestedElements

def widthNested : List Theta → ℕ
  | [] => 0
  | t :: rest => width t + widthNested rest

end

mutual

/-- The thresholds of all nodes of a formula. -/
def thresholds : Theta → List ℤ
  | .mk threshold _ nestedElements => threshold :: thresholdsNested nestedElements

def thresholdsNested : List Theta → List ℤ
  | [] => []
  | t :: rest => thresholds t ++ thresholdsNested rest

end

mutual

/-- The ways to the leaves of a formula that is inserted when there are `column` columns. -/
def paths (column : ℕ) : Theta → List (List Step)
  | .mk threshold elements nestedElements =>
    (List.range elements.length).map (fun i => [⟨column, threshold, i⟩]) ++
      pathsNested (Step.mk column threshold) elements.length (column + (threshold - 1).toNat)
        nestedElements

/-- The nested formulas are children from number `child` on. -/
def pathsNested (step : ℕ → Step) (child column : ℕ) : List Theta → List (List Step)
  | [] => []
  | t :: rest =>
    (paths column t).map (step child :: ·) ++
      pathsNested step (child + 1) (column + width t) rest

end

/-- The leaf that a way leads to, through nodes with the thresholds that it names. -/
def leafAt : List Step → Theta → Option ReplicaID
  | [], _ => none
  | s :: path, t =>
    if s.threshold = t.threshold then
      match t.children[s.child]?, path with
      | some (.inl rid), [] => some rid
      | some (.inr nested), path => leafAt path nested
      | _, _ => none
    else none

theorem leafAt_inl {t : Theta} {s : Step} {rid : ReplicaID} (hs : s.threshold = t.threshold)
    (h : t.children[s.child]? = some (.inl rid)) : leafAt [s] t = some rid := by
  simp [leafAt, hs, h]

theorem leafAt_inr {t nested : Theta} {s : Step} (path : List Step)
    (hs : s.threshold = t.threshold) (h : t.children[s.child]? = some (.inr nested)) :
    leafAt (s :: path) t = leafAt path nested := by
  cases path with
  | nil => simp [leafAt, hs, h]
  | cons s' path => simp [leafAt, hs, h]

theorem widthNested_eq_sum {ts : List Theta}
    (h : ∀ t ∈ ts, (width t : ℤ) = ((thresholds t).map (· - 1)).sum) :
    (widthNested ts : ℤ) = ((thresholdsNested ts).map (· - 1)).sum := by
  induction ts with
  | nil => rfl
  | cons t ts ih =>
    rw [widthNested, thresholdsNested, List.map_append, List.sum_append,
      ← h t List.mem_cons_self, ← ih fun s hs => h s (List.mem_cons_of_mem _ hs)]
    push_cast
    rfl

/-- The nodes of a formula add one column less than their thresholds. -/
theorem width_eq_sum {t : Theta} (ht : t.AllNodes fun k _ => 1 ≤ k) :
    (width t : ℤ) = ((thresholds t).map (· - 1)).sum := by
  induction ht with
  | @mk k es ts hk _ ih =>
    rw [width, thresholds, List.map_cons, List.sum_cons, ← widthNested_eq_sum ih]
    push_cast
    omega

/-- `ways` leads to the leaves `rids` of `t`, one after the other. -/
def LeadTo (t : Theta) (ways : List (List Step)) (rids : List ReplicaID) : Prop :=
  List.Forall₂ (fun path rid => leafAt path t = some rid) ways rids

theorem pathsNested_lead {t : Theta} {step : ℕ → Step} (hchild : ∀ i, (step i).child = i)
    (hthreshold : ∀ i, (step i).threshold = t.threshold) {ts : List Theta}
    (h : ∀ s ∈ ts, ∀ column, LeadTo s (paths column s) (leaves s)) (child column : ℕ)
    (hts : ∀ i (hi : i < ts.length), t.children[child + i]? = some (.inr ts[i])) :
    LeadTo t (pathsNested step child column ts) (leavesNested ts) := by
  induction ts generalizing child column with
  | nil => exact .nil
  | cons s ts ih =>
    have hs : t.children[(step child).child]? = some (.inr s) := by
      rw [hchild]
      exact hts 0 (Nat.succ_pos _)
    rw [pathsNested, leavesNested]
    apply List.rel_append
    · rw [List.forall₂_map_left_iff]
      refine (h s List.mem_cons_self column).imp ?_
      intro path rid hpath
      rw [leafAt_inr path (hthreshold child) hs, hpath]
    · apply ih fun s' hs' => h s' (List.mem_cons_of_mem _ hs')
      intro i hi
      rw [Nat.add_assoc, Nat.add_comm 1]
      exact hts (i + 1) (Nat.succ_lt_succ hi)

/-- The ways lead to the leaves, in their order. -/
theorem paths_lead {t : Theta} {P : ℤ → ℕ → Prop} (ht : t.AllNodes P) (column : ℕ) :
    LeadTo t (paths column t) (leaves t) := by
  induction ht generalizing column with
  | @mk k es ts _ _ ih =>
    rw [paths, leaves]
    apply List.rel_append
    · rw [List.forall₂_iff_get]
      refine ⟨by simp, ?_⟩
      intro i hi hi'
      have hchild : (Theta.mk k es ts).children[i]? = some (.inl es[i]) := by
        rw [Theta.children, List.getElem?_append_left (by simpa using hi')]
        simp
      simpa using leafAt_inl (s := ⟨column, k, i⟩) rfl hchild
    · apply pathsNested_lead (fun _ => rfl) (fun _ => rfl) ih
      intro i hi
      rw [Theta.children, List.getElem?_append_right (by simp)]
      simp [hi]

/-! ## Blocks of columns -/

/-- The blocks of the nodes on a way stand from left to right, between `lo` and `hi`. -/
def Ordered (lo hi : ℕ) (path : List Step) : Prop :=
  path.Pairwise (fun s s' => s.stop ≤ s'.column) ∧ ∀ s ∈ path, lo ≤ s.column ∧ s.stop ≤ hi

theorem Ordered.mono {lo lo' hi hi' : ℕ} {path : List Step} (h : Ordered lo hi path)
    (hlo : lo' ≤ lo) (hhi : hi ≤ hi') : Ordered lo' hi' path :=
  ⟨h.1, fun s hs => ⟨hlo.trans (h.2 s hs).1, (h.2 s hs).2.trans hhi⟩⟩

theorem Ordered.cons {s : Step} {hi : ℕ} {path : List Step} (h : Ordered s.stop hi path)
    (hs : s.stop ≤ hi) : Ordered s.column hi (s :: path) := by
  refine ⟨List.pairwise_cons.mpr ⟨fun s' hs' => (h.2 s' hs').1, h.1⟩, ?_⟩
  intro s' hs'
  rcases List.mem_cons.mp hs' with rfl | hs'
  · exact ⟨Nat.le_refl _, hs⟩
  · exact ⟨(Nat.le_add_right _ _).trans (h.2 s' hs').1, (h.2 s' hs').2⟩

theorem pathsNested_ordered {step : ℕ → Step} {c stop : ℕ} (hc : ∀ i, (step i).column = c)
    (hstop : ∀ i, (step i).stop = stop) {ts : List Theta}
    (h : ∀ t ∈ ts, ∀ column, ∀ path ∈ paths column t, Ordered column (column + width t) path)
    (child column : ℕ) (hcol : stop ≤ column) :
    ∀ path ∈ pathsNested step child column ts, Ordered c (column + widthNested ts) path := by
  induction ts generalizing child column with
  | nil => simp [pathsNested]
  | cons t ts ih =>
    intro path hpath
    rw [widthNested]
    rw [pathsNested, List.mem_append, List.mem_map] at hpath
    rcases hpath with ⟨path, hp, rfl⟩ | hpath
    · rw [← hc child]
      have hrest : Ordered (step child).stop (column + (width t + widthNested ts)) path := by
        apply (h t List.mem_cons_self column path hp).mono _ (by omega)
        rw [hstop]
        exact hcol
      exact hrest.cons (by rw [hstop]; omega)
    · rw [← Nat.add_assoc]
      exact ih (fun s hs => h s (List.mem_cons_of_mem _ hs)) _ _ (by omega) path hpath

/-- On a way each node's block comes after those of the nodes above it. -/
theorem paths_ordered {t : Theta} {P : ℤ → ℕ → Prop} (ht : t.AllNodes P) (column : ℕ) :
    ∀ path ∈ paths column t, Ordered column (column + width t) path := by
  induction ht generalizing column with
  | @mk k es ts _ _ ih =>
    intro path hpath
    rw [paths, List.mem_append, List.mem_map] at hpath
    rw [width, ← Nat.add_assoc]
    rcases hpath with ⟨i, -, rfl⟩ | hpath
    · refine Ordered.cons (s := ⟨column, k, i⟩) ⟨.nil, by simp⟩ ?_
      exact Nat.le_add_right _ _
    · have hcolumn : ∀ i, (Step.mk column k i).column = column := fun _ => rfl
      have hstop : ∀ i, (Step.mk column k i).stop = column + (k - 1).toNat := fun _ => rfl
      exact pathsNested_ordered hcolumn hstop ih _ _ (Nat.le_refl _) path hpath

/-! ## The row of a leaf -/

section

variable {p : ℕ}

/-- A row after the insertion of the node: past its first columns it has the powers of the
child's point. -/
def Step.write (s : Step) (row : ℕ → ZMod p) : ℕ → ZMod p := fun j =>
  if s.column ≤ j ∧ j < s.stop then ((s.child + 1 : ℕ) : ZMod p) ^ (j - s.column + 1) else row j

/-- A row after the insertion of all nodes on a way. -/
def extend (row : ℕ → ZMod p) (path : List Step) : ℕ → ZMod p :=
  path.foldl (fun row s => s.write row) row

theorem extend_of_outside {path : List Step} {j : ℕ}
    (h : ∀ s ∈ path, j < s.column ∨ s.stop ≤ j) (row : ℕ → ZMod p) :
    extend row path j = row j := by
  induction path generalizing row with
  | nil => rfl
  | cons s path ih =>
    have hs := h s List.mem_cons_self
    have := ih (fun s' hs' => h s' (List.mem_cons_of_mem _ hs')) (s.write row)
    unfold extend at this ⊢
    rw [List.foldl_cons, this, Step.write, if_neg (by omega)]

/-- The nodes further down leave the block of a node alone. -/
theorem extend_of_inside {lo hi : ℕ} {path : List Step} (h : Ordered lo hi path) {s : Step}
    (hs : s ∈ path) {j : ℕ} (hj : s.column ≤ j) (hstop : j < s.stop) (row : ℕ → ZMod p) :
    extend row path j = ((s.child + 1 : ℕ) : ZMod p) ^ (j - s.column + 1) := by
  obtain ⟨hpair, hin⟩ := h
  induction path generalizing row with
  | nil => cases hs
  | cons s' path ih =>
    obtain ⟨hlater, hpair⟩ := List.pairwise_cons.mp hpair
    rcases List.mem_cons.mp hs with rfl | hs
    · have hout : extend (s.write row) path j = s.write row j :=
        extend_of_outside (fun s' hs' => Or.inl (by have := hlater s' hs'; omega)) _
      rw [extend, List.foldl_cons, ← extend, hout, Step.write, if_pos ⟨hj, hstop⟩]
    · rw [extend, List.foldl_cons, ← extend]
      exact ih hs _ hpair fun s hs => hin s (List.mem_cons_of_mem _ hs)

/-- What the row of a leaf is: one in the first column, in the block of each node on the way the
powers of the position there, and zero anywhere else. -/
structure Carries (path : List Step) (cols : ℕ) (row : ℕ → ZMod p) : Prop where
  first : row 0 = 1
  block : ∀ s ∈ path, 1 ≤ s.column ∧ s.stop ≤ cols ∧
    ∀ j, s.column ≤ j → j < s.stop → row j = ((s.child + 1 : ℕ) : ZMod p) ^ (j - s.column + 1)
  other : ∀ j < cols, 0 < j → (∀ s ∈ path, j < s.column ∨ s.stop ≤ j) → row j = 0

/-- The one row that the algorithm starts with. -/
def firstRow : ℕ → ZMod p := fun j => if j < 1 then 1 else 0

theorem carries_extend {cols : ℕ} {path : List Step} (h : Ordered 1 cols path) :
    Carries path cols (extend (firstRow : ℕ → ZMod p) path) where
  first := by
    rw [extend_of_outside fun s hs => Or.inl (h.2 s hs).1]
    rfl
  block s hs := ⟨(h.2 s hs).1, (h.2 s hs).2, fun j hj hstop => extend_of_inside h hs hj hstop _⟩
  other j _ hj hout := by
    rw [extend_of_outside hout, firstRow, if_neg (by omega)]

theorem Carries.congr {path : List Step} {cols : ℕ} {row row' : ℕ → ZMod p}
    (h : Carries path cols row) (hcols : 0 < cols) (hrow : ∀ j < cols, row' j = row j) :
    Carries path cols row' where
  first := by rw [hrow 0 hcols, h.first]
  block s hs := by
    obtain ⟨hcol, hstop, hpow⟩ := h.block s hs
    refine ⟨hcol, hstop, ?_⟩
    intro j hj hjs
    rw [hrow j (hjs.trans_le hstop), hpow j hj hjs]
  other j hj hpos hout := by rw [hrow j hj, h.other j hj hpos hout]

end

/-! ## The calls of performInsertion -/

/-- The arguments of a call of `performInsertion`. -/
structure Insertion (p : ℕ) where
  M1 : Mat (ZMod p)
  M2 : Mat (ZMod p)
  r : ℕ

namespace Insertion

variable {p : ℕ}

/-- The rows and columns of the result. -/
def dims (c : Insertion p) : ℕ × ℕ :=
  (c.M1.NumRows + c.M2.NumRows - 1, c.M1.NumCols + c.M2.NumCols - 1)

/-- The entries that the loops read, of `M1` or `M2`, each with the entry of the result that it
is copied to. -/
def copies (c : Insertion p) : List ((Mat (ZMod p) × ℕ × ℕ) × ℕ × ℕ) :=
  let m1 := c.M1.NumRows
  let d1 := c.M1.NumCols
  let m2 := c.M2.NumRows
  let d2 := c.M2.NumCols
  ((List.range c.r).flatMap fun i => (List.range d1).map fun j => ((c.M1, i, j), i, j)) ++
  ((List.range' c.r m2).flatMap fun i =>
    ((List.range d1).map fun j => ((c.M1, c.r, j), i, j)) ++
      (List.range' d1 (d2 - 1)).map fun j => ((c.M2, i - c.r, j - d1 + 1), i, j)) ++
  (List.range' (c.r + m2) (m1 + m2 - 1 - (c.r + m2))).flatMap fun i =>
    (List.range d1).map fun j => ((c.M1, i - m2 + 1, j), i, j)

/-- The row index is one of the current matrix, and every entry that the call reads or writes is
there. -/
structure InRange (c : Insertion p) : Prop where
  row : c.r < c.M1.NumRows
  reads : ∀ a ∈ c.copies, a.1.2.1 < a.1.1.NumRows ∧ a.1.2.2 < a.1.1.NumCols
  writes : ∀ a ∈ c.copies, a.2.1 < c.dims.1 ∧ a.2.2 < c.dims.2

theorem mem_copies {c : Insertion p} {a : (Mat (ZMod p) × ℕ × ℕ) × ℕ × ℕ} (h : a ∈ c.copies)
    (hr : c.r < c.M1.NumRows) (hd : 1 ≤ c.M2.NumCols) :
    (a.1.2.1 < a.1.1.NumRows ∧ a.1.2.2 < a.1.1.NumCols) ∧ a.2.1 < c.dims.1 ∧ a.2.2 < c.dims.2 := by
  unfold copies at h
  unfold dims
  simp only [List.mem_append, List.mem_flatMap, List.mem_map, List.mem_range,
    List.mem_range'_1] at h
  rcases h with (⟨i, hi, j, hj, rfl⟩ | ⟨i, hi, ⟨j, hj, rfl⟩ | ⟨j, hj, rfl⟩⟩) | ⟨i, hi, j, hj, rfl⟩
  · simp only
    omega
  · simp only
    omega
  · simp only
    omega
  · simp only
    omega

theorem inRange {c : Insertion p} (hr : c.r < c.M1.NumRows) (hd : 1 ≤ c.M2.NumCols) :
    c.InRange :=
  ⟨hr, fun _ ha => (mem_copies ha hr hd).1, fun _ ha => (mem_copies ha hr hd).2⟩

end Insertion

mutual

/-- The calls of `performInsertion` that `insertNextTheta` makes, in their order. -/
def insertions {p : ℕ} (st : InsertState p) : Theta → List (Insertion p)
  | .mk threshold elements nestedElements =>
    match getVandermonde p threshold (elements.length + nestedElements.length) with
    | none => []
    | some M2 =>
      ⟨st.M, M2, st.insertionIndex⟩ ::
        match performInsertion st.M M2 st.insertionIndex with
        | none => []
        | some M =>
          insertionsNested ⟨M, st.L ++ elements, st.insertionIndex + elements.length⟩
            nestedElements

def insertionsNested {p : ℕ} (st : InsertState p) : List Theta → List (Insertion p)
  | [] => []
  | t :: rest =>
    insertions st t ++
      match insertNextTheta st t with
      | none => []
      | some st => insertionsNested st rest

end

/-! ## Rows -/

variable {p : ℕ}

/-- The rows of a matrix, with zero past its columns. -/
def rowList (M : Mat (ZMod p)) : List (ℕ → ZMod p) :=
  (List.range M.NumRows).map fun i j => if j < M.NumCols then M.entry i j else 0

theorem rowList_length (M : Mat (ZMod p)) : (rowList M).length = M.NumRows := by
  simp [rowList]

theorem rowList_getElem? {M : Mat (ZMod p)} {i : ℕ} (hi : i < M.NumRows) :
    (rowList M)[i]? = some fun j => if j < M.NumCols then M.entry i j else 0 := by
  unfold rowList
  rw [List.getElem?_map, List.getElem?_range hi]
  rfl

/-- A matrix in the parts before, at and after row `r`. -/
theorem rowList_split {M : Mat (ZMod p)} {r : ℕ} {pre post : List (ℕ → ZMod p)}
    {row : ℕ → ZMod p} (h : rowList M = pre ++ row :: post) (hr : pre.length = r) :
    ∃ q, M.NumRows = r + 1 + q ∧
      pre = (List.range r).map (fun i j => if j < M.NumCols then M.entry i j else 0) ∧
      row = (fun j => if j < M.NumCols then M.entry r j else 0) ∧
      post = (List.range q).map fun i j => if j < M.NumCols then M.entry (r + 1 + i) j else 0 := by
  have hlen : M.NumRows = r + 1 + post.length := by
    rw [← rowList_length M, h, List.length_append, List.length_cons, hr]
    omega
  unfold rowList at h
  rw [hlen, List.range_add, List.range_succ, List.map_append, List.map_append, List.append_assoc,
    List.map_map] at h
  obtain ⟨hpre, hrest⟩ := List.append_inj h (by simp [hr])
  obtain ⟨hrow, hpost⟩ := List.cons.inj hrest
  exact ⟨post.length, hlen, hpre.symm, hrow.symm, hpost.symm⟩

/-- The rows of the result: row `r` is gone, and the rows of the node stand in its place. -/
theorem performInsertion_rows {M1 : Mat (ZMod p)} {r : ℕ} {pre post : List (ℕ → ZMod p)}
    {row : ℕ → ZMod p} (hrows : rowList M1 = pre ++ row :: post) (hr : pre.length = r) {k : ℤ}
    (hk : 1 ≤ k) (n : ℕ) :
    ∃ M2 M, getVandermonde p k n = some M2 ∧ performInsertion M1 M2 r = some M ∧
      Insertion.InRange ⟨M1, M2, r⟩ ∧ M.NumCols = M1.NumCols + (k - 1).toNat ∧
      rowList M = pre ++ (List.range n).map (fun i => (Step.mk M1.NumCols k i).write row) ++
        post := by
  obtain ⟨q, hlen, rfl, rfl, rfl⟩ := rowList_split hrows hr
  have hlt : r < M1.NumRows := by omega
  have hk0 : 0 < k.toNat := by omega
  have hcols : M1.NumCols + k.toNat - 1 = M1.NumCols + (k - 1).toNat := by omega
  refine ⟨_, _, getVandermonde_eq hk n, performInsertion_eq _ hlt hk0,
    Insertion.inRange hlt hk0, hcols, ?_⟩
  unfold rowList
  simp only
  rw [hcols, show M1.NumRows + n - 1 = r + n + q by omega, List.range_add, List.range_add,
    List.map_append, List.map_append, List.map_map, List.map_map]
  congr 1
  · congr 1
    · apply List.map_congr_left
      intro i hi
      have hir := List.mem_range.mp hi
      funext j
      simp only [insertRows, hir, if_true]
      split_ifs <;> first | rfl | omega
    · apply List.map_congr_left
      intro i hi
      have hin := List.mem_range.mp hi
      funext j
      simp only [insertRows, Function.comp_apply, Step.write, Step.stop,
        show ¬ r + i < r by omega, show r + i < r + n by omega, if_true, if_false,
        Nat.add_sub_cancel_left]
      rcases Nat.lt_or_ge j M1.NumCols with hj | hj
      · simp only [hj, show j < M1.NumCols + (k - 1).toNat by omega, if_true,
          show ¬ M1.NumCols ≤ j by omega, false_and, if_false]
      · by_cases hstop : j < M1.NumCols + (k - 1).toNat
        · simp only [hj, hstop, show ¬ j < M1.NumCols by omega, and_self, if_true, if_false]
        · simp only [hstop, show ¬ j < M1.NumCols by omega, and_false, if_false]
  · apply List.map_congr_left
    intro i _
    funext j
    simp only [insertRows, Function.comp_apply, show ¬ r + n + i < r by omega,
      show ¬ r + n + i < r + n by omega, if_false, show r + n + i - n + 1 = r + 1 + i by omega]
    split_ifs <;> first | rfl | omega

/-- How `st'` comes from `st`: between the rows `pre` and `post` stand the rows `inserted`, one
for each of `labels`, and there are `cols` more columns. -/
structure Expands (pre post inserted : List (ℕ → ZMod p)) (cols : ℕ) (labels : List ReplicaID)
    (st st' : InsertState p) : Prop where
  rows : rowList st'.M = pre ++ inserted ++ post
  count : inserted.length = labels.length
  cols : st'.M.NumCols = st.M.NumCols + cols
  label : st'.L = st.L ++ labels
  index : st'.insertionIndex = st.insertionIndex + labels.length

/-- What the recursion does for one formula at the row `row`, with no call out of range. -/
def InsertsRows (p : ℕ) (t : Theta) : Prop :=
  ∀ (st : InsertState p) (pre post : List (ℕ → ZMod p)) (row : ℕ → ZMod p),
    rowList st.M = pre ++ row :: post → pre.length = st.insertionIndex →
    (∀ c ∈ insertions st t, c.InRange) ∧ ∃ st', insertNextTheta st t = some st' ∧
      Expands pre post ((paths st.M.NumCols t).map (extend row)) (width t) (leaves t) st st'

/-- The rows that wait for the nested formulas are replaced one after the other. -/
theorem insertNested_rows {step : ℕ → Step} {row : ℕ → ZMod p} {ts : List Theta}
    (h : ∀ t ∈ ts, InsertsRows p t) (st : InsertState p) (pre post : List (ℕ → ZMod p))
    (child : ℕ) (hrows : rowList st.M =
      pre ++ (List.range' child ts.length).map (fun i => (step i).write row) ++ post)
    (hpre : pre.length = st.insertionIndex) :
    (∀ c ∈ insertionsNested st ts, c.InRange) ∧ ∃ st', insertNested st ts = some st' ∧
      Expands pre post ((pathsNested step child st.M.NumCols ts).map (extend row))
        (widthNested ts) (leavesNested ts) st st' := by
  induction ts generalizing st pre child with
  | nil =>
    refine ⟨by simp [insertionsNested], st, rfl, hrows, rfl, rfl, ?_, rfl⟩
    simp [leavesNested]
  | cons t ts ih =>
    rw [List.length_cons, List.range'_succ, List.map_cons, List.append_assoc,
      List.cons_append] at hrows
    obtain ⟨hcalls1, st1, h1, exp1⟩ := h t List.mem_cons_self st pre _ _ hrows hpre
    have hpre1 : (pre ++ (paths st.M.NumCols t).map (extend ((step child).write row))).length =
        st1.insertionIndex := by
      rw [List.length_append, exp1.count, hpre, exp1.index]
    obtain ⟨hcalls2, st2, h2, exp2⟩ := ih (fun s hs => h s (List.mem_cons_of_mem _ hs)) st1 _
      (child + 1) (by rw [exp1.rows, ← List.append_assoc]) hpre1
    have hnew : (pathsNested step child st.M.NumCols (t :: ts)).map (extend row) =
        (paths st.M.NumCols t).map (extend ((step child).write row)) ++
          (pathsNested step (child + 1) st1.M.NumCols ts).map (extend row) := by
      rw [pathsNested, List.map_append, List.map_map, exp1.cols]
      rfl
    refine ⟨?_, st2, ?_, ?_, ?_, ?_, ?_, ?_⟩
    · intro c hc
      rw [insertionsNested, h1, List.mem_append] at hc
      exact hc.elim (hcalls1 c) (hcalls2 c)
    · rw [insertNested, h1, Option.bind_some, h2]
    · rw [exp2.rows, hnew, List.append_assoc pre]
    · rw [hnew, leavesNested, List.length_append, List.length_append, exp1.count, exp2.count]
    · rw [exp2.cols, exp1.cols, widthNested, Nat.add_assoc]
    · rw [exp2.label, exp1.label, leavesNested, List.append_assoc]
    · rw [exp2.index, exp1.index, leavesNested, List.length_append, Nat.add_assoc]

/-- The insertion of a formula replaces one row by the rows of its leaves. -/
theorem insertNextTheta_rows {t : Theta} (ht : t.AllNodes fun k _ => 1 ≤ k) :
    InsertsRows p t := by
  induction ht with
  | @mk k es ts hk _ ih =>
    intro st pre post row hrows hpre
    obtain ⟨M2, M, hM2, hM, hrange, hcols, hrows1⟩ :=
      performInsertion_rows hrows hpre hk (es.length + ts.length)
    let write : ℕ → ℕ → ZMod p := fun i => (Step.mk st.M.NumCols k i).write row
    have hrows2 : rowList M = pre ++ (List.range es.length).map write ++
        (List.range' es.length ts.length).map write ++ post := by
      rw [hrows1, List.range_add, List.map_append, ← List.append_assoc, List.range'_eq_map_range]
    obtain ⟨hcalls, st2, h2, exp⟩ := insertNested_rows ih
      ⟨M, st.L ++ es, st.insertionIndex + es.length⟩ _ post es.length hrows2
      (by simp [hpre])
    have hnew : (paths st.M.NumCols (.mk k es ts)).map (extend row) =
        (List.range es.length).map write ++
          (pathsNested (Step.mk st.M.NumCols k) es.length M.NumCols ts).map (extend row) := by
      rw [paths, List.map_append, List.map_map, hcols]
      rfl
    refine ⟨?_, st2, ?_, ?_, ?_, ?_, ?_, ?_⟩
    · intro c hc
      rw [insertions, hM2] at hc
      simp only [hM] at hc
      rcases List.mem_cons.mp hc with rfl | hc
      · exact hrange
      · exact hcalls c hc
    · rw [insertNextTheta, hM2, Option.bind_some, hM, Option.bind_some, h2]
    · rw [exp.rows, hnew, List.append_assoc pre]
    · rw [hnew, leaves, List.length_append, List.length_append, exp.count, List.length_map,
        List.length_range]
    · rw [exp.cols, hcols, width, Nat.add_assoc]
    · rw [exp.label, leaves, List.append_assoc]
    · rw [exp.index, leaves, List.length_append, Nat.add_assoc]

/-- For every formula with thresholds of at least one no call of `performInsertion` leaves its
range. The matrix has one row for each leaf, and one column more than the nodes ask for in
addition to one. `L` lists the leaves, and row `i` carries the positions on the way to the
leaf `i`. -/
theorem the_rows_are_those_of_the_leaves (p : ℕ) {t : Theta}
    (ht : t.AllNodes fun k _ => 1 ≤ k) :
    (∀ c ∈ insertions ⟨⟨1, 1, fun _ _ => (1 : ZMod p)⟩, [], 0⟩ t, c.InRange) ∧
    ∃ msp, createMspWithInsertionAlgorithm p t = some msp ∧
      msp.m = (leaves t).length ∧ (msp.d : ℤ) = 1 + ((thresholds t).map (· - 1)).sum ∧
      msp.L = leaves t ∧ msp.L.length = msp.m ∧ (paths 1 t).length = msp.m ∧
      ∀ i < msp.m, ∃ path, (paths 1 t)[i]? = some path ∧ leafAt path t = msp.L[i]? ∧
        Carries path msp.d (msp.M.entry i) := by
  let start : InsertState p := ⟨⟨1, 1, fun _ _ => 1⟩, [], 0⟩
  have hstart : rowList start.M = [] ++ firstRow :: [] := rfl
  obtain ⟨hcalls, st, hst, exp⟩ := insertNextTheta_rows ht start [] [] firstRow hstart rfl
  have hlead := paths_lead ht 1
  have hcount : (paths 1 t).length = (leaves t).length := hlead.length_eq
  have hrows : rowList st.M = (paths 1 t).map (extend firstRow) := by
    simpa [start] using exp.rows
  have hm : st.M.NumRows = (leaves t).length := by
    rw [← rowList_length st.M, hrows, List.length_map, hcount]
  have hd : st.M.NumCols = 1 + width t := exp.cols
  have hL : st.L = leaves t := by simpa [start] using exp.label
  refine ⟨hcalls, ⟨st.M, st.L, ⟨0, 0, fun _ _ => 0⟩, ⟨0, fun _ => 0⟩⟩, ?_, hm, ?_, hL, ?_, ?_, ?_⟩
  · unfold createMspWithInsertionAlgorithm
    rw [hst]
    rfl
  · rw [← width_eq_sum ht]
    exact_mod_cast hd
  · exact (congrArg List.length hL).trans hm.symm
  · exact hcount.trans hm.symm
  · intro i hi
    have hi' : i < (paths 1 t).length := by
      rw [hcount, ← hm]
      exact hi
    refine ⟨(paths 1 t)[i], List.getElem?_eq_getElem hi', ?_, ?_⟩
    · have hleaf : i < (leaves t).length := hcount ▸ hi'
      simp only [hL]
      rw [List.getElem?_eq_getElem hleaf]
      exact hlead.get hi' hleaf
    · have hord := paths_ordered ht 1 _ (List.getElem_mem hi')
      rw [← hd] at hord
      have hrow : (fun j => if j < st.M.NumCols then st.M.entry i j else 0) =
          extend firstRow (paths 1 t)[i] := by
        apply Option.some.inj
        rw [← rowList_getElem? hi, hrows, List.getElem?_map, List.getElem?_eq_getElem hi']
        rfl
      refine (carries_extend hord).congr (hd ▸ Nat.add_pos_left Nat.one_pos _) ?_
      intro j hj
      rw [← hrow]
      exact (if_pos hj).symm

/-- Two of three groups, the last of which has a group of its own. -/
def InsertionExample1 : Theta :=
  .mk 2 [] [.mk 2 [1, 2, 3] [], .mk 2 [4, 5, 6] [], .mk 2 [7, 8] [.mk 3 [9, 10, 11, 12] []]]

theorem insertionExample1_thresholds : InsertionExample1.AllNodes fun k _ => 1 ≤ k := by
  refine .mk (by decide) ?_
  simp only [List.forall_mem_cons, List.not_mem_nil, false_implies, implies_true, and_true]
  refine ⟨.mk (by decide) (by simp), .mk (by decide) (by simp), .mk (by decide) ?_⟩
  simp only [List.forall_mem_cons, List.not_mem_nil, false_implies, implies_true, and_true]
  exact .mk (by decide) (by simp)

theorem the_rows_of_InsertionExample1 :
    (∀ c ∈ insertions ⟨⟨1, 1, fun _ _ => (1 : ZMod 101)⟩, [], 0⟩ InsertionExample1, c.InRange) ∧
    ∃ msp, createMspWithInsertionAlgorithm 101 InsertionExample1 = some msp ∧
      msp.m = 12 ∧ (msp.d : ℤ) = 1 + ((thresholds InsertionExample1).map (· - 1)).sum ∧
      msp.L = leaves InsertionExample1 ∧ msp.L.length = msp.m ∧
      (paths 1 InsertionExample1).length = msp.m ∧
      ∀ i < msp.m, ∃ path, (paths 1 InsertionExample1)[i]? = some path ∧
        leafAt path InsertionExample1 = msp.L[i]? ∧ Carries path msp.d (msp.M.entry i) :=
  the_rows_are_those_of_the_leaves 101 insertionExample1_thresholds

/-- The matrix of `test_quorums.cpp`. -/
example : (createMspWithInsertionAlgorithm 101 InsertionExample1).map (fun msp =>
    ((List.range 12).map fun i => (List.range 7).map (msp.M.entry i), msp.d)) = some (
    [[1, 1, 1, 0, 0, 0, 0], [1, 1, 2, 0, 0, 0, 0], [1, 1, 3, 0, 0, 0, 0],
      [1, 2, 0, 1, 0, 0, 0], [1, 2, 0, 2, 0, 0, 0], [1, 2, 0, 3, 0, 0, 0],
      [1, 3, 0, 0, 1, 0, 0], [1, 3, 0, 0, 2, 0, 0], [1, 3, 0, 0, 3, 1, 1],
      [1, 3, 0, 0, 3, 2, 4], [1, 3, 0, 0, 3, 3, 9], [1, 3, 0, 0, 3, 4, 16]], 7) := by
  decide +kernel

end general_hotstuff.quorums
