-- What two quorums of a formula have in common, and what is in the way of all quorums:
-- both are formulas of their own, with the same replicas and other thresholds.
import GeneralHotStuff.MspRows
import GeneralHotStuff.QuorumSystems

namespace general_hotstuff.quorums

open quorum_systems

/-! ## Formulas with other thresholds -/

mutual

/-- The formula whose nodes have the threshold `f` of their threshold and number of children. -/
def Theta.reselect (f : ℤ → ℕ → ℤ) : Theta → Theta
  | .mk threshold elements nestedElements =>
    .mk (f threshold (elements.length + nestedElements.length)) elements
      (reselectNested f nestedElements)

def reselectNested (f : ℤ → ℕ → ℤ) : List Theta → List Theta
  | [] => []
  | t :: rest => t.reselect f :: reselectNested f rest

end

namespace Theta

/-- What any two quorums have in common. -/
def overlap : Theta → Theta := reselect fun threshold n => 2 * threshold - n

/-- What leaves no quorum among the other replicas. -/
def blocking : Theta → Theta := reselect fun threshold n => n - threshold + 1

theorem induction {P : Theta → Prop} (h : ∀ k es ts, (∀ t ∈ ts, P t) → P (.mk k es ts)) :
    ∀ t, P t
  | .mk k es ts => h k es ts fun t _ => induction h t

end Theta

theorem reselectNested_eq (f : ℤ → ℕ → ℤ) (ts : List Theta) :
    reselectNested f ts = ts.map (Theta.reselect f) := by
  induction ts with
  | nil => rfl
  | cons t ts ih => rw [reselectNested, ih, List.map_cons]

theorem leavesNested_eq (ts : List Theta) : leavesNested ts = ts.flatMap leaves := by
  induction ts with
  | nil => rfl
  | cons t ts ih => rw [leavesNested, ih, List.flatMap_cons]

/-! ## The children of a node -/

/-- Whether a child is satisfied. -/
def childEval (A : Finset ReplicaID) : ReplicaID ⊕ Theta → Bool
  | .inl rid => decide (rid ∈ A)
  | .inr t => evalFomula t A

/-- The replicas below a child. -/
def childLeaves : ReplicaID ⊕ Theta → List ReplicaID
  | .inl rid => [rid]
  | .inr t => leaves t

namespace Theta

/-- Child number `i` is there and satisfied. -/
def ChildSat (t : Theta) (i : ℕ) (A : Finset ReplicaID) : Prop :=
  (t.children.map (childEval A)).getD i false = true

/-- The replicas below child number `i`. -/
def childSupport (t : Theta) (i : ℕ) : Finset ReplicaID :=
  ((t.children.map childLeaves).getD i []).toFinset

theorem childSat_iff {t : Theta} {i : ℕ} (hi : i < t.children.length) {A : Finset ReplicaID} :
    t.ChildSat i A ↔ childEval A t.children[i] = true := by
  simp [ChildSat, hi]

theorem childSupport_eq {t : Theta} {i : ℕ} (hi : i < t.children.length) :
    t.childSupport i = (childLeaves t.children[i]).toFinset := by
  simp [childSupport, hi]

theorem length_children (k : ℤ) (es : List ReplicaID) (ts : List Theta) :
    (mk k es ts).children.length = es.length + ts.length := by
  simp [children]

theorem children_reselect (f : ℤ → ℕ → ℤ) (t : Theta) :
    (t.reselect f).children = t.children.map (Sum.map id (reselect f)) := by
  cases t
  simp [reselect, children, reselectNested_eq, Function.comp_def]

theorem threshold_reselect (f : ℤ → ℕ → ℤ) (t : Theta) :
    (t.reselect f).threshold = f t.threshold t.children.length := by
  cases t
  simp [reselect, threshold, length_children]

theorem flatMap_children (t : Theta) : t.children.flatMap childLeaves = leaves t := by
  cases t with
  | mk k es ts =>
    simp only [children, leaves, leavesNested_eq, List.flatMap_append, List.flatMap_map]
    simp [childLeaves]

theorem biUnion_childSupport (t : Theta) :
    (Finset.range t.children.length).biUnion t.childSupport = (leaves t).toFinset := by
  ext x
  rw [← flatMap_children]
  simp only [Finset.mem_biUnion, Finset.mem_range, List.mem_toFinset, List.mem_flatMap]
  constructor
  · rintro ⟨i, hi, hx⟩
    rw [childSupport_eq hi, List.mem_toFinset] at hx
    exact ⟨_, List.getElem_mem hi, hx⟩
  · rintro ⟨c, hc, hx⟩
    obtain ⟨i, hi, rfl⟩ := List.getElem_of_mem hc
    exact ⟨i, hi, by rw [childSupport_eq hi, List.mem_toFinset]; exact hx⟩

/-- No replica is below two children. -/
theorem childSupport_disjoint {t : Theta} (h : (leaves t).Nodup) {i j : ℕ}
    (hi : i < t.children.length) (hj : j < t.children.length) (hij : i ≠ j) :
    Disjoint (t.childSupport i) (t.childSupport j) := by
  rw [← flatMap_children, List.nodup_flatMap] at h
  have hpair := List.pairwise_iff_getElem.mp h.2
  rw [childSupport_eq hi, childSupport_eq hj, List.disjoint_toFinset_iff_disjoint]
  rcases Nat.lt_or_gt_of_ne hij with hlt | hlt
  · exact hpair i j hi hj hlt
  · exact (hpair j i hj hi hlt).symm

end Theta

/-- A node is satisfied when enough of its children are. -/
theorem evalFomula_iff_selects (t : Theta) (A : Finset ReplicaID) :
    evalFomula t A = true ↔
      Selects t.threshold (Finset.range t.children.length) t.ChildSat A := by
  classical
  cases t with
  | mk k es ts =>
    have hcard : ((Finset.range (Theta.mk k es ts).children.length).filter
        fun i => (Theta.mk k es ts).ChildSat i A).card =
          es.countP (· ∈ A) + ts.countP fun t => evalFomula t A := by
      rw [← countP_children, ← card_marked]
      unfold marked
      simp [Theta.ChildSat, Theta.children, childEval, Function.comp_def]
    rw [selects_iff_card, hcard, evalFomula, evalNested_eq, decide_eq_true_iff, Theta.threshold]

theorem nested_of_child {k : ℤ} {es : List ReplicaID} {ts : List Theta} {i : ℕ}
    {hi : i < (Theta.mk k es ts).children.length} {s : Theta}
    (h : (Theta.mk k es ts).children[i] = .inr s) : s ∈ ts := by
  have hmem := List.getElem_mem hi
  rw [h] at hmem
  simpa [Theta.children] using hmem

theorem childEval_mono {c : ReplicaID ⊕ Theta} {A B : Finset ReplicaID} (hAB : A ⊆ B)
    (hs : ∀ s, c = .inr s → evalFomula s A = true → evalFomula s B = true)
    (h : childEval A c = true) : childEval B c = true := by
  cases c with
  | inl rid =>
    simp only [childEval, decide_eq_true_iff] at h ⊢
    exact hAB h
  | inr s => exact hs s rfl h

/-- More replicas satisfy what fewer do. -/
theorem evalFomula_mono (t : Theta) {A B : Finset ReplicaID} (hAB : A ⊆ B)
    (h : evalFomula t A = true) : evalFomula t B = true := by
  induction t using Theta.induction generalizing A B with
  | h k es ts ih =>
    rw [evalFomula_iff_selects] at h ⊢
    refine h.mono le_rfl fun i hi hsat => ?_
    have hi := Finset.mem_range.mp hi
    rw [Theta.childSat_iff hi] at hsat ⊢
    exact childEval_mono hAB (fun s hs h => ih s (nested_of_child hs) hAB h) hsat

/-- All replicas of a formula satisfy it when no node asks for more children than it has. -/
theorem evalFomula_leaves {t : Theta} (ht : t.AllNodes fun k n => k ≤ n) :
    evalFomula t (leaves t).toFinset = true := by
  induction ht with
  | @mk k es ts hk _ ih =>
    rw [evalFomula_iff_selects, ← Theta.biUnion_childSupport]
    refine ⟨_, subset_rfl, ?_, fun i hi => ?_⟩
    · simpa [Theta.threshold, Theta.length_children] using hk
    · have hi' := Finset.mem_range.mp hi
      have hsub := Finset.subset_biUnion_of_mem (Theta.mk k es ts).childSupport hi
      rw [Theta.childSat_iff hi']
      rw [Theta.childSupport_eq hi'] at hsub
      cases hc : (Theta.mk k es ts).children[i] with
      | inl rid =>
        rw [hc] at hsub
        simp only [childEval, decide_eq_true_iff]
        exact hsub (by simp [childLeaves])
      | inr s =>
        rw [hc] at hsub
        exact evalFomula_mono s hsub (ih s (nested_of_child hc))

/-! ## What two quorums have in common -/

theorem childSat_reselect {f : ℤ → ℕ → ℤ} {t : Theta} {i : ℕ} (hi : i < t.children.length)
    {A : Finset ReplicaID} :
    (t.reselect f).ChildSat i A ↔
      childEval A (t.children[i].map id (Theta.reselect f)) = true := by
  simp [Theta.ChildSat, Theta.children_reselect, hi]

theorem evalFomula_reselect_iff (f : ℤ → ℕ → ℤ) (t : Theta) (A : Finset ReplicaID) :
    evalFomula (t.reselect f) A = true ↔
      Selects (f t.threshold t.children.length) (Finset.range t.children.length)
        (t.reselect f).ChildSat A := by
  rw [evalFomula_iff_selects, Theta.threshold_reselect, Theta.children_reselect, List.length_map]

/-- Two quorums have in common what the overlap formula asks for. -/
theorem evalFomula_overlap (t : Theta) {A B : Finset ReplicaID} (hA : evalFomula t A = true)
    (hB : evalFomula t B = true) : evalFomula t.overlap (A ∩ B) = true := by
  induction t using Theta.induction generalizing A B with
  | h k es ts ih =>
    rw [evalFomula_iff_selects] at hA hB
    rw [Theta.overlap, evalFomula_reselect_iff]
    refine (hA.inter hB fun i hi hiA hiB => ?_).mono (by simp) fun _ _ h => h
    have hi := Finset.mem_range.mp hi
    rw [Theta.childSat_iff hi] at hiA hiB
    rw [childSat_reselect hi]
    cases hc : (Theta.mk k es ts).children[i] with
    | inl rid =>
      simp only [hc, childEval, decide_eq_true_iff] at hiA hiB
      simp [childEval, hiA, hiB]
    | inr s =>
      rw [hc] at hiA hiB
      exact ih s (nested_of_child hc) hiA hiB

/-- Where no replica occurs twice, two quorums need have nothing more in common. -/
theorem exists_quorums_of_overlap {t : Theta} (ht : t.AllNodes fun k n => k ≤ n)
    (hnodup : (leaves t).Nodup) {F : Finset ReplicaID} (hF : evalFomula t.overlap F = true) :
    ∃ A ⊆ (leaves t).toFinset, ∃ B ⊆ (leaves t).toFinset,
      evalFomula t A = true ∧ evalFomula t B = true ∧ A ∩ B ⊆ F := by
  induction ht with
  | @mk k es ts hk hbound ih =>
    rw [Theta.overlap, evalFomula_reselect_iff] at hF
    simp only [evalFomula_iff_selects, ← Theta.biUnion_childSupport]
    have hnested : ∀ s ∈ ts, (leaves s).Nodup := by
      intro s hs
      rw [leaves, leavesNested_eq] at hnodup
      exact (List.nodup_flatMap.mp (List.nodup_append.mp hnodup).2.1).1 s hs
    have hlen : (Theta.mk k es ts).threshold ≤
        ((Finset.range (Theta.mk k es ts).children.length).card : ℤ) := by
      rw [Finset.card_range, Theta.length_children]
      exact hk
    refine Selects.split hlen ?_ ?_ ?_ ?_ (hF.mono (by simp) fun _ _ h => h)
    · intro i hi A B hAB h
      have hi := Finset.mem_range.mp hi
      rw [Theta.childSat_iff hi] at h ⊢
      exact childEval_mono hAB (fun s _ h => evalFomula_mono s hAB h) h
    · intro i hi
      have hi := Finset.mem_range.mp hi
      rw [Theta.childSat_iff hi, Theta.childSupport_eq hi]
      cases hc : (Theta.mk k es ts).children[i] with
      | inl rid => simp [childEval, childLeaves]
      | inr s => exact evalFomula_leaves (hbound s (nested_of_child hc))
    · intro i hi j hj hij
      exact Theta.childSupport_disjoint hnodup (Finset.mem_range.mp hi) (Finset.mem_range.mp hj) hij
    · intro i hi h
      have hi := Finset.mem_range.mp hi
      rw [childSat_reselect hi] at h
      simp only [Theta.childSat_iff hi, Theta.childSupport_eq hi]
      cases hc : (Theta.mk k es ts).children[i] with
      | inl rid =>
        have hrid : rid ∈ F := by simpa [hc, childEval] using h
        refine ⟨{rid}, by simp [childLeaves], {rid}, by simp [childLeaves], ?_, ?_, ?_⟩
        · simp [childEval]
        · simp [childEval]
        · simpa using hrid
      | inr s =>
        rw [hc] at h
        exact ih s (nested_of_child hc) (hnested s (nested_of_child hc)) h

/-- Two quorums meet in `F` only when the overlap formula accepts `F`, and where no replica occurs
twice, whenever it does. -/
theorem overlap_iff {t : Theta} (ht : t.AllNodes fun k n => k ≤ n) (hnodup : (leaves t).Nodup)
    (F : Finset ReplicaID) :
    evalFomula t.overlap F = true ↔ ∃ A ⊆ (leaves t).toFinset, ∃ B ⊆ (leaves t).toFinset,
      evalFomula t A = true ∧ evalFomula t B = true ∧ A ∩ B ⊆ F := by
  constructor
  · exact exists_quorums_of_overlap ht hnodup
  · rintro ⟨A, -, B, -, hA, hB, hAB⟩
    exact evalFomula_mono t.overlap hAB (evalFomula_overlap t hA hB)

/-! ## What is in the way of all quorums -/

/-- The replicas of a formula outside of `F` satisfy it unless the blocking formula accepts `F`. -/
theorem evalFomula_blocking (t : Theta) {A F : Finset ReplicaID}
    (h : ∀ rid ∈ leaves t, rid ∈ A ↔ rid ∉ F) :
    evalFomula t A = true ↔ evalFomula t.blocking F = false := by
  rw [← Bool.not_eq_true]
  induction t using Theta.induction with
  | h k es ts ih =>
    rw [evalFomula_iff_selects, Theta.blocking, evalFomula_reselect_iff]
    have hblock : ∀ i ∈ Finset.range (Theta.mk k es ts).children.length,
        (Theta.mk k es ts).ChildSat i A ↔
          ¬ ((Theta.mk k es ts).reselect fun k n => n - k + 1).ChildSat i F := by
      intro i hi
      have hi := Finset.mem_range.mp hi
      rw [Theta.childSat_iff hi, childSat_reselect hi]
      have hmem := List.getElem_mem hi
      rw [← Theta.flatMap_children] at h
      cases hc : (Theta.mk k es ts).children[i] with
      | inl rid =>
        rw [hc] at hmem
        have hrid := h rid (List.mem_flatMap.mpr ⟨_, hmem, by simp [childLeaves]⟩)
        simpa [childEval] using hrid
      | inr s =>
        rw [hc] at hmem
        exact ih s (nested_of_child hc) fun rid hrid => h rid (List.mem_flatMap.mpr ⟨_, hmem, hrid⟩)
    rw [selects_iff_not_blocked hblock, Finset.card_range]

/-- Lower thresholds accept more. -/
theorem evalFomula_reselect_mono {f g : ℤ → ℕ → ℤ} {t : Theta}
    (ht : t.AllNodes fun k n => g k n ≤ f k n) {A : Finset ReplicaID}
    (h : evalFomula (t.reselect f) A = true) : evalFomula (t.reselect g) A = true := by
  induction ht with
  | @mk k es ts hk _ ih =>
    rw [evalFomula_reselect_iff] at h ⊢
    refine h.mono (by simpa [Theta.threshold, Theta.length_children] using hk) fun i hi hsat => ?_
    have hi := Finset.mem_range.mp hi
    rw [childSat_reselect hi] at hsat ⊢
    cases hc : (Theta.mk k es ts).children[i] with
    | inl rid => simpa [hc, childEval] using hsat
    | inr s =>
      rw [hc] at hsat
      exact ih s (nested_of_child hc) hsat

/-- When every node asks for more than two thirds of its children, a set that leaves a quorum
outside does not hold what two quorums have in common. -/
theorem overlap_of_two_thirds {t : Theta} (ht : t.AllNodes fun k n => 2 * (n : ℤ) < 3 * k)
    {F : Finset ReplicaID} (hF : evalFomula t.blocking F = false) :
    evalFomula t.overlap F = false := by
  rw [← Bool.not_eq_true] at hF ⊢
  refine fun hov => hF (evalFomula_reselect_mono (ht.mono fun k n hkn => ?_) hov)
  omega

end general_hotstuff.quorums
