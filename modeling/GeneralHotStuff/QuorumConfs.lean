-- The quorum systems that `scripts/quorum_confs` writes for any number of replicas, and the
-- faulty replicas that each of them withstands. Each definition is the formula that
-- `from_json` makes of the file.
import GeneralHotStuff.FaultySets

namespace general_hotstuff.quorum_confs

open quorums quorum_systems

/-! ## generate.sh and generate_balanced_as.sh -/

/-- `quorums_thres`: `(2 n + 1) / 3` of `n` replicas, rounded up. -/
def quorums_thres (replicas : ℕ) : Theta :=
  .mk ↑((2 * replicas + 1 + 3 - 1) / 3) (List.range replicas) []

/-- `(n + 1) / 2`, rounded up. -/
def majority (replicas : ℕ) : ℕ := (replicas + 1 + 2 - 1) / 2

/-- The threshold `k` of `unbalanced`. -/
def unbalanced_k (replicas : ℕ) : ℕ :=
  let k := (replicas - majority replicas) / 2
  if k = 0 then 1 else k

/-- `unbalanced`: a majority, or `k` of the replicas of each of two parties. -/
def unbalanced (replicas : ℕ) : Theta :=
  let t := majority replicas
  let k := unbalanced_k replicas
  .mk 1 []
    [.mk t (List.range replicas) [],
      .mk 2 [] [.mk k (List.range t) [], .mk k (List.range' t (replicas - t)) []]]

/-- The four replicas below replica `l`, of which the last is the first one below the next. -/
def conf_1common_members (k l : ℕ) : List ReplicaID :=
  (List.range' (k + 3 * l) 4).map fun m => if m < 4 * k then m else k

/-- Replica `l` with two of the four below it. -/
def conf_1common_part (k l : ℕ) : Theta := .mk 2 [l] [.mk 2 (conf_1common_members k l) []]

/-- `(2 k + 1) / 3`, rounded up. -/
def conf_1common_select (k : ℕ) : ℕ := (2 * k + 1 + 3 - 1) / 3

/-- `1common_k`. -/
def conf_1common (k : ℕ) : Theta :=
  .mk (conf_1common_select k) [] ((List.range k).map (conf_1common_part k))

/-! ## generate_kgrid.py -/

def parties_in_row (i k : ℕ) : List ReplicaID := List.range' ((i - 1) * k) (i * k - (i - 1) * k)

def parties_in_col (j k : ℕ) : List ReplicaID := (List.range k).map fun c => c * k + j - 1

/-- `t` of the rows and `t` of the columns. -/
def kgrid (k t : ℕ) : Theta :=
  .mk 2 []
    [.mk t [] ((List.range' 1 k).map fun i => .mk k (parties_in_row i k) []),
      .mk t [] ((List.range' 1 k).map fun j => .mk k (parties_in_col j k) [])]

/-- `b / 2 + 1` has this square root, rounded up. -/
def get_conf_t (b : ℕ) : ℕ := Nat.sqrt ((b + 1) / 2) + 1

/-- The square roots of the script are those of floating point numbers, which are exact enough for
the sizes that it is called with. -/
def get_conf (n : ℕ) : Theta :=
  let k := Nat.sqrt n
  kgrid k (get_conf_t (k - 1))

theorem length_row {i k : ℕ} (hi : 1 ≤ i) : (parties_in_row i k).length = k := by
  obtain ⟨i, rfl⟩ := Nat.exists_eq_add_of_le' hi
  simp [parties_in_row, Nat.add_mul]

theorem length_col (j k : ℕ) : (parties_in_col j k).length = k := by
  simp [parties_in_col]

theorem get_conf_bounded {p n : ℕ} (hn : 0 < n) (hp : 2 < p ∧ Nat.sqrt n < p) :
    (get_conf n).AllNodes fun k m => 1 ≤ k ∧ m < p := by
  have hrow : 0 < Nat.sqrt n := Nat.sqrt_pos.mpr hn
  have hlines : ∀ {parties : ℕ → ℕ → List ReplicaID},
      (∀ i ∈ List.range' 1 (Nat.sqrt n), (parties i (Nat.sqrt n)).length = Nat.sqrt n) →
      (Theta.mk (get_conf_t (Nat.sqrt n - 1)) [] ((List.range' 1 (Nat.sqrt n)).map fun i =>
        .mk (Nat.sqrt n) (parties i (Nat.sqrt n)) [])).AllNodes fun k m => 1 ≤ k ∧ m < p := by
    intro parties hlen
    refine .mk ⟨?_, ?_⟩ fun t ht => ?_
    · simp [get_conf_t]
    · simpa using hp.2
    · obtain ⟨i, hi, rfl⟩ := List.mem_map.mp ht
      refine .mk ⟨by omega, ?_⟩ (by simp)
      simpa [hlen i hi] using hp.2
  refine .mk ⟨by decide, by simpa using hp.1⟩ fun t ht => ?_
  simp only [List.mem_cons, List.not_mem_nil, or_false] at ht
  rcases ht with rfl | rfl
  · exact hlines fun i hi => length_row (List.mem_range'_1.mp hi).1
  · exact hlines fun j _ => length_col j _

theorem lt_get_conf_t (b : ℕ) : b + 2 ≤ 2 * (get_conf_t b * get_conf_t b) := by
  have := Nat.lt_succ_sqrt ((b + 1) / 2)
  unfold get_conf_t
  rw [Nat.succ_eq_add_one] at this
  omega

/-! ## Formulas of one kind of children -/

theorem evalFomula_elements {k : ℤ} {es : List ReplicaID} (hes : es.Nodup)
    {A : Finset ReplicaID} :
    evalFomula (.mk k es []) A = true ↔ k ≤ (es.toFinset ∩ A).card := by
  have hcount : es.countP (· ∈ A) = (es.toFinset ∩ A).card := by
    rw [List.countP_eq_length_filter, ← List.toFinset_card_of_nodup (hes.filter _)]
    congr 1
    ext x
    simp
  simp [evalFomula, evalNested, hcount]

theorem evalFomula_all {es : List ReplicaID} {k : ℕ} (hk : es.length = k)
    {A : Finset ReplicaID} :
    evalFomula (.mk k es []) A = true ↔ ∀ x ∈ es, x ∈ A := by
  have hle := List.countP_le_length (p := (· ∈ A)) (l := es)
  have hall := List.countP_eq_length (p := (· ∈ A)) (l := es)
  simp only [decide_eq_true_eq] at hall
  rw [← hall, evalFomula, evalNested, decide_eq_true_iff]
  omega

theorem evalFomula_nested {ι : Type} [DecidableEq ι] {k : ℤ} {l : List ι} (hl : l.Nodup)
    {f : ι → Theta} {A : Finset ReplicaID} :
    evalFomula (.mk k [] (l.map f)) A = true ↔
      Selects k l.toFinset (fun i A => evalFomula (f i) A = true) A := by
  have hcount : (l.map f).countP (fun t => evalFomula t A) =
      (l.toFinset.filter fun i => evalFomula (f i) A = true).card := by
    rw [List.countP_map, List.countP_eq_length_filter,
      ← List.toFinset_card_of_nodup (hl.filter _)]
    congr 1
    ext x
    simp
  rw [selects_iff_card]
  simp [evalFomula, evalNested_eq, hcount]

theorem evalFomula_both {s t : Theta} {A : Finset ReplicaID} :
    evalFomula (.mk 2 [] [s, t]) A = true ↔ evalFomula s A = true ∧ evalFomula t A = true := by
  simp only [evalFomula, evalNested]
  by_cases hs : evalFomula s A = true <;> by_cases ht : evalFomula t A = true <;> simp [hs, ht]

theorem evalFomula_either {s t : Theta} {A : Finset ReplicaID} :
    evalFomula (.mk 1 [] [s, t]) A = true ↔ evalFomula s A = true ∨ evalFomula t A = true := by
  simp only [evalFomula, evalNested]
  by_cases hs : evalFomula s A = true <;> by_cases ht : evalFomula t A = true <;> simp [hs, ht]

theorem evalFomula_with {r : ReplicaID} {t : Theta} {A : Finset ReplicaID} :
    evalFomula (.mk 2 [r] [t]) A = true ↔ r ∈ A ∧ evalFomula t A = true := by
  simp only [evalFomula, evalNested]
  by_cases hr : r ∈ A <;> by_cases ht : evalFomula t A = true <;> simp [hr, ht]

/-! ## The grid -/

/-- The replica in row `i` and column `j`, both counted from 1. -/
def party (k : ℕ) (x : ℕ × ℕ) : ReplicaID := (x.1 - 1) * k + (x.2 - 1)

theorem party_injOn (k : ℕ) :
    Set.InjOn (party k) ↑(Finset.Icc 1 k ×ˢ Finset.Icc 1 k) := by
  rintro ⟨i, j⟩ hx ⟨i', j'⟩ hx' heq
  simp only [Finset.coe_product, Finset.coe_Icc, Set.mem_prod, Set.mem_Icc] at hx hx'
  have hmod : ∀ i j, 1 ≤ j → j ≤ k → party k (i, j) % k = j - 1 ∧ party k (i, j) / k = i - 1 := by
    intro i j h1 hk
    have hlt : j - 1 < k := by omega
    refine ⟨?_, ?_⟩
    · rw [party, Nat.mul_add_mod', Nat.mod_eq_of_lt hlt]
    · rw [party, Nat.add_div_of_dvd_right (Nat.dvd_mul_left k (i - 1)),
        Nat.mul_div_cancel _ (by omega), Nat.div_eq_of_lt hlt, Nat.add_zero]
  obtain ⟨hm, hd⟩ := hmod i j hx.2.1 hx.2.2
  obtain ⟨hm', hd'⟩ := hmod i' j' hx'.2.1 hx'.2.2
  rw [heq] at hm hd
  have hi : i - 1 = i' - 1 := hd.symm.trans hd'
  have hj : j - 1 = j' - 1 := hm.symm.trans hm'
  rw [Prod.mk.injEq]
  omega

theorem row_mem {i j k : ℕ} (hi : i ∈ Finset.Icc 1 k) (hj : j ∈ Finset.Icc 1 k) :
    party k (i, j) ∈ parties_in_row i k := by
  obtain ⟨hi1, -⟩ := Finset.mem_Icc.mp hi
  obtain ⟨hj1, hjk⟩ := Finset.mem_Icc.mp hj
  obtain ⟨i, rfl⟩ := Nat.exists_eq_add_of_le' hi1
  rw [parties_in_row, List.mem_range'_1, Nat.add_sub_cancel, Nat.add_mul, Nat.add_sub_cancel_left,
    party, Nat.add_sub_cancel]
  omega

theorem col_mem {i j k : ℕ} (hi : i ∈ Finset.Icc 1 k) (hj : j ∈ Finset.Icc 1 k) :
    party k (i, j) ∈ parties_in_col j k := by
  obtain ⟨hi1, hik⟩ := Finset.mem_Icc.mp hi
  obtain ⟨hj1, hjk⟩ := Finset.mem_Icc.mp hj
  refine List.mem_map.mpr ⟨i - 1, List.mem_range.mpr (by omega), ?_⟩
  rw [party, Nat.add_sub_assoc hj1]

/-- A quorum of the grid holds `t` rows and `t` columns. -/
theorem evalFomula_kgrid {k t : ℕ} {A : Finset ReplicaID} (h : evalFomula (kgrid k t) A = true) :
    ∃ I ⊆ Finset.Icc 1 k, ∃ J ⊆ Finset.Icc 1 k, t ≤ I.card ∧ t ≤ J.card ∧
      ∀ i ∈ Finset.Icc 1 k, ∀ j ∈ Finset.Icc 1 k, i ∈ I ∨ j ∈ J → party k (i, j) ∈ A := by
  have hrange : (List.range' 1 k).toFinset = Finset.Icc 1 k := by
    ext x
    simp [List.mem_range'_1]
    omega
  obtain ⟨hrows, hcols⟩ := evalFomula_both.mp h
  obtain ⟨I, hI, hIt, hrow⟩ := (evalFomula_nested List.nodup_range').mp hrows
  obtain ⟨J, hJ, hJt, hcol⟩ := (evalFomula_nested List.nodup_range').mp hcols
  rw [hrange] at hI hJ
  refine ⟨I, hI, J, hJ, by omega, by omega, fun i hi j hj hmem => ?_⟩
  rcases hmem with hmem | hmem
  · exact (evalFomula_all (length_row (Finset.mem_Icc.mp hi).1)).mp (hrow i hmem) _ (row_mem hi hj)
  · exact (evalFomula_all (length_col j k)).mp (hcol j hmem) _ (col_mem hi hj)

/-- Two quorums of the grid share as many replicas as there are in a row. -/
theorem kgrid_inter {k t : ℕ} (ht : k ≤ 2 * (t * t)) {A B : Finset ReplicaID}
    (hA : evalFomula (kgrid k t) A = true) (hB : evalFomula (kgrid k t) B = true) :
    k ≤ (A ∩ B).card := by
  obtain ⟨I, hI, J, hJ, hIt, hJt, hmem⟩ := evalFomula_kgrid hA
  obtain ⟨I', hI', J', hJ', hIt', hJt', hmem'⟩ := evalFomula_kgrid hB
  exact le_card_inter_of_grid (party_injOn k) (by simp) (by simp) ht hI hI' hJ hJ' hIt hIt' hJt
    hJt' hmem hmem'

/-! ## One common replica -/

/-- Two quorums share as many of the first `k` replicas as two selections of parts do. -/
theorem conf_1common_inter {k : ℕ} {A B : Finset ReplicaID}
    (hA : evalFomula (conf_1common k) A = true) (hB : evalFomula (conf_1common k) B = true) :
    2 * conf_1common_select k ≤ k + (Finset.range k ∩ (A ∩ B)).card := by
  have hmeet : ∀ l ∈ (List.range k).toFinset, evalFomula (conf_1common_part k l) A = true →
      evalFomula (conf_1common_part k l) B = true → l ∈ A ∩ B := fun l _ hlA hlB =>
    Finset.mem_inter.mpr ⟨(evalFomula_with.mp hlA).1, (evalFomula_with.mp hlB).1⟩
  have hinter : Selects (2 * conf_1common_select k - (List.range k).toFinset.card)
      (List.range k).toFinset (fun l S => l ∈ S) (A ∩ B) :=
    ((evalFomula_nested List.nodup_range).mp hA).inter
      ((evalFomula_nested List.nodup_range).mp hB) hmeet
  rw [List.toFinset_range, selects_iff_card, Finset.card_range,
    Finset.filter_mem_eq_inter] at hinter
  omega

/-- Two of the four below a replica are enough. -/
theorem members_of_two {k l i j : ℕ} (hij : i < j) (hj : j < 4) {A : Finset ReplicaID}
    (hi : (if k + 3 * l + i < 4 * k then k + 3 * l + i else k) ∈ A)
    (hj' : (if k + 3 * l + j < 4 * k then k + 3 * l + j else k) ∈ A) :
    evalFomula (.mk 2 (conf_1common_members k l) []) A = true := by
  have hsub : [if k + 3 * l + i < 4 * k then k + 3 * l + i else k,
      if k + 3 * l + j < 4 * k then k + 3 * l + j else k].Sublist (conf_1common_members k l) := by
    have hpair : [k + 3 * l + i, k + 3 * l + j].Sublist (List.range' (k + 3 * l) 4) := by
      have hcases : (i = 0 ∧ j = 1) ∨ (i = 0 ∧ j = 2) ∨ (i = 0 ∧ j = 3) ∨ (i = 1 ∧ j = 2) ∨
          (i = 1 ∧ j = 3) ∨ (i = 2 ∧ j = 3) := by omega
      rcases hcases with ⟨rfl, rfl⟩ | ⟨rfl, rfl⟩ | ⟨rfl, rfl⟩ | ⟨rfl, rfl⟩ | ⟨rfl, rfl⟩ | ⟨rfl, rfl⟩
      all_goals simp [List.range']
    simpa [conf_1common_members] using hpair.map fun m => if m < 4 * k then m else k
  have hcount := hsub.countP_le (p := (· ∈ A))
  rw [evalFomula, evalNested, decide_eq_true_iff]
  rw [List.countP_eq_length.mpr (by simp [hi, hj'])] at hcount
  simpa using hcount

/-- The replicas `I` among the first, and a half of those below. -/
def half (k : ℕ) (second : Bool) (I : Finset ℕ) : Finset ReplicaID :=
  I ∪ (Finset.range k).biUnion fun l =>
    if second then {k + 3 * l + 1, k + 3 * l + 2} else {k + 3 * l}

theorem mem_half {k : ℕ} {second : Bool} {I : Finset ℕ} {x : ℕ} :
    x ∈ half k second I ↔ x ∈ I ∨ ∃ l < k,
      if second then x = k + 3 * l + 1 ∨ x = k + 3 * l + 2 else x = k + 3 * l := by
  cases second <;> simp [half]

theorem half_quorum {k : ℕ} (second : Bool) {I : Finset ℕ} (hI : I ⊆ Finset.range k)
    (hcard : I.card = conf_1common_select k) :
    evalFomula (conf_1common k) (half k second I) = true := by
  refine (evalFomula_nested List.nodup_range).mpr
    ⟨I, by rwa [List.toFinset_range], by omega, fun l hl => ?_⟩
  have hlk := Finset.mem_range.mp (hI hl)
  refine evalFomula_with.mpr ⟨Finset.mem_union_left _ hl, ?_⟩
  cases second with
  | true =>
    refine members_of_two (i := 1) (j := 2) (by decide) (by decide) ?_ ?_
    · rw [if_pos (by omega)]
      exact mem_half.mpr (.inr ⟨l, hlk, .inl rfl⟩)
    · rw [if_pos (by omega)]
      exact mem_half.mpr (.inr ⟨l, hlk, .inr rfl⟩)
  | false =>
    refine members_of_two (i := 0) (j := 3) (by decide) (by decide) ?_ ?_
    · rw [if_pos (by omega)]
      exact mem_half.mpr (.inr ⟨l, hlk, rfl⟩)
    · -- the last one is the first of the next, or the first of all
      split
      · exact mem_half.mpr (.inr ⟨l + 1, by omega, show k + 3 * l + 3 = k + 3 * (l + 1) by omega⟩)
      · exact mem_half.mpr (.inr ⟨0, by omega, rfl⟩)

/-- The halves have nothing in common. -/
theorem half_inter {k : ℕ} {I J : Finset ℕ} (hI : I ⊆ Finset.range k) (hJ : J ⊆ Finset.range k) :
    half k true I ∩ half k false J ⊆ I ∩ J := by
  intro (x : ℕ) hx
  obtain ⟨hx, hx'⟩ := Finset.mem_inter.mp hx
  have hlow : ∀ {I : Finset ℕ}, I ⊆ Finset.range k → x ∈ I → x < k := fun hI h =>
    Finset.mem_range.mp (hI h)
  rcases mem_half.mp hx with hxI | ⟨l, hl, hxl⟩
  · rcases mem_half.mp hx' with hxJ | ⟨l', -, hxl'⟩
    · exact Finset.mem_inter.mpr ⟨hxI, hxJ⟩
    · have := hlow hI hxI
      have hxl' : x = k + 3 * l' := hxl'
      omega
  · have hxl : x = k + 3 * l + 1 ∨ x = k + 3 * l + 2 := hxl
    rcases mem_half.mp hx' with hxJ | ⟨l', -, hxl'⟩
    · have := hlow hJ hxJ
      omega
    · have hxl' : x = k + 3 * l' := hxl'
      omega

theorem half_lt {k : ℕ} {second : Bool} {I : Finset ℕ} (hI : I ⊆ Finset.range k) {x : ℕ}
    (hx : x ∈ half k second I) : x < 4 * k := by
  rcases mem_half.mp hx with hx | ⟨l, hl, hxl⟩
  · have := Finset.mem_range.mp (hI hx)
    omega
  · split at hxl <;> omega

theorem select_bounds {k : ℕ} (hk : 0 < k) :
    1 ≤ conf_1common_select k ∧ conf_1common_select k ≤ k := by
  unfold conf_1common_select
  omega

theorem conf_1common_bounded {p k : ℕ} (hk : 0 < k) (hp : 4 < p ∧ k < p) :
    (conf_1common k).AllNodes fun s n => 1 ≤ s ∧ n < p := by
  refine .mk ⟨by exact_mod_cast (select_bounds hk).1, by simpa using hp.2⟩ fun t ht => ?_
  obtain ⟨l, -, rfl⟩ := List.mem_map.mp ht
  refine .mk ⟨by decide, ?_⟩ fun t ht => ?_
  · simp only [List.length_cons, List.length_nil]
    omega
  · rw [List.mem_singleton.mp ht]
    exact .mk ⟨by decide, by simpa [conf_1common_members] using hp.1⟩ (by simp)

/-! ## Two parties -/

/-- A majority of all, or enough replicas of each party. -/
theorem evalFomula_unbalanced {n : ℕ} {A : Finset ReplicaID} :
    evalFomula (unbalanced n) A = true ↔
      majority n ≤ (Finset.range n ∩ A).card ∨
        unbalanced_k n ≤ (Finset.range (majority n) ∩ A).card ∧
          unbalanced_k n ≤ (Finset.Ico (majority n) (majority n + (n - majority n)) ∩ A).card := by
  have hico : (List.range' (majority n) (n - majority n)).toFinset =
      Finset.Ico (majority n) (majority n + (n - majority n)) := by
    ext x
    simp [List.mem_range'_1]
  rw [unbalanced, evalFomula_either, evalFomula_both, evalFomula_elements List.nodup_range,
    evalFomula_elements List.nodup_range, evalFomula_elements List.nodup_range', hico,
    List.toFinset_range, List.toFinset_range]
  simp

theorem unbalanced_bounded {p n : ℕ} (hn : 3 ≤ n) (hp : n < p) :
    (unbalanced n).AllNodes fun k m => 1 ≤ k ∧ m < p := by
  have ht : 1 ≤ majority n ∧ majority n ≤ n := by
    unfold majority
    omega
  have hk : 1 ≤ unbalanced_k n := by
    unfold unbalanced_k
    dsimp only
    split <;> omega
  have hflat : ∀ {k : ℕ} {es : List ReplicaID}, 1 ≤ k → es.length ≤ n →
      (Theta.mk k es []).AllNodes fun k m => 1 ≤ k ∧ m < p := by
    intro k es hk hes
    refine .mk ⟨by exact_mod_cast hk, ?_⟩ (by simp)
    simp only [List.length_nil]
    omega
  refine .mk ⟨by decide, ?_⟩ fun t ht' => ?_
  · simp only [List.length_cons, List.length_nil]
    omega
  simp only [List.mem_cons, List.not_mem_nil, or_false] at ht'
  rcases ht' with rfl | rfl
  · exact hflat ht.1 (by simp)
  refine .mk ⟨by decide, ?_⟩ fun t ht' => ?_
  · simp only [List.length_cons, List.length_nil]
    omega
  simp only [List.mem_cons, List.not_mem_nil, or_false] at ht'
  rcases ht' with rfl | rfl
  · exact hflat hk (by simpa using ht.2)
  · exact hflat hk (by simp)

/-- Replicas `i, …, i + k - 1` of each party. -/
def choice (t k i : ℕ) : Finset ℕ :=
  Finset.Ico i (i + k) ∪ Finset.Ico (t + i) (t + i + k)

theorem choice_quorum {n i : ℕ} (hi : i + unbalanced_k n ≤ majority n)
    (hn : majority n + i + unbalanced_k n ≤ n) :
    evalFomula (unbalanced n) (choice (majority n) (unbalanced_k n) i) = true := by
  have hcount : ∀ {a b : ℕ} {S : Finset ℕ}, b = a + unbalanced_k n →
      Finset.Ico a b ⊆ S → Finset.Ico a b ⊆ choice (majority n) (unbalanced_k n) i →
        unbalanced_k n ≤ (S ∩ choice (majority n) (unbalanced_k n) i).card := by
    intro a b S hb hS hchoice
    have := Finset.card_le_card (Finset.subset_inter hS hchoice)
    rw [Nat.card_Ico] at this
    omega
  rw [evalFomula_unbalanced]
  refine .inr ⟨hcount rfl (fun x hx => ?_) Finset.subset_union_left,
    hcount rfl (fun x hx => ?_) Finset.subset_union_right⟩
  · have := Finset.mem_Ico.mp hx
    exact Finset.mem_range.mpr (by omega)
  · have := Finset.mem_Ico.mp hx
    exact Finset.mem_Ico.mpr (by omega)

/-- From five replicas on, each party has room for two choices. -/
theorem unbalanced_disjoint {n : ℕ} (hn : 5 ≤ n) :
    ∃ A ⊆ Finset.range n, ∃ B ⊆ Finset.range n, evalFomula (unbalanced n) A = true ∧
      evalFomula (unbalanced n) B = true ∧ A ∩ B = ∅ := by
  have ht : majority n = n / 2 + 1 := by
    unfold majority
    omega
  have hk : unbalanced_k n = (n - (n / 2 + 1)) / 2 := by
    unfold unbalanced_k
    rw [ht]
    dsimp only
    rw [if_neg (by omega)]
  have hrange : ∀ i, majority n + i + unbalanced_k n ≤ n →
      choice (majority n) (unbalanced_k n) i ⊆ Finset.range n := by
    intro i hi x hx
    rw [choice, Finset.mem_union, Finset.mem_Ico, Finset.mem_Ico] at hx
    exact Finset.mem_range.mpr (by omega)
  have hfit : ∀ i ≤ unbalanced_k n,
      i + unbalanced_k n ≤ majority n ∧ majority n + i + unbalanced_k n ≤ n := by
    omega
  obtain ⟨h0, h0n⟩ := hfit 0 (Nat.zero_le _)
  obtain ⟨hk', hkn⟩ := hfit (unbalanced_k n) le_rfl
  refine ⟨_, hrange 0 h0n, _, hrange (unbalanced_k n) hkn, choice_quorum h0 h0n,
    choice_quorum hk' hkn, ?_⟩
  ext x
  simp only [choice, Finset.mem_inter, Finset.mem_union, Finset.mem_Ico, Finset.notMem_empty,
    iff_false]
  omega

/-- Three or four replicas are too few for that. -/
theorem unbalanced_inter {n : ℕ} (h3 : 3 ≤ n) (hn : n < 5) {A B : Finset ReplicaID}
    (hA : evalFomula (unbalanced n) A = true) (hB : evalFomula (unbalanced n) B = true) :
    (A ∩ B).Nonempty := by
  have ht : majority n = n - 1 := by
    unfold majority
    omega
  have hk : unbalanced_k n = 1 := by
    unfold unbalanced_k
    rw [ht]
    dsimp only
    rw [if_pos (by omega)]
  have hsplit : Finset.range n = insert (n - 1) (Finset.range (n - 1)) := by
    rw [← Finset.range_add_one, Nat.sub_add_cancel (by omega)]
  -- the second party is the last replica
  have hsecond : Finset.Ico (n - 1) (n - 1 + (n - (n - 1))) = {n - 1} := by
    ext x
    simp only [Finset.mem_Ico, Finset.mem_singleton]
    omega
  have hspec : ∀ {A : Finset ReplicaID}, evalFomula (unbalanced n) A = true →
      (Finset.range (n - 1) ∩ A).Nonempty ∧ (n - 1 ∈ A ∨ Finset.range (n - 1) ⊆ A) := by
    intro A hA
    rw [evalFomula_unbalanced, ht, hk, hsecond, hsplit] at hA
    by_cases hlast : n - 1 ∈ A
    · rw [Finset.insert_inter_of_mem hlast] at hA
      refine ⟨Finset.card_pos.mp ?_, .inl hlast⟩
      have := Finset.card_insert_le (n - 1) (Finset.range (n - 1) ∩ A)
      omega
    · rw [Finset.insert_inter_of_notMem hlast, Finset.singleton_inter_of_notMem hlast,
        Finset.card_empty] at hA
      have hcard : n - 1 ≤ (Finset.range (n - 1) ∩ A).card := by omega
      refine ⟨Finset.card_pos.mp (by omega), .inr ?_⟩
      have hsub : Finset.range (n - 1) ∩ A ⊆ Finset.range (n - 1) := Finset.inter_subset_left
      exact Finset.inter_eq_left.mp (Finset.eq_of_subset_of_card_le hsub (by simpa using hcard))
  obtain ⟨hne, hlast⟩ := hspec hA
  obtain ⟨hne', hlast'⟩ := hspec hB
  rcases hlast with hlast | hall
  · rcases hlast' with hlast' | hall'
    · exact ⟨n - 1, Finset.mem_inter.mpr ⟨hlast, hlast'⟩⟩
    · obtain ⟨x, hx⟩ := hne
      obtain ⟨hx, hxA⟩ := Finset.mem_inter.mp hx
      exact ⟨x, Finset.mem_inter.mpr ⟨hxA, hall' hx⟩⟩
  · obtain ⟨x, hx⟩ := hne'
    obtain ⟨hx, hxB⟩ := Finset.mem_inter.mp hx
    exact ⟨x, Finset.mem_inter.mpr ⟨hall hx, hxB⟩⟩

end general_hotstuff.quorum_confs

/-! ## What they withstand -/

namespace general_hotstuff.World

open quorums (ReplicaID Theta evalFomula leaves)
open quorum_confs
open HotStuffCore (Call)

variable {Hash Sig : Type} [DecidableEq Hash] {config : Config Hash Sig}

/-- With the formula of the grid any two quorums share as many replicas as a row has, and correct
replicas agree as long as fewer are faulty. -/
theorem the_grid_withstands_less_than_a_row {p : ℕ} (hp : p.Prime) {n : ℕ} (hn : 0 < n)
    (hk : 2 < p ∧ Nat.sqrt n < p) {with_msp : Bool}
    (huses : config.UsesFormula with_msp p (get_conf n)) (hc : config.CollisionFree) :
    (∀ P Q, config.Quorum P → config.Quorum Q → Nat.sqrt n ≤ (P ∩ Q).card) ∧
      ∀ F : Finset ReplicaID, F.card < Nat.sqrt n → ∀ w,
        Run config (· ∉ F) (Extending config) w → w.Consistent config (· ∉ F) := by
  have hrow : 0 < Nat.sqrt n := Nat.sqrt_pos.mpr hn
  have hrule := huses.rule hp (get_conf_bounded hn hk)
  have hinter : ∀ P Q, config.Quorum P → config.Quorum Q → Nat.sqrt n ≤ (P ∩ Q).card := by
    intro P Q hP hQ
    have ht := lt_get_conf_t (Nat.sqrt n - 1)
    exact kgrid_inter (by omega) ((Config.quorum_iff hrule).mp hP).2
      ((Config.quorum_iff hrule).mp hQ).2
  refine ⟨hinter, fun F hF w hw => hw.consistent hc fun P Q hP hQ => ?_⟩
  obtain ⟨i, hi, hif⟩ := Finset.exists_mem_notMem_of_card_lt_card (hF.trans_le (hinter P Q hP hQ))
  exact ⟨i, (Finset.mem_inter.mp hi).1, (Finset.mem_inter.mp hi).2, hif⟩

/-- Nine replicas in a grid. -/
def grid_of_nine : Config ℕ (ReplicaID × ℕ) := formula_replicas false (get_conf 9) 9 (by decide)

theorem a_grid_of_nine_replicas_withstands_two :
    ∃ w, Run grid_of_nine (· ∉ ({3, 4} : Finset ReplicaID)) (Extending grid_of_nine) w ∧
      w.votes = [(2, chain_code 1), (1, chain_code 1)] ∧
      w.Consistent grid_of_nine (· ∉ ({3, 4} : Finset ReplicaID)) := by
  have hend : ((start grid_of_nine).play grid_of_nine (· ∉ ({3, 4} : Finset ReplicaID)) Direct
      (proposed_by_3 (chain_block 0) [1, 2])).map (fun w => decide
        (w.votes = [(2, chain_code 1), (1, chain_code 1)])) = some true := by
    decide +kernel
  obtain ⟨w, hw, hcheck⟩ := Option.map_eq_some_iff.mp hend
  have hext : Run grid_of_nine (· ∉ ({3, 4} : Finset ReplicaID)) (Extending grid_of_nine) w :=
    (Run.play hw (by decide)).1.mono fun _ _ _ h => Direct.extending h
  have hsqrt : Nat.sqrt 9 = 3 := by decide +kernel
  exact ⟨w, hext, of_decide_eq_true hcheck, (the_grid_withstands_less_than_a_row (n := 9)
    (p := 5) (by decide) (by decide) (by rw [hsqrt]; decide)
    (formula_replicas_uses false _ _ _ (by decide)
      (get_conf_bounded (by decide) (by rw [hsqrt]; decide)) true)
    (formula_collisionFree false _ _ _)).2 _ (by rw [hsqrt]; decide) w hext⟩

/-- With the formula of `1common` the certified blocks of every height are unique exactly as long
as few enough of the first `k` replicas are faulty. The others may all be. -/
theorem only_the_first_replicas_of_1common_count {p : ℕ} (hp : p.Prime) {k : ℕ} (hk : 0 < k)
    (hkp : 4 < p ∧ k < p) {with_msp : Bool} (huses : config.UsesFormula with_msp p (conf_1common k))
    (hn : 4 * k ≤ config.nreplicas) (hc : config.CollisionFree) {F : Finset ReplicaID}
    {data data' : BlockData Hash Sig} (hdata : First config (· ∉ F) data)
    (hdata' : First config (· ∉ F) data') (hne : config.get_hash data ≠ config.get_hash data') :
    (∀ w, Run config (· ∉ F) (fun _ _ _ => True) w → ∀ x y n, config.Depth x n →
      config.Depth y n → Certified config (· ∉ F) w.votes x →
        Certified config (· ∉ F) w.votes y → x = y) ↔
    k + (Finset.range k ∩ F).card < 2 * conf_1common_select k := by
  have hrule := huses.rule hp (conf_1common_bounded hk hkp)
  rw [certified_unique_iff hc hdata hdata' hne]
  constructor
  · intro hnone
    by_contra hroom
    obtain ⟨I, hI, J, hJ, hIcard, hJcard, hIJ⟩ := quorum_systems.exists_overlapping
      (U := Finset.range k) (G := Finset.range k ∩ F) (n := conf_1common_select k)
      Finset.inter_subset_left (by simpa using (select_bounds hk).2)
      (by rw [Finset.card_range]; omega)
    have hquorum : ∀ second, ∀ I ⊆ Finset.range k, I.card = conf_1common_select k →
        config.Quorum (half k second I) := fun second I hI hcard =>
      (Config.quorum_iff hrule).mpr
        ⟨fun _ hx => (half_lt hI hx).trans_le hn, half_quorum second hI hcard⟩
    exact hnone _ _ (hquorum true I hI hIcard) (hquorum false J hJ hJcard)
      ((half_inter hI hJ).trans (hIJ.trans Finset.inter_subset_right))
  · intro hfew P Q hP hQ hPQ
    have hinter := conf_1common_inter ((Config.quorum_iff hrule).mp hP).2
      ((Config.quorum_iff hrule).mp hQ).2
    have := Finset.card_le_card (Finset.inter_subset_inter_left (s := Finset.range k) hPQ)
    omega

/-- Four replicas with three others each. -/
def sixteen_replicas : Config ℕ (ReplicaID × ℕ) :=
  formula_replicas false (conf_1common 4) 16 (by decide)

theorem twelve_of_sixteen_faulty_replicas_cannot_fork :
    4 + (Finset.range 4 ∩ Finset.Ico 4 16).card < 2 * conf_1common_select 4 ∧
    ((∀ w, Run sixteen_replicas (· ∉ Finset.Ico 4 16) (fun _ _ _ => True) w → ∀ x y n,
        sixteen_replicas.Depth x n → sixteen_replicas.Depth y n →
          Certified sixteen_replicas (· ∉ Finset.Ico 4 16) w.votes x →
            Certified sixteen_replicas (· ∉ Finset.Ico 4 16) w.votes y → x = y) ↔
      4 + (Finset.range 4 ∩ Finset.Ico 4 16).card < 2 * conf_1common_select 4) :=
  ⟨by decide, only_the_first_replicas_of_1common_count (p := 5) (by decide) (by decide) (by decide)
    (formula_replicas_uses false _ _ _ (by decide)
      (conf_1common_bounded (by decide) (by decide)) true) (by decide)
    (formula_collisionFree false _ _ _) (first_coded_block false _ _ _ _ 0)
    (first_coded_block false _ _ _ _ 1) (first_coded_blocks_ne false _ _ _)⟩

/-- With the formula of `unbalanced` the replicas can certify two blocks of one height, even when
all of them are correct, as soon as there are five. -/
theorem unbalanced_quorums_fork_from_five_replicas_on {p : ℕ} (hp : p.Prime) {n : ℕ} (h3 : 3 ≤ n)
    (hnp : n < p) {with_msp : Bool} (huses : config.UsesFormula with_msp p (unbalanced n))
    (hn : n ≤ config.nreplicas) (hc : config.CollisionFree) {data data' : BlockData Hash Sig}
    (hdata : First config (· ∉ (∅ : Finset ReplicaID)) data)
    (hdata' : First config (· ∉ (∅ : Finset ReplicaID)) data')
    (hne : config.get_hash data ≠ config.get_hash data') :
    (∀ w, Run config (· ∉ (∅ : Finset ReplicaID)) (fun _ _ _ => True) w → ∀ x y n,
      config.Depth x n → config.Depth y n →
        Certified config (· ∉ (∅ : Finset ReplicaID)) w.votes x →
          Certified config (· ∉ (∅ : Finset ReplicaID)) w.votes y → x = y) ↔
    n < 5 := by
  have hrule := huses.rule hp (unbalanced_bounded h3 hnp)
  rw [certified_unique_iff hc hdata hdata' hne]
  constructor
  · intro hnone
    by_contra hfive
    obtain ⟨A, hA, B, hB, hevalA, hevalB, hAB⟩ := unbalanced_disjoint (Nat.le_of_not_lt hfive)
    have hquorum : ∀ A ⊆ Finset.range n, evalFomula (unbalanced n) A = true → config.Quorum A :=
      fun A hA heval => (Config.quorum_iff hrule).mpr
        ⟨fun i hi => (Finset.mem_range.mp (hA hi)).trans_le hn, heval⟩
    exact hnone A B (hquorum A hA hevalA) (hquorum B hB hevalB) hAB.subset
  · intro hfive P Q hP hQ hPQ
    have hne := unbalanced_inter h3 hfive ((Config.quorum_iff hrule).mp hP).2
      ((Config.quorum_iff hrule).mp hQ).2
    exact hne.ne_empty (Finset.subset_empty.mp hPQ)

/-- Five replicas in parties of three and two. -/
def two_parties : Config ℕ (ReplicaID × ℕ) := formula_replicas false (unbalanced 5) 5 (by decide)

theorem five_correct_replicas_can_fork :
    (∀ w, Run two_parties (· ∉ (∅ : Finset ReplicaID)) (fun _ _ _ => True) w → ∀ x y n,
      two_parties.Depth x n → two_parties.Depth y n →
        Certified two_parties (· ∉ (∅ : Finset ReplicaID)) w.votes x →
          Certified two_parties (· ∉ (∅ : Finset ReplicaID)) w.votes y → x = y) ↔ 5 < 5 :=
  unbalanced_quorums_fork_from_five_replicas_on (p := 7) (by decide) (by decide) (by decide)
    (formula_replicas_uses false _ _ _ (by decide)
      (unbalanced_bounded (by decide) (by decide)) true) le_rfl
    (formula_collisionFree false _ _ _) (first_coded_block false _ _ _ _ 0)
    (first_coded_block false _ _ _ _ 1) (first_coded_blocks_ne false _ _ _)

end general_hotstuff.World
