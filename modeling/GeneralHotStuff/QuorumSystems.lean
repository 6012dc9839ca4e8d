-- Sets of members that satisfy enough parts of a whole. What two such sets have in
-- common, which sets are in the way of all of them, and when the parts can be shared
-- out so that two of them meet nowhere else.
import Mathlib.Data.Finset.Card
import Mathlib.Data.Finset.Prod
import Mathlib.Data.Finset.Union

namespace quorum_systems

variable {R ι : Type*} [DecidableEq R] [DecidableEq ι]

/-- At least `k` of the parts in `U` are satisfied. -/
def Selects (k : ℤ) (U : Finset ι) (sat : ι → Finset R → Prop) (A : Finset R) : Prop :=
  ∃ I ⊆ U, k ≤ I.card ∧ ∀ i ∈ I, sat i A

variable {k : ℤ} {U : Finset ι} {sat meet : ι → Finset R → Prop} {A B F : Finset R}

omit [DecidableEq R] [DecidableEq ι] in
theorem selects_iff_card [DecidablePred fun i => sat i A] :
    Selects k U sat A ↔ k ≤ (U.filter fun i => sat i A).card := by
  constructor
  · rintro ⟨I, hIU, hk, hsat⟩
    have hsub : I ⊆ U.filter fun i => sat i A := fun i hi => by simp [hIU hi, hsat i hi]
    have := Finset.card_le_card hsub
    omega
  · intro h
    exact ⟨_, Finset.filter_subset _ U, h, by simp⟩

omit [DecidableEq R] [DecidableEq ι] in
theorem Selects.mono {k' : ℤ} (h : Selects k U sat A) (hk : k' ≤ k)
    (hsat : ∀ i ∈ U, sat i A → meet i B) : Selects k' U meet B := by
  obtain ⟨I, hIU, hI, hall⟩ := h
  exact ⟨I, hIU, hk.trans hI, fun i hi => hsat i (hIU hi) (hall i hi)⟩

/-! ## What two sets have in common -/

/-- Two sets that each satisfy `k` parts satisfy `2 k - n` of the `n` parts together. -/
theorem Selects.inter (hA : Selects k U sat A) (hB : Selects k U sat B)
    (hmeet : ∀ i ∈ U, sat i A → sat i B → meet i (A ∩ B)) :
    Selects (2 * k - U.card) U meet (A ∩ B) := by
  obtain ⟨I, hIU, hI, hsatI⟩ := hA
  obtain ⟨J, hJU, hJ, hsatJ⟩ := hB
  have hcard := Finset.card_union_add_card_inter I J
  have hunion := Finset.card_le_card (Finset.union_subset hIU hJU)
  refine ⟨I ∩ J, Finset.inter_subset_left.trans hIU, by omega, fun i hi => ?_⟩
  obtain ⟨hi, hj⟩ := Finset.mem_inter.mp hi
  exact hmeet i (hIU hi) (hsatI i hi) (hsatJ i hj)

omit [DecidableEq R] in
/-- Two choices of `k` parts that have only parts of `G` in common. -/
theorem exists_overlapping {n : ℕ} {G : Finset ι} (hG : G ⊆ U) (hn : n ≤ U.card)
    (hroom : 2 * n ≤ U.card + G.card) :
    ∃ I ⊆ U, ∃ J ⊆ U, I.card = n ∧ J.card = n ∧ I ∩ J ⊆ G := by
  rcases Nat.le_total n G.card with hle | hle
  · obtain ⟨I, hIG, hI⟩ := Finset.exists_subset_card_eq hle
    exact ⟨I, hIG.trans hG, I, hIG.trans hG, hI, hI, Finset.inter_subset_left.trans hIG⟩
  · have hrest := Finset.card_sdiff_of_subset hG
    have hGU := Finset.card_le_card hG
    obtain ⟨X, hX, hXcard⟩ := Finset.exists_subset_card_eq
      (show n - G.card ≤ (U \ G).card by omega)
    have hXU : X ⊆ U := hX.trans Finset.sdiff_subset
    have hleft : ((U \ G) \ X).card = (U \ G).card - X.card := Finset.card_sdiff_of_subset hX
    obtain ⟨Y, hY, hYcard⟩ := Finset.exists_subset_card_eq
      (show n - G.card ≤ ((U \ G) \ X).card by omega)
    have hYU : Y ⊆ U := hY.trans (Finset.sdiff_subset.trans Finset.sdiff_subset)
    have hGX : Disjoint G X := by
      rw [Finset.disjoint_left]
      intro i hi hiX
      exact (Finset.mem_sdiff.mp (hX hiX)).2 hi
    have hGY : Disjoint G Y := by
      rw [Finset.disjoint_left]
      intro i hi hiY
      exact (Finset.mem_sdiff.mp (Finset.mem_sdiff.mp (hY hiY)).1).2 hi
    refine ⟨G ∪ X, Finset.union_subset hG hXU, G ∪ Y, Finset.union_subset hG hYU, ?_, ?_, ?_⟩
    · rw [Finset.card_union_of_disjoint hGX]
      omega
    · rw [Finset.card_union_of_disjoint hGY]
      omega
    · intro i hi
      simp only [Finset.mem_inter, Finset.mem_union] at hi
      rcases hi with ⟨hi | hiX, hi' | hiY⟩
      · exact hi
      · exact hi
      · exact hi'
      · exact absurd hiX (Finset.mem_sdiff.mp (hY hiY)).2

/-- The members of one part among those of all parts. -/
theorem mem_part_of_mem_union {f g support : ι → Finset R} (hf : ∀ i ∈ U, f i ⊆ support i)
    (hg : ∀ i ∈ U, g i ⊆ support i)
    (hdisj : ∀ i ∈ U, ∀ j ∈ U, i ≠ j → Disjoint (support i) (support j)) {x : R}
    (hx : x ∈ U.biUnion f ∩ U.biUnion g) : ∃ i ∈ U, x ∈ f i ∧ x ∈ g i := by
  simp only [Finset.mem_inter, Finset.mem_biUnion] at hx
  obtain ⟨⟨i, hi, hxi⟩, j, hj, hxj⟩ := hx
  by_cases hij : i = j
  · exact ⟨i, hi, hxi, hij ▸ hxj⟩
  · exact absurd (hg j hj hxj) (Finset.disjoint_left.mp (hdisj i hi j hj hij) (hf i hi hxi))

/-- Parts without a common member can be shared out: where `2 k - n` of them let two sets meet in
`F` only, two sets that satisfy `k` parts meet in `F` only. -/
theorem Selects.split {support : ι → Finset R} (hk : k ≤ U.card)
    (hmono : ∀ i ∈ U, ∀ A B : Finset R, A ⊆ B → sat i A → sat i B)
    (hfull : ∀ i ∈ U, sat i (support i))
    (hdisj : ∀ i ∈ U, ∀ j ∈ U, i ≠ j → Disjoint (support i) (support j))
    (hmeet : ∀ i ∈ U, meet i F → ∃ A ⊆ support i, ∃ B ⊆ support i,
      sat i A ∧ sat i B ∧ A ∩ B ⊆ F)
    (h : Selects (2 * k - U.card) U meet F) :
    ∃ A ⊆ U.biUnion support, ∃ B ⊆ U.biUnion support,
      Selects k U sat A ∧ Selects k U sat B ∧ A ∩ B ⊆ F := by
  obtain ⟨G, hGU, hG, hall⟩ := h
  obtain ⟨I, hIU, J, hJU, hI, hJ, hIJ⟩ := exists_overlapping (n := k.toNat) hGU (by omega)
    (by omega)
  -- a part of both choices is split in two, one of a single choice goes there as a whole
  have hparts : ∀ i, ∃ A B : Finset R, i ∈ U → A ⊆ support i ∧ B ⊆ support i ∧
      (i ∈ I → sat i A) ∧ (i ∈ J → sat i B) ∧ A ∩ B ⊆ F := by
    intro i
    by_cases hi : i ∈ I
    · by_cases hj : i ∈ J
      · by_cases hU : i ∈ U
        · obtain ⟨A, hA, B, hB, hsA, hsB, hAB⟩ :=
            hmeet i hU (hall i (hIJ (Finset.mem_inter.mpr ⟨hi, hj⟩)))
          exact ⟨A, B, fun _ => ⟨hA, hB, fun _ => hsA, fun _ => hsB, hAB⟩⟩
        · exact ⟨∅, ∅, fun h => absurd h hU⟩
      · exact ⟨support i, ∅, fun hU =>
          ⟨subset_rfl, by simp, fun _ => hfull i hU, fun h => absurd h hj, by simp⟩⟩
    · exact ⟨∅, support i, fun hU =>
        ⟨by simp, subset_rfl, fun h => absurd h hi, fun _ => hfull i hU, by simp⟩⟩
  choose f g hfg using hparts
  have hselects : ∀ (I : Finset ι) (f : ι → Finset R), I ⊆ U → k ≤ I.card →
      (∀ i ∈ I, sat i (f i)) → Selects k U sat (U.biUnion f) := by
    intro I f hIU hkI hsat
    exact ⟨I, hIU, hkI, fun i hi =>
      hmono i (hIU hi) _ _ (Finset.subset_biUnion_of_mem f (hIU hi)) (hsat i hi)⟩
  refine ⟨U.biUnion f, Finset.biUnion_mono fun i hi => (hfg i hi).1,
    U.biUnion g, Finset.biUnion_mono fun i hi => (hfg i hi).2.1,
    hselects I f hIU (by omega) fun i hi => (hfg i (hIU hi)).2.2.1 hi,
    hselects J g hJU (by omega) fun i hi => (hfg i (hJU hi)).2.2.2.1 hi, ?_⟩
  intro x hx
  obtain ⟨i, hi, hxf, hxg⟩ := mem_part_of_mem_union (fun i hi => (hfg i hi).1)
    (fun i hi => (hfg i hi).2.1) hdisj hx
  exact (hfg i hi).2.2.2.2 (Finset.mem_inter.mpr ⟨hxf, hxg⟩)

/-! ## What is in the way -/

omit [DecidableEq R] [DecidableEq ι] in
/-- When a part is satisfied by `A` unless `F` is in its way, `A` satisfies `k` parts unless `F` is
in the way of all but `k - 1`. -/
theorem selects_iff_not_blocked {block : ι → Finset R → Prop}
    (hblock : ∀ i ∈ U, sat i A ↔ ¬ block i F) :
    Selects k U sat A ↔ ¬ Selects (U.card - k + 1) U block F := by
  classical
  rw [selects_iff_card, selects_iff_card, Finset.filter_congr hblock]
  have := Finset.card_filter_add_card_filter_not (s := U) fun i => block i F
  omega

/-! ## Grids -/

/-- Two sets that each have `t` full rows and `t` full columns of a grid share a row, a column, or
the places where the rows of each cross the columns of the other. -/
theorem le_card_inter_of_grid {κ : Type*} [DecidableEq κ] {V : Finset κ} {cell : ι × κ → R}
    (hcell : Set.InjOn cell ↑(U ×ˢ V)) {t n : ℕ} (hU : n ≤ U.card) (hV : n ≤ V.card)
    (ht : n ≤ 2 * (t * t)) {I I' : Finset ι} {J J' : Finset κ} (hI : I ⊆ U) (hI' : I' ⊆ U)
    (hJ : J ⊆ V) (hJ' : J' ⊆ V) (hIt : t ≤ I.card) (hIt' : t ≤ I'.card) (hJt : t ≤ J.card)
    (hJt' : t ≤ J'.card) (hA : ∀ i ∈ U, ∀ j ∈ V, i ∈ I ∨ j ∈ J → cell (i, j) ∈ A)
    (hB : ∀ i ∈ U, ∀ j ∈ V, i ∈ I' ∨ j ∈ J' → cell (i, j) ∈ B) : n ≤ (A ∩ B).card := by
  have hcount : ∀ S ⊆ U ×ˢ V, (∀ x ∈ S, cell x ∈ A ∩ B) → S.card ≤ (A ∩ B).card := by
    intro S hS hmem
    rw [← Finset.card_image_of_injOn (hcell.mono (Finset.coe_subset.mpr hS))]
    exact Finset.card_le_card (Finset.image_subset_iff.mpr hmem)
  by_cases hrow : ∃ i ∈ I, i ∈ I'
  · obtain ⟨i, hi, hi'⟩ := hrow
    refine hV.trans ?_
    have hsub : ({i} : Finset ι) ×ˢ V ⊆ U ×ˢ V :=
      Finset.product_subset_product_left (Finset.singleton_subset_iff.mpr (hI hi))
    have := hcount _ hsub fun x hx => by
      obtain ⟨hx1, hx2⟩ := Finset.mem_product.mp hx
      rw [Finset.mem_singleton] at hx1
      exact Finset.mem_inter.mpr ⟨hA x.1 (hx1 ▸ hI hi) x.2 hx2 (.inl (hx1 ▸ hi)),
        hB x.1 (hx1 ▸ hI hi) x.2 hx2 (.inl (hx1 ▸ hi'))⟩
    simpa [Finset.card_product] using this
  by_cases hcol : ∃ j ∈ J, j ∈ J'
  · obtain ⟨j, hj, hj'⟩ := hcol
    refine hU.trans ?_
    have hsub : U ×ˢ ({j} : Finset κ) ⊆ U ×ˢ V :=
      Finset.product_subset_product_right (Finset.singleton_subset_iff.mpr (hJ hj))
    have := hcount _ hsub fun x hx => by
      obtain ⟨hx1, hx2⟩ := Finset.mem_product.mp hx
      rw [Finset.mem_singleton] at hx2
      exact Finset.mem_inter.mpr ⟨hA x.1 hx1 x.2 (hx2 ▸ hJ hj) (.inr (hx2 ▸ hj)),
        hB x.1 hx1 x.2 (hx2 ▸ hJ hj) (.inr (hx2 ▸ hj'))⟩
    simpa [Finset.card_product] using this
  -- the rows of one and the columns of the other cross in `t * t` places, twice
  have hdisj : Disjoint (I ×ˢ J') (I' ×ˢ J) := by
    rw [Finset.disjoint_left]
    intro x hx hx'
    exact hrow ⟨x.1, (Finset.mem_product.mp hx).1, (Finset.mem_product.mp hx').1⟩
  have hsub : I ×ˢ J' ∪ I' ×ˢ J ⊆ U ×ˢ V :=
    Finset.union_subset (Finset.product_subset_product hI hJ')
      (Finset.product_subset_product hI' hJ)
  have hcross := hcount _ hsub fun x hx => by
    rcases Finset.mem_union.mp hx with hx | hx
    · obtain ⟨hx1, hx2⟩ := Finset.mem_product.mp hx
      exact Finset.mem_inter.mpr ⟨hA x.1 (hI hx1) x.2 (hJ' hx2) (.inl hx1),
        hB x.1 (hI hx1) x.2 (hJ' hx2) (.inr hx2)⟩
    · obtain ⟨hx1, hx2⟩ := Finset.mem_product.mp hx
      exact Finset.mem_inter.mpr ⟨hA x.1 (hI' hx1) x.2 (hJ hx2) (.inr hx2),
        hB x.1 (hI' hx1) x.2 (hJ hx2) (.inl hx1)⟩
  rw [Finset.card_union_of_disjoint hdisj, Finset.card_product, Finset.card_product] at hcross
  have := Nat.mul_le_mul hIt hJt'
  have := Nat.mul_le_mul hIt' hJt
  omega

end quorum_systems
