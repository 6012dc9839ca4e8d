-- Votes on a tree of blocks, where any two quorums share a correct voter: no two blocks
-- of one height are certified, and a certified block that is high enough extends every
-- block that a certified one guards. Nothing here knows how the votes are cast.
import Mathlib.Data.Finset.Basic

namespace chained_votes

/-! ## Quorums and histories -/

/-- The voters and the tree of blocks. What a voter that is not correct votes for is not kept. -/
structure Setting (R B : Type*) where
  correct : R → Prop
  quorum : Finset R → Prop
  above : B → B → Prop
  height : B → ℕ
  intersect : ∀ P Q, quorum P → quorum Q → ∃ r, r ∈ P ∧ r ∈ Q ∧ correct r
  trans : ∀ a b c, above a b → above b c → above a c
  height_lt : ∀ a b, above a b → a ≠ b → height b < height a

variable {R B : Type*} (S : Setting R B)

/-- The correct members of a quorum have voted for the block. A history starts with its newest
vote. -/
def Certified (votes : List (R × B)) (b : B) : Prop :=
  ∃ Q, S.quorum Q ∧ ∀ r ∈ Q, S.correct r → (r, b) ∈ votes

/-- Every voter votes for higher and higher blocks. -/
def Rising (votes : List (R × B)) : Prop :=
  votes.Pairwise fun v w => v.1 = w.1 → S.height w.2 < S.height v.2

/-- A vote for `x` is in order when `x` was certified before, or extends another block that was,
and that is as high as everything that the earlier votes of the same voter guard. -/
def InOrder (guards : B → B → Prop) (r : R) (x : B) (older : List (R × B)) : Prop :=
  Certified S older x ∨
    ∃ u, (S.height u = 0 ∨ Certified S older u) ∧ S.above x u ∧ u ≠ x ∧
      ∀ g b, (r, g) ∈ older → guards g b → S.height b ≤ S.height u

def Guarded (guards : B → B → Prop) : List (R × B) → Prop
  | [] => True
  | (r, x) :: older => InOrder S guards r x older ∧ Guarded guards older

/-- Every vote is for a block whose links lead to the bottom or to blocks certified before. -/
def Caused (links : B → B → Prop) : List (R × B) → Prop
  | [] => True
  | (_, x) :: older =>
    (∀ q, links x q → S.height q = 0 ∨ Certified S older q) ∧ Caused links older

variable {S} {votes : List (R × B)}

theorem Certified.mono {older : List (R × B)} {b : B} (h : Certified S older b)
    (hsub : ∀ v ∈ older, v ∈ votes) : Certified S votes b := by
  obtain ⟨Q, hQ, hall⟩ := h
  exact ⟨Q, hQ, fun r hr hc => hsub _ (hall r hr hc)⟩

/-- Two certified blocks have a correct voter in common. -/
theorem Certified.common {older : List (R × B)} {x y : B} (hx : Certified S votes x)
    (hy : Certified S older y) : ∃ r, (r, x) ∈ votes ∧ (r, y) ∈ older := by
  obtain ⟨P, hP, hall⟩ := hx
  obtain ⟨Q, hQ, hall'⟩ := hy
  obtain ⟨r, hrP, hrQ, hc⟩ := S.intersect P Q hP hQ
  exact ⟨r, hall r hrP hc, hall' r hrQ hc⟩

/-- Another vote of the same voter is newer and higher, or the same, or older and lower. -/
theorem Rising.compare {newer older : List (R × B)} {r : R} {x y : B}
    (h : Rising S (newer ++ (r, x) :: older)) (hy : (r, y) ∈ newer ++ (r, x) :: older) :
    S.height x < S.height y ∨ y = x ∨ (r, y) ∈ older ∧ S.height y < S.height x := by
  obtain ⟨-, hold, hcross⟩ := List.pairwise_append.mp h
  rcases List.mem_append.mp hy with hy | hy
  · exact .inl (hcross _ hy _ List.mem_cons_self rfl)
  · rcases List.mem_cons.mp hy with heq | hy
    · rw [Prod.mk.injEq] at heq
      exact .inr (.inl heq.2)
    · exact .inr (.inr ⟨hy, (List.pairwise_cons.mp hold).1 _ hy rfl⟩)

theorem Rising.eq_of_height_eq (h : Rising S votes) {r : R} {x y : B} (hx : (r, x) ∈ votes)
    (hy : (r, y) ∈ votes) (hxy : S.height x = S.height y) : x = y := by
  obtain ⟨newer, older, rfl⟩ := List.append_of_mem hx
  rcases h.compare hy with hlt | heq | ⟨-, hlt⟩
  · exact absurd hxy hlt.ne
  · exact heq.symm
  · exact absurd hxy hlt.ne'

/-- At most one block of each height is certified. -/
theorem Rising.certified_unique (h : Rising S votes) {x y : B} (hx : Certified S votes x)
    (hy : Certified S votes y) (hxy : S.height x = S.height y) : x = y := by
  obtain ⟨r, hrx, hry⟩ := hx.common hy
  exact h.eq_of_height_eq hrx hry hxy

/-! ## Links -/

theorem Caused.before {links : B → B → Prop} {newer older : List (R × B)} {r : R} {x : B}
    (h : Caused S links (newer ++ (r, x) :: older)) :
    ∀ q, links x q → S.height q = 0 ∨ Certified S older q := by
  induction newer with
  | nil => exact h.1
  | cons v newer ih => exact ih h.2

theorem oldest_vote {r : R} {x : B} (h : (r, x) ∈ votes) :
    ∃ newer r' older, votes = newer ++ (r', x) :: older ∧ ∀ c, (c, x) ∉ older := by
  induction votes generalizing r with
  | nil => cases h
  | cons v votes ih =>
    by_cases hold : ∃ c, (c, x) ∈ votes
    · obtain ⟨c, hc⟩ := hold
      obtain ⟨newer, r', older, rfl, hnone⟩ := ih hc
      exact ⟨v :: newer, r', older, rfl, hnone⟩
    · rcases List.mem_cons.mp h with rfl | h
      · exact ⟨[], r, votes, rfl, fun c hc => hold ⟨c, hc⟩⟩
      · exact absurd ⟨r, h⟩ hold

/-- A certified block is higher than what it links to. -/
theorem Caused.descends {links : B → B → Prop} (h : Caused S links votes)
    (hrise : Rising S votes) {x q : B} (hx : Certified S votes x) (hpos : 0 < S.height x)
    (hq : links x q) : S.height q < S.height x := by
  obtain ⟨r, hr, -⟩ := hx.common hx
  obtain ⟨newer, r', older, rfl, hnone⟩ := oldest_vote hr
  rcases h.before q hq with hzero | hcert
  · exact hzero ▸ hpos
  · -- a common voter has voted for `q` before anyone voted for `x`
    obtain ⟨c, hcx, hcq⟩ := hx.common hcert
    rcases List.mem_append.mp hcx with hnew | hcx
    · exact (List.pairwise_append.mp hrise).2.2 _ hnew _ (List.mem_cons_of_mem _ hcq) rfl
    · rcases List.mem_cons.mp hcx with heq | hold
      · exact (List.pairwise_cons.mp (List.pairwise_append.mp hrise).2.1).1 _ hcq
          (Prod.mk.inj heq).1.symm
      · exact absurd hold (hnone c)

/-! ## Agreement -/

theorem Guarded.inOrder {guards : B → B → Prop} {newer older : List (R × B)} {r : R} {x : B}
    (h : Guarded S guards (newer ++ (r, x) :: older)) : InOrder S guards r x older := by
  induction newer with
  | nil => exact h.1
  | cons v newer ih => exact ih h.2

/-- The history up to the vote that certifies the block. -/
theorem Certified.first {b : B} (h : Certified S votes b) :
    ∃ newer first, votes = newer ++ first ∧ Certified S first b ∧
      ∀ v older, first = v :: older → ¬ Certified S older b := by
  induction votes with
  | nil => exact ⟨[], [], rfl, h, fun v older heq => by cases heq⟩
  | cons v votes ih =>
    by_cases hc : Certified S votes b
    · obtain ⟨newer, first, heq, hfirst, hmin⟩ := ih hc
      exact ⟨v :: newer, first, by rw [heq, List.cons_append], hfirst, hmin⟩
    · refine ⟨[], v :: votes, rfl, h, fun v' older heq => ?_⟩
      rw [List.cons.injEq] at heq
      exact heq.2 ▸ hc

/-- Below a block that guards `b`, down to `b`, certified blocks extend `b`. -/
def Paved (S : Setting R B) (guards : B → B → Prop) (votes : List (R × B)) : Prop :=
  ∀ g b, Certified S votes g → guards g b → 0 < S.height b → S.above g b ∧
    ∀ k, S.height b ≤ k → k < S.height g →
      ∃ c, Certified S votes c ∧ S.height c = k ∧ S.above c b

/-- A certified block extends what a certified block guards, unless it is lower. -/
theorem agreement {guards : B → B → Prop} (hrise : Rising S votes)
    (hguard : Guarded S guards votes) (hpaved : Paved S guards votes) {g b w : B}
    (hgb : guards g b) (hb : 0 < S.height b) (hg : Certified S votes g)
    (hw : Certified S votes w) (hbw : S.height b ≤ S.height w) : S.above w b := by
  generalize hn : S.height w = n at hbw
  induction n using Nat.strong_induction_on generalizing w with
  | _ n ih =>
    obtain ⟨hab, hpath⟩ := hpaved g b hg hgb hb
    by_cases hwg : n < S.height g
    · -- between `g` and `b` there is one certified block of each height
      obtain ⟨c, hc, hheight, hcb⟩ := hpath n hbw hwg
      rw [hrise.certified_unique hw hc (hn.trans hheight.symm)]
      exact hcb
    · obtain ⟨newer, first, rfl, hfirst, hmin⟩ := hw.first
      obtain ⟨r, hrg, hrw⟩ := hg.common hfirst
      obtain ⟨between, older, rfl⟩ := List.append_of_mem hrw
      rw [← List.append_assoc] at hrise hguard hrg
      rcases hrise.compare hrg with hlt | rfl | ⟨hrg, hlt⟩
      · omega
      · exact hab
      -- the vote for `w` is the newer one, and `w` was not certified before
      rcases hguard.inOrder with hold | ⟨u, hu, hwu, hne, hlocked⟩
      · cases between with
        | nil => exact absurd hold (hmin _ _ rfl)
        | cons v between =>
          exact absurd (hold.mono fun v hv => by simp [hv]) (hmin _ _ (List.cons_append ..))
      · have hbu := hlocked g b hrg hgb
        rcases hu with hzero | hu
        · omega
        · have hlt' := S.height_lt w u hwu hne.symm
          have hu' := hu.mono fun v hv => List.mem_append_right newer
            (List.mem_append_right between (List.mem_cons_of_mem (r, w) hv))
          exact S.trans w u b hwu (ih (S.height u) (hn ▸ hlt') hu' rfl hbu)

end chained_votes
