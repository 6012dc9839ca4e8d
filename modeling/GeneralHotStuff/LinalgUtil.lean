-- The linear algebra of `linalg_util.cpp` over the integers modulo `p`, as the
-- C++ code computes it: integer work matrices that are reduced late, and an
-- error where NTL raises one or an index leaves its range.
import GeneralHotStuff.RowEchelon
import Mathlib.Algebra.Field.ZMod

namespace general_hotstuff.linalg

open row_echelon (swapRows)

/-- `NTL::Mat`. An entry outside of the rows and columns means nothing. -/
structure Mat (α : Type) where
  NumRows : ℕ
  NumCols : ℕ
  entry : ℕ → ℕ → α

/-- `NTL::Vec`. -/
structure Vec (α : Type) where
  length : ℕ
  entry : ℕ → α

def Vec.toList {α : Type} (v : Vec α) : List α := (List.range v.length).map v.entry

def Mat.transpose {α : Type} (A : Mat α) : Mat α :=
  ⟨A.NumCols, A.NumRows, fun i j => A.entry j i⟩

/-- The product of a matrix and a vector. -/
def Mat.mulVec {p : ℕ} (A : Mat (ZMod p)) (v : Vec (ZMod p)) : Vec (ZMod p) :=
  ⟨A.NumRows, fun i => ∑ j ∈ Finset.range A.NumCols, A.entry i j * v.entry j⟩

/-! ## Modular arithmetic of NTL -/

/-- The representative in `[0, p)`. -/
def rep {p : ℕ} (x : ZMod p) : ℤ := x.val

def MulMod (a b : ℤ) (p : ℕ) : ℤ := a * b % p

def NegateMod (a : ℤ) (p : ℕ) : ℤ := -a % p

/-- The inverse modulo `p` of an operand in `[0, p)`. NTL raises an error when there is none. -/
def InvMod (a : ℤ) (p : ℕ) : Option ℤ :=
  if 0 ≤ a ∧ a < p then
    ((List.range p).find? fun x : ℕ => a * x % p = 1).map Int.ofNat
  else none

/-- `inv` of `ZZ_p`, which raises an error at zero. -/
def inv {p : ℕ} (a : ZMod p) : Option (ZMod p) := if a = 0 then none else some a⁻¹

/-! ## The loop bodies that `gauss` and `PLU` share -/

/-- `rem(M[i][k], M[i][k], p)` for every row `i` from `l` on. -/
def reduceColumn (p n l k : ℕ) (M : ℕ → ℕ → ℤ) : ℕ → ℕ → ℤ := fun i j =>
  if l ≤ i ∧ i < n ∧ j = k then M i j % p else M i j

/-- `pos`: the first row from `l` on that is not zero in column `k`, or `none` for `-1`. -/
def findPivot (n l k : ℕ) (M : ℕ → ℕ → ℤ) : Option ℕ :=
  (List.range' l (n - l)).find? fun i => M i k ≠ 0

/-- `rem(M[l][j], M[l][j], p)` for every column `j` past `k`. -/
def reducePivotRow (p m l k : ℕ) (M : ℕ → ℕ → ℤ) : ℕ → ℕ → ℤ := fun i j =>
  if i = l ∧ k < j ∧ j < m then M i j % p else M i j

/-! ## gauss -/

/-- The variables of `gauss` between two turns of its loop. -/
structure GaussState where
  M : ℕ → ℕ → ℤ
  l : ℕ
  pivot_cols : List ℕ

/-- `M[i] = M[i] + M[l]*M[i,k]*piv` for every row past `l` that is not zero in column `k`.
A row is read and written in its own turn only, so all rows are updated at once here. -/
def gaussEliminate (p n m l k : ℕ) (piv : ℤ) (M : ℕ → ℕ → ℤ) : ℕ → ℕ → ℤ := fun i j =>
  if l < i ∧ i < n ∧ M i k ≠ 0 then
    if j = k then 0
    else if k < j ∧ j < m then M l j * MulMod (M i k) piv p + M i j
    else M i j
  else M i j

/-- One turn of the loop of `gauss`, for column `k`. Once `l` is `n` the loop has ended. -/
def gaussStep (p n m k : ℕ) (st : GaussState) : Option GaussState :=
  if st.l < n then
    let M := reduceColumn p n st.l k st.M
    match findPivot n st.l k M with
    | none => some { st with M := M }
    | some pos =>
      let M := swapRows pos st.l M
      (InvMod (M st.l k) p).map fun inverse =>
        let M := reducePivotRow p m st.l k M
        { M := gaussEliminate p n m st.l k (NegateMod inverse p) M
          l := st.l + 1
          pivot_cols := st.pivot_cols ++ [k] }
  else some st

/-- The first `k` turns of the loop of `gauss`. -/
def gaussLoop (p n m : ℕ) (M : ℕ → ℕ → ℤ) : ℕ → Option GaussState
  | 0 => some ⟨M, 0, []⟩
  | k + 1 => (gaussLoop p n m M k).bind (gaussStep p n m k)

/-- The reduced matrix and its pivot columns. -/
def gauss {p : ℕ} (M_in : Mat (ZMod p)) : Option (Mat (ZMod p) × List ℕ) :=
  (gaussLoop p M_in.NumRows M_in.NumCols (fun i j => rep (M_in.entry i j)) M_in.NumCols).map
    fun st => (⟨M_in.NumRows, M_in.NumCols, fun i j => (st.M i j : ZMod p)⟩, st.pivot_cols)

/-! ## PLU -/

/-- The variables of `PLU` between two turns of its loop. -/
structure PluState (p : ℕ) where
  M : ℕ → ℕ → ℤ
  l : ℕ
  P : ℕ → ℕ → ZMod p
  L : ℕ → ℕ → ZMod p

def swapCols {α : Type} (a b : ℕ) (A : ℕ → ℕ → α) : ℕ → ℕ → α :=
  fun i j => A i (Equiv.swap a b j)

/-- As `gaussEliminate`, with no test for a zero in column `k`. -/
def pluEliminate (p n m l k : ℕ) (piv : ℤ) (M : ℕ → ℕ → ℤ) : ℕ → ℕ → ℤ := fun i j =>
  if l < i ∧ i < n then
    if j = k then 0
    else if k < j ∧ j < m then M l j * MulMod (M i k) piv p + M i j
    else M i j
  else M i j

/-- `conv(L[i][l], t1)` with the negated factor of each row `i` past `l`. -/
def recordFactors {p : ℕ} (n l k : ℕ) (piv : ℤ) (M : ℕ → ℕ → ℤ) (L : ℕ → ℕ → ZMod p) :
    ℕ → ℕ → ZMod p := fun i j =>
  if l < i ∧ i < n ∧ j = l then (NegateMod (MulMod (M i k) piv p) p : ZMod p) else L i j

/-- One turn of the loop of `PLU`, for column `k`. -/
def pluStep (p n m k : ℕ) (st : PluState p) : Option (PluState p) :=
  if st.l < n then
    let M := reduceColumn p n st.l k st.M
    match findPivot n st.l k M with
    | none => some { st with M := M }
    | some pos =>
      let M := if pos ≠ st.l then swapRows pos st.l M else M
      let P := if pos ≠ st.l then swapRows pos st.l st.P else st.P
      let L := if pos ≠ st.l then swapCols pos st.l (swapRows pos st.l st.L) else st.L
      (InvMod (M st.l k) p).map fun inverse =>
        let piv := NegateMod inverse p
        let M := reducePivotRow p m st.l k M
        { M := pluEliminate p n m st.l k piv M
          l := st.l + 1
          P := P
          L := recordFactors n st.l k piv M L }
  else some st

def ident (p : ℕ) : ℕ → ℕ → ZMod p := fun i j => if i = j then 1 else 0

/-- The first `k` turns of the loop of `PLU`. -/
def pluLoop (p n m : ℕ) (M : ℕ → ℕ → ℤ) : ℕ → Option (PluState p)
  | 0 => some ⟨M, 0, ident p, ident p⟩
  | k + 1 => (pluLoop p n m M k).bind (pluStep p n m k)

structure PluResult (p : ℕ) where
  P : Mat (ZMod p)
  L : Mat (ZMod p)
  U : Mat (ZMod p)

def PLU {p : ℕ} (M_in : Mat (ZMod p)) : Option (PluResult p) :=
  let n := M_in.NumRows
  let m := M_in.NumCols
  (pluLoop p n m (fun i j => rep (M_in.entry i j)) m).map fun st =>
    { P := ⟨n, n, st.P⟩, L := ⟨n, n, st.L⟩, U := ⟨n, m, fun i j => (st.M i j : ZMod p)⟩ }

/-! ## The two substitutions -/

/-- The first `i` turns of the loop of `solveByForwardSubstitution`. -/
def forwardLoop {p : ℕ} (L : Mat (ZMod p)) (b : Vec (ZMod p)) : ℕ → Option (ℕ → ZMod p)
  | 0 => some fun _ => 0
  | i + 1 => (forwardLoop L b i).bind fun x =>
    let sum := ∑ j ∈ Finset.range i, L.entry i j * x j
    (inv (L.entry i i)).map fun linv => Function.update x i ((b.entry i - sum) * linv)

def solveByForwardSubstitution {p : ℕ} (L : Mat (ZMod p)) (b : Vec (ZMod p)) :
    Option (Vec (ZMod p)) :=
  (forwardLoop L b L.NumCols).map fun x => ⟨L.NumCols, x⟩

/-- One turn of the loop of `solveByBackwardSubstitution`, for row `i` with its pivot in
column `j`. A pivot in column `m` is out of the range of `x`. -/
def backwardStep {p : ℕ} (M : Mat (ZMod p)) (m : ℕ) (x : ℕ → ZMod p) :
    ℕ × ℕ → Option (ℕ → ZMod p)
  | (j, i) =>
    if j < m then
      let sum := ∑ k ∈ Finset.Ico (j + 1) m, M.entry i k * x k
      (inv (M.entry i j)).map fun linv => Function.update x j ((M.entry i m - sum) * linv)
    else none

/-- The pivots are taken from the last row up, and the free variables stay 0. -/
def solveByBackwardSubstitution {p : ℕ} (M : Mat (ZMod p)) (pivot_cols : List ℕ) :
    Option (Vec (ZMod p)) :=
  if 0 < M.NumCols then
    let m := M.NumCols - 1
    (pivot_cols.zipIdx.reverse.foldlM (backwardStep M m) fun _ => 0).map fun x => ⟨m, x⟩
  else none

end general_hotstuff.linalg
