-- The quorum systems of `quorums.cpp`: formulas of theta operators, and the
-- monotone span program that the insertion algorithm builds from a formula.
import GeneralHotStuff.LinalgUtil

namespace general_hotstuff.quorums

open general_hotstuff.linalg

/-- The number of a replica. -/
abbrev ReplicaID := ℕ

/-- The modulus that `hotstuff_app` and `hotstuff_client` set in a build without BLS. -/
def appModulus : ℕ := 101

/-- How many Byzantine replicas `HotStuffBase::start` tolerates among `n`: a third of the
peers, which are all replicas but the own one. -/
def start_nfaulty (n : ℕ) : ℕ := (n - 1) / 3

/-- The quorum size that `HotStuffCore::on_init` sets. -/
def on_init_nmajority (nreplicas nfaulty : ℕ) : ℕ := nreplicas - nfaulty

/-- At least `threshold` of the children, which are replicas and smaller formulas. -/
inductive Theta where
  | mk (threshold : ℤ) (elements : List ReplicaID) (nestedElements : List Theta)

namespace Theta

def threshold : Theta → ℤ
  | .mk threshold _ _ => threshold

def elements : Theta → List ReplicaID
  | .mk _ elements _ => elements

def nestedElements : Theta → List Theta
  | .mk _ _ nestedElements => nestedElements

end Theta

/-! ## Evaluation of a formula -/

mutual

/-- `AccessStructure::evalFomula`. -/
def evalFomula : Theta → Finset ReplicaID → Bool
  | .mk threshold elements nestedElements, reps =>
    let true_vals := elements.countP (· ∈ reps) + evalNested nestedElements reps
    decide (threshold ≤ (true_vals : ℤ))

/-- The part of `true_vals` that the nested formulas give. -/
def evalNested : List Theta → Finset ReplicaID → ℕ
  | [], _ => 0
  | nested_theta :: rest, reps =>
    (if evalFomula nested_theta reps then 1 else 0) + evalNested rest reps

end

/-! ## InsertionMspCreator -/

/-- The powers of the points `1, …, numPoints`. A negative dimension is an error of NTL. -/
def getVandermonde (p : ℕ) (threshold : ℤ) (numPoints : ℕ) : Option (Mat (ZMod p)) :=
  if 0 ≤ threshold then
    some ⟨numPoints, threshold.toNat, fun i j => ((i + 1 : ℕ) : ZMod p) ^ j⟩
  else none

/-- `M1(r -> M2)`. An entry that no loop writes is zero. The row `r` has to be a row of `M1`,
and with no column in `M2` the copies would write past the columns of the result. -/
def performInsertion {p : ℕ} (M1 M2 : Mat (ZMod p)) (r : ℕ) : Option (Mat (ZMod p)) :=
  let m1 := M1.NumRows
  let d1 := M1.NumCols
  let m2 := M2.NumRows
  let d2 := M2.NumCols
  if r < m1 ∧ (1 ≤ d2 ∨ m1 + m2 = 1 ∧ 1 ≤ d1) then
    some
      { NumRows := m1 + m2 - 1
        NumCols := d1 + d2 - 1
        entry := fun i j =>
          if i < r then
            if j < d1 then M1.entry i j else 0
          else if i < r + m2 then
            if j < d1 then M1.entry r j else M2.entry (i - r) (j - d1 + 1)
          else
            if j < d1 then M1.entry (i - m2 + 1) j else 0 }
  else none

/-- What `insertNextTheta` reads and writes. -/
structure InsertState (p : ℕ) where
  M : Mat (ZMod p)
  L : List ReplicaID
  insertionIndex : ℕ

mutual

def insertNextTheta {p : ℕ} (st : InsertState p) : Theta → Option (InsertState p)
  | .mk threshold elements nestedElements =>
    (getVandermonde p threshold (elements.length + nestedElements.length)).bind fun M2 =>
      (performInsertion st.M M2 st.insertionIndex).bind fun M =>
        insertNested ⟨M, st.L ++ elements, st.insertionIndex + elements.length⟩ nestedElements

/-- The loop of `insertNextTheta` over the nested formulas. -/
def insertNested {p : ℕ} (st : InsertState p) : List Theta → Option (InsertState p)
  | [] => some st
  | t :: rest => (insertNextTheta st t).bind fun st => insertNested st rest

end

/-- The matrix `M`, the owners `L` of its rows, and what `performPLU` adds. -/
structure Msp (p : ℕ) where
  M : Mat (ZMod p)
  L : List ReplicaID
  U : Mat (ZMod p)
  y : Vec (ZMod p)

namespace Msp

variable {p : ℕ}

def m (msp : Msp p) : ℕ := msp.M.NumRows

def d (msp : Msp p) : ℕ := msp.M.NumCols

/-- The first unit vector. With no column there is no first entry to write. -/
def e1 (msp : Msp p) : Option (Vec (ZMod p)) :=
  if 0 < msp.d then some ⟨msp.d, fun j => if j = 0 then 1 else 0⟩ else none

end Msp

def createMspWithInsertionAlgorithm (p : ℕ) (t : Theta) : Option (Msp p) :=
  (insertNextTheta ⟨⟨1, 1, fun _ _ => 1⟩, [], 0⟩ t).map fun st =>
    { M := st.M, L := st.L, U := ⟨0, 0, fun _ _ => 0⟩, y := ⟨0, fun _ => 0⟩ }

def performPLU {p : ℕ} (msp : Msp p) : Option (Msp p) :=
  (PLU msp.M.transpose).bind fun f =>
    msp.e1.bind fun e1 =>
      (solveByForwardSubstitution f.L (f.P.mulVec e1)).map fun y => { msp with U := f.U, y := y }

def create (p : ℕ) (t : Theta) : Option (Msp p) :=
  (createMspWithInsertionAlgorithm p t).bind performPLU

/-! ## Msp -/

namespace Msp

variable {p : ℕ}

/-- The numbers of the rows of `M` that the replicas own, in the order of the rows. -/
def ownedRows (msp : Msp p) (reps : Finset ReplicaID) : List ℕ :=
  (List.range msp.m).filter fun i => decide (msp.L.getD i 0 ∈ reps)

def getColsOfUOwnedByReps (msp : Msp p) (reps : Finset ReplicaID) : Mat (ZMod p) :=
  let cols := msp.ownedRows reps
  ⟨msp.d, cols.length, fun i j => msp.U.entry i (cols.getD j 0)⟩

/-- The assertion is that the two have the same number of rows. -/
def getAugmentedMatrix (coefMatrix : Mat (ZMod p)) (constMatrix : Vec (ZMod p)) :
    Option (Mat (ZMod p)) :=
  if coefMatrix.NumRows = constMatrix.length then
    some
      { NumRows := coefMatrix.NumRows
        NumCols := coefMatrix.NumCols + 1
        entry := fun i j =>
          if j < coefMatrix.NumCols then coefMatrix.entry i j else constMatrix.entry i }
  else none

def getRowsOfMOwnedByReps (msp : Msp p) (reps : Finset ReplicaID) : Mat (ZMod p) :=
  let rows := msp.ownedRows reps
  ⟨rows.length, msp.d, fun i j => msp.M.entry (rows.getD i 0) j⟩

/-- The system `Ma^T x = e1` has a solution when the ranks of `Ma^T` and `Ma^T|e1` agree. The
ranks are what `ntl_gauss` returns, which is `gauss` of NTL. -/
def isAuthorizedGroupWithoutPLU (ntl_gauss : Mat (ZMod p) → ℕ) (msp : Msp p)
    (reps : Finset ReplicaID) : Option Bool :=
  let Ma_T := (msp.getRowsOfMOwnedByReps reps).transpose
  msp.e1.bind fun e1 =>
    (getAugmentedMatrix Ma_T e1).map fun Ma_T_augm =>
      decide (ntl_gauss Ma_T = ntl_gauss Ma_T_augm)

/-- The system `Ua x = y` has a solution when the ranks of `Ua` and `Ua|y` agree. -/
def isAuthorizedGroupWithPLU (msp : Msp p) (reps : Finset ReplicaID) : Option Bool :=
  let Ua := msp.getColsOfUOwnedByReps reps
  (getAugmentedMatrix Ua msp.y).bind fun Ua_augm =>
    (gauss Ua).bind fun (_, pivots) =>
      (gauss Ua_augm).map fun (_, pivots_augm) => decide (pivots.length = pivots_augm.length)

def isAuthorizedGroup (msp : Msp p) (reps : Finset ReplicaID) : Option Bool :=
  msp.isAuthorizedGroupWithPLU reps

/-- The solution of `Ua x = y` with zero for the free variables. -/
def getRecombinationVector (msp : Msp p) (reps : Finset ReplicaID) : Option (Vec (ZMod p)) :=
  let Ua := msp.getColsOfUOwnedByReps reps
  (getAugmentedMatrix Ua msp.y).bind fun Ua_augm =>
    (gauss Ua_augm).bind fun (Ua_augm, pivot_cols) =>
      solveByBackwardSubstitution Ua_augm pivot_cols

/-- What the dealer of a secret draws and gives away. -/
structure Dealing (p : ℕ) where
  secret : ZMod p
  shares : Vec (ZMod p)
  owners : List ReplicaID

/-- The vector `r` is the one that `random_vec_ZZ_p` draws. -/
def shareRandSecret (msp : Msp p) (r : Vec (ZMod p)) : Dealing p where
  secret := r.entry 0
  shares := msp.M.mulVec r
  owners := msp.L

end Msp

end general_hotstuff.quorums
