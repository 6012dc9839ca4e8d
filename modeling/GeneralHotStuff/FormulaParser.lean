-- `from_json` of `quorums.cpp` on every value of `nlohmann::json`: which documents it takes
-- for a formula, and what the formula says. It checks no range, so numbers are cut.
import GeneralHotStuff.Quorums

namespace general_hotstuff.quorums

/-! ## Values -/

/-- A value of `nlohmann::json`. The members of an object stand in the order of their keys. -/
inductive Json where
  | null
  | boolean (b : Bool)
  | number_integer (n : Int64)
  | number_unsigned (n : UInt64)
  | number_float (x : ℚ)
  | string (s : String)
  | array (elements : List Json)
  | object (members : List (String × Json))

/-- What reading a value ends in: a result, one of two exceptions, or a conversion that C++ leaves
undefined. -/
inductive Read (α : Type) where
  | ok (a : α)
  | type_error
  | out_of_range
  | undefined

namespace Read

variable {α β : Type}

def andThen : Read α → (α → Read β) → Read β
  | ok a, f => f a
  | type_error, _ => type_error
  | out_of_range, _ => out_of_range
  | undefined, _ => undefined

instance : Monad Read where
  pure := ok
  bind := andThen

theorem id_map (r : Read α) : id <$> r = r := by
  cases r with
  | ok a => rfl
  | type_error => rfl
  | out_of_range => rfl
  | undefined => rfl

theorem bind_bind {γ : Type} (r : Read α) (f : α → Read β) (g : β → Read γ) :
    r >>= f >>= g = r >>= fun a => f a >>= g := by
  cases r with
  | ok a => rfl
  | type_error => rfl
  | out_of_range => rfl
  | undefined => rfl

instance : LawfulMonad Read := LawfulMonad.mk' Read id_map (fun _ _ => rfl) bind_bind

/-- `try` with a handler for `json::type_error`. -/
def catch_type_error : Read α → Read α → Read α
  | type_error, handler => handler
  | r, _ => r

@[simp] theorem pure_eq_ok (a b : α) : (pure a : Read α) = ok b ↔ a = b := by
  change ok a = ok b ↔ a = b
  rw [ok.injEq]

@[simp] theorem bind_eq_ok {r : Read α} {f : α → Read β} {b : β} :
    r >>= f = ok b ↔ ∃ a, r = ok a ∧ f a = ok b := by
  change r.andThen f = ok b ↔ _
  cases r with
  | ok a => simp [andThen]
  | type_error => simp [andThen]
  | out_of_range => simp [andThen]
  | undefined => simp [andThen]

theorem catch_eq_ok {r handler : Read α} {a : α} :
    r.catch_type_error handler = ok a ↔ r = ok a ∨ r = type_error ∧ handler = ok a := by
  cases r with
  | ok b => simp [catch_type_error]
  | type_error => simp [catch_type_error]
  | out_of_range => simp [catch_type_error]
  | undefined => simp [catch_type_error]

end Read

namespace Json

/-- `json::at`. -/
def «at» (key : String) : Json → Read Json
  | object members =>
    match members.lookup key with
    | some value => .ok value
    | none => .out_of_range
  | _ => .type_error

theorem at_cons (key k : String) (value : Json) (members : List (String × Json)) :
    (object ((k, value) :: members)).at key =
      if k = key then .ok value else (object members).at key := by
  unfold «at»
  by_cases hk : k = key
  · simp [hk]
  · have hne : (key == k) = false := beq_false_of_ne (Ne.symm hk)
    simp [List.lookup_cons, hk, hne]

/-- What an iterator runs over: nothing in `null`, and a scalar is its own only element. -/
def values : Json → List Json
  | null => []
  | array elements => elements
  | object members => members.map Prod.snd
  | j => [j]

/-- The number that stands in the document, without its fraction. -/
def number : Json → Option ℤ
  | boolean b => some b.toInt
  | number_integer n => some n.toInt
  | number_unsigned n => some n.toNat
  | number_float x => some (x.num.tdiv x.den)
  | _ => none

/-- A float outside of the target type has no conversion. -/
def convertible (low high : ℤ) : Json → Bool
  | number_float x => decide (low ≤ x.num.tdiv x.den ∧ x.num.tdiv x.den < high)
  | _ => true

/-- Numbers and booleans are converted by `static_cast`, which cuts integers to the target type. -/
def get_arithmetic {α : Type} (low high : ℤ) (cut : ℤ → α) (j : Json) : Read α :=
  match j.number with
  | some n => if j.convertible low high then .ok (cut n) else .undefined
  | none => .type_error

def cut_int (n : ℤ) : ℤ := n.bmod (2 ^ 32)

def cut_rid (n : ℤ) : ReplicaID := (n % 2 ^ 16).toNat

def get_int : Json → Read ℤ := get_arithmetic (-2 ^ 31) (2 ^ 31) cut_int

def get_rid : Json → Read ReplicaID := get_arithmetic 0 (2 ^ 16) cut_rid

end Json

/-! ## from_json -/

/-- The elements and the nested formulas that were pushed. -/
abbrev Pushed := List ReplicaID × List Theta

/-- `ReplicaID rid = (*it)`. -/
def push_rid (it : Json) : Read Pushed := do
  let rid ← it.get_rid
  pure ([rid], [])

/-- The body of `from_json`, given what its loop over `out-of` ends in. -/
def make_theta (j : Json) (out_of : Read Pushed) : Read Theta := do
  let select ← j.at "select"
  let threshold ← select.get_int
  let pushed ← out_of
  pure (.mk threshold pushed.1 pushed.2)

-- The recursion follows the document. `from_json_eq` and `turn_eq` below say that it is the one
-- of the source.
mutual

/-- One turn of the loop. -/
def turn : Json → Read Pushed
  | .object members =>
    ((Json.object members).at "select" >>= fun _ => do
      let nestedElement ← make_theta (.object members) (read_out_of members)
      pure ([], [nestedElement])).catch_type_error (push_rid (.object members))
  | it => push_rid it

/-- `j.at("out-of")` and the loop over it. -/
def read_out_of : List (String × Json) → Read Pushed
  | [] => .out_of_range
  | (key, j2) :: rest => if key = "out-of" then read_values j2 else read_out_of rest

def read_values : Json → Read Pushed
  | .null => .ok ([], [])
  | .array elements => read_elements elements
  | .object members => read_members members
  | it => push_rid it

def read_elements : List Json → Read Pushed
  | [] => .ok ([], [])
  | it :: rest => do
    let first ← turn it
    let pushed ← read_elements rest
    pure (first.1 ++ pushed.1, first.2 ++ pushed.2)

def read_members : List (String × Json) → Read Pushed
  | [] => .ok ([], [])
  | (_, it) :: rest => do
    let first ← turn it
    let pushed ← read_members rest
    pure (first.1 ++ pushed.1, first.2 ++ pushed.2)

end

def from_json : Json → Read Theta
  | .object members => make_theta (.object members) (read_out_of members)
  | _ => .type_error

theorem read_members_eq (members : List (String × Json)) :
    read_members members = read_elements (members.map Prod.snd) := by
  induction members with
  | nil => rfl
  | cons m members ih =>
    unfold read_members
    rw [List.map_cons, read_elements, ih]

/-- A single turn is the whole loop of a scalar. -/
theorem push_rid_append (it : Json) :
    (push_rid it >>= fun first => pure (first.1 ++ [], first.2 ++ [])) = push_rid it := by
  unfold push_rid
  cases it.get_rid with
  | ok rid => rfl
  | type_error => rfl
  | out_of_range => rfl
  | undefined => rfl

/-- The loop runs over the values. -/
theorem read_values_eq (j2 : Json) : read_values j2 = read_elements j2.values := by
  cases j2 with
  | null => rfl
  | array elements => rfl
  | object members => exact read_members_eq members
  | boolean b => exact (push_rid_append (.boolean b)).symm
  | number_integer n => exact (push_rid_append (.number_integer n)).symm
  | number_unsigned n => exact (push_rid_append (.number_unsigned n)).symm
  | number_float x => exact (push_rid_append (.number_float x)).symm
  | string s => exact (push_rid_append (.string s)).symm

theorem read_out_of_eq (members : List (String × Json)) :
    read_out_of members =
      (Json.object members).at "out-of" >>= fun j2 => read_elements j2.values := by
  induction members with
  | nil => rfl
  | cons m members ih =>
    obtain ⟨key, j2⟩ := m
    unfold read_out_of
    rw [Json.at_cons]
    split
    · exact read_values_eq j2
    · exact ih

/-- The body of `from_json`. -/
theorem from_json_eq (j : Json) : from_json j = (do
    let select ← j.at "select"
    let threshold ← select.get_int
    let j2 ← j.at "out-of"
    let pushed ← read_elements j2.values
    pure (.mk threshold pushed.1 pushed.2)) := by
  cases j with
  | object members =>
    change make_theta (.object members) (read_out_of members) = _
    unfold make_theta
    simp only [read_out_of_eq, bind_assoc]
  | _ => rfl

/-- The body of the loop. -/
theorem turn_eq (it : Json) : turn it =
    (it.at "select" >>= fun _ => do
      let nestedElement ← from_json it
      pure ([], [nestedElement])).catch_type_error (push_rid it) := by
  cases it with
  | object members => rfl
  | _ => rfl

/-! ## What is accepted -/

/-- What a document says: the number of a replica, or at least `select` of the entries. -/
inductive Entry where
  | replica (n : ℤ)
  | formula (select : ℤ) (entries : List Entry)

namespace Entry

mutual

def holds (reps : Finset ReplicaID) : Entry → Bool
  | replica n => decide (0 ≤ n ∧ n.toNat ∈ reps)
  | formula select entries => decide (select ≤ (countHolds reps entries : ℤ))

def countHolds (reps : Finset ReplicaID) : List Entry → ℕ
  | [] => 0
  | e :: rest => (if holds reps e then 1 else 0) + countHolds reps rest

end

mutual

/-- What is left of the numbers after the conversions. -/
def cut : Entry → Entry
  | replica n => replica (Json.cut_rid n)
  | formula select entries => formula (Json.cut_int select) (cutAll entries)

def cutAll : List Entry → List Entry
  | [] => []
  | e :: rest => cut e :: cutAll rest

end

mutual

/-- The replicas and the formulas among the entries, each in their order. -/
def listed : List Entry → Pushed
  | [] => ([], [])
  | e :: rest =>
    let first := pushed e
    let more := listed rest
    (first.1 ++ more.1, first.2 ++ more.2)

def pushed : Entry → Pushed
  | replica n => ([n.toNat], [])
  | formula select entries => ([], [.mk select (listed entries).1 (listed entries).2])

end

end Entry

mutual

/-- The document says this: a number stands for a replica, an object for a formula. -/
inductive Denotes : Json → Entry → Prop where
  | replica {j : Json} {n : ℤ} (hn : j.number = some n) (hc : j.convertible 0 (2 ^ 16) = true) :
      Denotes j (.replica n)
  | formula {j select j2 : Json} {n : ℤ} {entries : List Entry} (hs : j.at "select" = .ok select)
      (hn : select.number = some n) (hc : select.convertible (-2 ^ 31) (2 ^ 31) = true)
      (ho : j.at "out-of" = .ok j2) (he : DenoteAll j2.values entries) :
      Denotes j (.formula n entries)

inductive DenoteAll : List Json → List Entry → Prop where
  | nil : DenoteAll [] []
  | cons {it : Json} {e : Entry} {its : List Json} {entries : List Entry} (h : Denotes it e)
      (hs : DenoteAll its entries) : DenoteAll (it :: its) (e :: entries)

end

theorem get_arithmetic_eq_ok {α : Type} {low high : ℤ} {convert : ℤ → α} {j : Json} {a : α} :
    j.get_arithmetic low high convert = .ok a ↔
      ∃ n, j.number = some n ∧ j.convertible low high = true ∧ convert n = a := by
  unfold Json.get_arithmetic
  cases hn : j.number with
  | none => simp
  | some n =>
    by_cases hc : j.convertible low high = true
    · simp [hc]
    · simp [hc]

theorem push_rid_eq_ok {it : Json} {pushed : Pushed} : push_rid it = .ok pushed ↔
    ∃ n, it.number = some n ∧ it.convertible 0 (2 ^ 16) = true ∧
      (Entry.replica n).cut.pushed = pushed := by
  unfold push_rid Json.get_rid
  simp only [Read.bind_eq_ok, get_arithmetic_eq_ok, Read.pure_eq_ok, Entry.cut, Entry.pushed,
    Int.toNat_natCast]
  constructor
  · rintro ⟨rid, ⟨n, hn, hc, rfl⟩, hpushed⟩
    exact ⟨n, hn, hc, hpushed⟩
  · rintro ⟨n, hn, hc, hpushed⟩
    exact ⟨_, ⟨n, hn, hc, rfl⟩, hpushed⟩

/-- The loop over these values reads what they say. -/
def LoopReads (its : List Json) : Prop := ∀ pushed, read_elements its = .ok pushed ↔
  ∃ entries, DenoteAll its entries ∧ Entry.listed (Entry.cutAll entries) = pushed

/-- The turn for this value reads what it says. -/
def TurnReads (it : Json) : Prop := ∀ pushed, turn it = .ok pushed ↔
  ∃ e, Denotes it e ∧ e.cut.pushed = pushed

theorem from_json_eq_ok {j : Json}
    (hloop : ∀ j2, j.at "out-of" = .ok j2 → LoopReads j2.values) (t : Theta) :
    from_json j = .ok t ↔ ∃ select entries, Denotes j (.formula select entries) ∧
      (Entry.formula select entries).cut.pushed = ([], [t]) := by
  rw [from_json_eq]
  unfold Json.get_int
  simp only [Read.bind_eq_ok, get_arithmetic_eq_ok, Read.pure_eq_ok, Entry.cut, Entry.pushed]
  constructor
  · rintro ⟨select, hs, threshold, ⟨n, hn, hc, rfl⟩, j2, ho, pushed, hpushed, ht⟩
    obtain ⟨entries, hentries, rfl⟩ := (hloop j2 ho pushed).mp hpushed
    exact ⟨n, entries, .formula hs hn hc ho hentries, by rw [ht]⟩
  · rintro ⟨n, entries, hdenotes, hpushed⟩
    cases hdenotes with
    | formula hs hn hc ho hentries =>
      refine ⟨_, hs, _, ⟨n, hn, hc, rfl⟩, _, ho, _, (hloop _ ho _).mpr ⟨entries, hentries, rfl⟩, ?_⟩
      simpa using hpushed

/-- A value that is no object is read as a number. -/
theorem turnReads_of_scalar {it : Json} (h : ∀ key, it.at key = .type_error) : TurnReads it := by
  intro pushed
  have hturn : turn it = push_rid it := by
    rw [turn_eq, h]
    rfl
  rw [hturn, push_rid_eq_ok]
  constructor
  · rintro ⟨n, hn, hc, hpushed⟩
    exact ⟨_, .replica hn hc, hpushed⟩
  · rintro ⟨e, hdenotes, hpushed⟩
    cases hdenotes with
    | replica hn hc => exact ⟨_, hn, hc, hpushed⟩
    | formula hs hn hc ho hentries =>
      rw [h] at hs
      cases hs

/-- An object is read as a formula: the number that the handler asks for is not there. -/
theorem turnReads_of_object {members : List (String × Json)}
    (hloop : ∀ j2, (Json.object members).at "out-of" = .ok j2 → LoopReads j2.values) :
    TurnReads (.object members) := by
  intro pushed
  have hrid : ∀ pushed, push_rid (.object members) ≠ .ok pushed := by
    intro pushed h
    obtain ⟨n, hn, -⟩ := push_rid_eq_ok.mp h
    cases hn
  rw [turn_eq, Read.catch_eq_ok]
  simp only [Read.bind_eq_ok, Read.pure_eq_ok, from_json_eq_ok hloop, hrid, and_false, or_false]
  constructor
  · rintro ⟨-, -, t, ⟨select, entries, hdenotes, hpushed⟩, rfl⟩
    exact ⟨_, hdenotes, hpushed⟩
  · rintro ⟨e, hdenotes, hpushed⟩
    cases hdenotes with
    | replica hn hc => cases hn
    | formula hs hn hc ho hentries =>
      refine ⟨_, hs, _, ⟨_, _, .formula hs hn hc ho hentries, rfl⟩, ?_⟩
      exact hpushed

theorem loopReads_nil : LoopReads [] := by
  intro pushed
  unfold read_elements
  rw [Read.ok.injEq]
  constructor
  · rintro rfl
    exact ⟨[], .nil, rfl⟩
  · rintro ⟨entries, hdenotes, hpushed⟩
    cases hdenotes
    exact hpushed

theorem loopReads_cons {it : Json} {its : List Json} (h : TurnReads it) (hs : LoopReads its) :
    LoopReads (it :: its) := by
  intro pushed
  unfold read_elements
  simp only [Read.bind_eq_ok, Read.pure_eq_ok]
  constructor
  · rintro ⟨first, hfirst, more, hmore, rfl⟩
    obtain ⟨e, he, rfl⟩ := (h first).mp hfirst
    obtain ⟨entries, hentries, rfl⟩ := (hs more).mp hmore
    exact ⟨e :: entries, .cons he hentries, rfl⟩
  · rintro ⟨entries, hdenotes, rfl⟩
    cases hdenotes with
    | cons he hentries =>
      exact ⟨_, (h _).mpr ⟨_, he, rfl⟩, _, (hs _).mpr ⟨_, hentries, rfl⟩, rfl⟩

-- Over the document: a value with what its iterator runs over, a list of values, and the members
-- of an object with the value under `out-of`.
mutual

theorem json_reads : ∀ j : Json, TurnReads j ∧ LoopReads j.values
  | .object members =>
    ⟨turnReads_of_object (members_read members).2, (members_read members).1⟩
  | .array elements => ⟨turnReads_of_scalar fun _ => rfl, elements_read elements⟩
  | .null => ⟨turnReads_of_scalar fun _ => rfl, loopReads_nil⟩
  | .boolean b =>
    have h : TurnReads (.boolean b) := turnReads_of_scalar fun _ => rfl
    ⟨h, loopReads_cons h loopReads_nil⟩
  | .number_integer n =>
    have h : TurnReads (.number_integer n) := turnReads_of_scalar fun _ => rfl
    ⟨h, loopReads_cons h loopReads_nil⟩
  | .number_unsigned n =>
    have h : TurnReads (.number_unsigned n) := turnReads_of_scalar fun _ => rfl
    ⟨h, loopReads_cons h loopReads_nil⟩
  | .number_float x =>
    have h : TurnReads (.number_float x) := turnReads_of_scalar fun _ => rfl
    ⟨h, loopReads_cons h loopReads_nil⟩
  | .string s =>
    have h : TurnReads (.string s) := turnReads_of_scalar fun _ => rfl
    ⟨h, loopReads_cons h loopReads_nil⟩

theorem elements_read : ∀ its : List Json, LoopReads its
  | [] => loopReads_nil
  | it :: its => loopReads_cons (json_reads it).1 (elements_read its)

theorem members_read : ∀ members : List (String × Json),
    LoopReads (members.map Prod.snd) ∧
      ∀ j2, (Json.object members).at "out-of" = .ok j2 → LoopReads j2.values
  | [] => ⟨loopReads_nil, fun _ h => by cases h⟩
  | (key, value) :: members => by
    have hvalue := json_reads value
    have hrest := members_read members
    refine ⟨loopReads_cons hvalue.1 hrest.1, ?_⟩
    intro j2 h
    rw [Json.at_cons] at h
    split at h
    · rw [← Read.ok.inj h]
      exact hvalue.2
    · exact hrest.2 j2 h

end

/-- The documents that are accepted, and what becomes of them. -/
theorem from_json_iff (j : Json) (t : Theta) : from_json j = .ok t ↔
    ∃ select entries, Denotes j (.formula select entries) ∧
      (Entry.formula select entries).cut.pushed = ([], [t]) := by
  apply from_json_eq_ok
  intro j2 _
  exact (json_reads j2).2

/-! ## What the formula says -/

theorem evalNested_append (ts us : List Theta) (reps : Finset ReplicaID) :
    evalNested (ts ++ us) reps = evalNested ts reps + evalNested us reps := by
  induction ts with
  | nil => simp [evalNested]
  | cons t ts ih => simp [evalNested, ih, Nat.add_assoc]

/-- How many of the replicas and formulas hold. -/
def Pushed.true_vals (p : Pushed) (reps : Finset ReplicaID) : ℕ :=
  p.1.countP (· ∈ reps) + evalNested p.2 reps

namespace Entry

mutual

theorem true_vals_pushed (reps : Finset ReplicaID) : ∀ e : Entry,
    Pushed.true_vals e.cut.pushed reps = if e.cut.holds reps then 1 else 0
  | replica n => by
    unfold Pushed.true_vals cut pushed holds
    by_cases h : Json.cut_rid n ∈ reps
    · simp [evalNested, h]
    · simp [evalNested, h]
  | formula select entries => by
    have h := true_vals_listed reps entries
    unfold Pushed.true_vals at h
    unfold Pushed.true_vals cut pushed holds
    simp only [List.countP_nil, evalNested, evalFomula, h, Nat.zero_add, Nat.add_zero]

/-- The counts of `evalFomula` and of the document agree. -/
theorem true_vals_listed (reps : Finset ReplicaID) : ∀ entries : List Entry,
    Pushed.true_vals (listed (cutAll entries)) reps = countHolds reps (cutAll entries)
  | [] => rfl
  | e :: entries => by
    have he := true_vals_pushed reps e
    have hes := true_vals_listed reps entries
    unfold Pushed.true_vals at he hes
    unfold Pushed.true_vals cutAll listed countHolds
    rw [← he, ← hes]
    simp only [List.countP_append, evalNested_append]
    omega

end

mutual

/-- Thresholds fit an `int` and numbers a `ReplicaID`. -/
def InRange : Entry → Prop
  | replica n => 0 ≤ n ∧ n < 2 ^ 16
  | formula select entries => (-2 ^ 31 ≤ select ∧ select < 2 ^ 31) ∧ AllInRange entries

def AllInRange : List Entry → Prop
  | [] => True
  | e :: rest => InRange e ∧ AllInRange rest

end

mutual

/-- Numbers in range are not cut. -/
theorem cut_of_inRange : ∀ e : Entry, e.InRange → e.cut = e
  | replica n, h => by
    unfold InRange at h
    unfold cut Json.cut_rid
    rw [Int.emod_eq_of_lt h.1 h.2, Int.toNat_of_nonneg h.1]
  | formula select entries, h => by
    unfold InRange at h
    unfold cut Json.cut_int
    rw [cutAll_of_inRange entries h.2, Int.bmod_eq_of_le (by omega) (by omega)]

theorem cutAll_of_inRange : ∀ entries : List Entry, AllInRange entries → cutAll entries = entries
  | [], _ => rfl
  | e :: rest, h => by
    unfold AllInRange at h
    unfold cutAll
    rw [cut_of_inRange e h.1, cutAll_of_inRange rest h.2]

end

end Entry

/-! ## The parser -/

/-- A whole number in the document. -/
def Json.integer : Json → Option ℤ
  | .number_integer n => some n.toInt
  | .number_unsigned n => some n.toNat
  | _ => none

theorem Json.number_of_integer {j : Json} {n : ℤ} (h : j.integer = some n) :
    j.number = some n ∧ ∀ low high, j.convertible low high = true := by
  cases j with
  | number_integer m => exact ⟨h, fun _ _ => rfl⟩
  | number_unsigned m => exact ⟨h, fun _ _ => rfl⟩
  | _ => cases h

mutual

/-- An object with a `select` between 1 and the length of its `out-of` array, whose entries are such
objects and numbers of 16 bits. -/
inductive WellFormed : Json → Prop where
  | mk {j select : Json} {n : ℤ} {entries : List Json} (hs : j.at "select" = .ok select)
      (hn : select.integer = some n) (ho : j.at "out-of" = .ok (.array entries))
      (hle : 1 ≤ n ∧ n ≤ entries.length) (he : AllWellFormed entries) : WellFormed j

inductive AllWellFormed : List Json → Prop where
  | nil : AllWellFormed []
  | replica {it : Json} {n : ℤ} {its : List Json} (hn : it.integer = some n)
      (hle : 0 ≤ n ∧ n ≤ 65535) (hs : AllWellFormed its) : AllWellFormed (it :: its)
  | formula {it : Json} {its : List Json} (h : WellFormed it) (hs : AllWellFormed its) :
      AllWellFormed (it :: its)

end

mutual

theorem WellFormed.denotes : ∀ {j : Json}, WellFormed j →
    ∃ select entries, Denotes j (.formula select entries)
  | _, .mk hs hn ho _ he => by
    obtain ⟨entries, hentries⟩ := he.denote
    obtain ⟨hnumber, hconv⟩ := Json.number_of_integer hn
    exact ⟨_, entries, .formula hs hnumber (hconv _ _) ho hentries⟩

theorem AllWellFormed.denote : ∀ {its : List Json}, AllWellFormed its →
    ∃ entries, DenoteAll its entries
  | _, .nil => ⟨[], .nil⟩
  | _, .replica hn _ hs => by
    obtain ⟨entries, hentries⟩ := hs.denote
    obtain ⟨hnumber, hconv⟩ := Json.number_of_integer hn
    exact ⟨_, .cons (.replica hnumber (hconv _ _)) hentries⟩
  | _, .formula h hs => by
    obtain ⟨select, es, hdenotes⟩ := h.denotes
    obtain ⟨entries, hentries⟩ := hs.denote
    exact ⟨_, .cons hdenotes hentries⟩

end

/-- `from_json` takes the documents that denote a formula, whatever their numbers, and no others.
It cuts the numbers, lists replicas and formulas in their order, and `evalFomula` decides as the
cut document says. Numbers in range are kept, and well-formed documents are taken. -/
theorem from_json_accepts_formulas_with_any_numbers :
    (∀ j t, from_json j = .ok t ↔ ∃ select entries, Denotes j (.formula select entries) ∧
      (Entry.formula select entries).cut.pushed = ([], [t])) ∧
    (∀ select entries t reps, (Entry.formula select entries).cut.pushed = ([], [t]) →
      evalFomula t reps = (Entry.formula select entries).cut.holds reps) ∧
    (∀ e : Entry, e.InRange → e.cut = e) ∧
    ∀ j, WellFormed j → ∃ t, from_json j = .ok t := by
  refine ⟨from_json_iff, ?_, Entry.cut_of_inRange, ?_⟩
  · intro select entries t reps hpushed
    have htrue := Entry.true_vals_pushed reps (.formula select entries)
    rw [hpushed] at htrue
    unfold Pushed.true_vals at htrue
    simp only [List.countP_nil, evalNested, Nat.zero_add, Nat.add_zero] at htrue
    cases heval : evalFomula t reps with
    | true =>
      by_contra hne
      rw [heval] at htrue
      simp [Bool.eq_false_of_not_eq_true (Ne.symm hne)] at htrue
    | false =>
      by_contra hne
      rw [heval] at htrue
      simp [Bool.eq_true_of_not_eq_false (Ne.symm hne)] at htrue
  · intro j hj
    obtain ⟨select, entries, hdenotes⟩ := hj.denotes
    exact ⟨_, (from_json_iff j _).mpr ⟨select, entries, hdenotes, rfl⟩⟩

/-- None of two entries, of which the first is no 16 bit number. -/
theorem a_formula_of_cut_numbers_is_accepted :
    let doc : Json := .object
      [("out-of", .array [.number_unsigned 65537, .number_unsigned 1]),
        ("select", .number_unsigned 0)]
    from_json doc = .ok (.mk 0 [1, 1] []) ∧ ¬WellFormed doc := by
  intro doc
  have hdenotes : Denotes doc (.formula 0 [.replica 65537, .replica 1]) :=
    .formula rfl rfl rfl rfl (.cons (.replica rfl rfl) (.cons (.replica rfl rfl) .nil))
  refine ⟨(from_json_iff doc _).mpr ⟨0, _, hdenotes, rfl⟩, ?_⟩
  rintro ⟨hs, hn, -, hle, -⟩
  cases hs
  cases hn
  exact absurd hle.1 (by decide)

end general_hotstuff.quorums
