-- Readers of a byte stream: each takes what it parses off the front and fails when too
-- little is left. Numbers are unsigned and little-endian. What was written is read back,
-- whatever follows it.
import Mathlib.Algebra.Group.Nat.Defs
import Mathlib.Data.List.Forall2

namespace data_stream

variable {α β : Type}

/-- A reader of an `α`: the value and the bytes that are left. -/
abbrev Reader (α : Type) := StateT (List UInt8) Option α

/-- The next `n` bytes. -/
def get_data (n : ℕ) : Reader (List UInt8) := fun s =>
  if n ≤ s.length then some (s.take n, s.drop n) else none

/-- The number that the bytes stand for. -/
def of_le : List UInt8 → ℕ
  | [] => 0
  | b :: bs => b.toNat + 256 * of_le bs

/-- A number of `n` bytes. -/
def read_uint (n : ℕ) : Reader ℕ := of_le <$> get_data n

/-- `n` values in a row. -/
def read_many (r : Reader α) : ℕ → Reader (List α)
  | 0 => pure []
  | n + 1 => do
    let x ← r
    let xs ← read_many r n
    pure (x :: xs)

theorem bind_eq_some {r : Reader α} {f : α → Reader β} {s t : List UInt8} {y : β} :
    (r >>= f) s = some (y, t) ↔ ∃ x u, r s = some (x, u) ∧ f x u = some (y, t) := by
  have heq : (r >>= f) s = (r s).bind fun p => f p.1 p.2 := rfl
  rw [heq, Option.bind_eq_some_iff, Prod.exists]

theorem pure_eq_some {x y : α} {s t : List UInt8} :
    (pure x : Reader α) s = some (y, t) ↔ x = y ∧ s = t := by
  have heq : (pure x : Reader α) s = some (x, s) := rfl
  rw [heq, Option.some.injEq, Prod.mk.injEq]

theorem get_data_eq_some {n : ℕ} {s t bytes : List UInt8} :
    get_data n s = some (bytes, t) ↔ n ≤ s.length ∧ s.take n = bytes ∧ s.drop n = t := by
  unfold get_data
  split
  · rename_i h
    rw [Option.some.injEq, Prod.mk.injEq, and_iff_right h]
  · rename_i h
    simp [h]

theorem read_uint_eq_some {n k : ℕ} {s t : List UInt8} :
    read_uint n s = some (k, t) ↔ n ≤ s.length ∧ of_le (s.take n) = k ∧ s.drop n = t := by
  rw [read_uint, map_eq_pure_bind, bind_eq_some]
  constructor
  · rintro ⟨bytes, u, hget, hpure⟩
    obtain ⟨hn, rfl, rfl⟩ := get_data_eq_some.mp hget
    exact ⟨hn, pure_eq_some.mp hpure⟩
  · rintro ⟨hn, rfl, rfl⟩
    exact ⟨_, _, get_data_eq_some.mpr ⟨hn, rfl, rfl⟩, pure_eq_some.mpr ⟨rfl, rfl⟩⟩

theorem read_many_length {r : Reader α} {n : ℕ} {s t : List UInt8} {xs : List α}
    (h : read_many r n s = some (xs, t)) : xs.length = n := by
  induction n generalizing s xs t with
  | zero => rw [← (pure_eq_some.mp h).1, List.length_nil]
  | succ n ih =>
    obtain ⟨x, u, -, h⟩ := bind_eq_some.mp h
    obtain ⟨ys, v, hys, h⟩ := bind_eq_some.mp h
    rw [← (pure_eq_some.mp h).1, List.length_cons, ih hys]

theorem mem_read_many {r : Reader α} {n : ℕ} {s t : List UInt8} {xs : List α} {x : α}
    (h : read_many r n s = some (xs, t)) (hx : x ∈ xs) : ∃ u v, r u = some (x, v) := by
  induction n generalizing s xs t with
  | zero =>
    rw [← (pure_eq_some.mp h).1] at hx
    cases hx
  | succ n ih =>
    obtain ⟨y, u, hy, h⟩ := bind_eq_some.mp h
    obtain ⟨ys, v, hys, h⟩ := bind_eq_some.mp h
    rw [← (pure_eq_some.mp h).1] at hx
    rcases List.mem_cons.mp hx with rfl | hx
    · exact ⟨s, u, hy⟩
    · exact ih hys hx

theorem of_le_eq_zero {bytes : List UInt8} : of_le bytes = 0 ↔ ∀ b ∈ bytes, b = 0 := by
  induction bytes with
  | nil => simp [of_le]
  | cons b bs ih =>
    have hb : b.toNat = 0 ↔ b = 0 := by
      rw [← UInt8.toNat_zero, UInt8.toNat_inj]
    rw [of_le, List.forall_mem_cons, ← ih, ← hb]
    omega

/-! ## Writing -/

/-- The lowest `n` bytes of a number. -/
def le_bytes : ℕ → ℕ → List UInt8
  | 0, _ => []
  | n + 1, k => UInt8.ofNat k :: le_bytes n (k / 256)

@[simp] theorem le_bytes_length (n k : ℕ) : (le_bytes n k).length = n := by
  induction n generalizing k with
  | zero => rfl
  | succ n ih => rw [le_bytes, List.length_cons, ih]

theorem of_le_le_bytes {n k : ℕ} (h : k < 256 ^ n) : of_le (le_bytes n k) = k := by
  induction n generalizing k with
  | zero =>
    rw [pow_zero, Nat.lt_one_iff] at h
    rw [h]
    rfl
  | succ n ih =>
    have hdiv : k / 256 < 256 ^ n := by
      apply Nat.div_lt_of_lt_mul
      rwa [← Nat.pow_succ']
    rw [le_bytes, of_le, ih hdiv, UInt8.toNat_ofNat']
    exact Nat.mod_add_div k 256

/-- A list is written when each of its elements is. -/
theorem forall₂_of_mapM {f : α → Option β} {xs : List α} {ys : List β}
    (h : xs.mapM f = some ys) : List.Forall₂ (fun x y => f x = some y) xs ys := by
  induction xs generalizing ys with
  | nil =>
    cases h
    exact .nil
  | cons x xs ih =>
    rw [List.mapM_cons] at h
    obtain ⟨y, hy, h⟩ := Option.bind_eq_some_iff.mp h
    obtain ⟨zs, hzs, h⟩ := Option.bind_eq_some_iff.mp h
    cases h
    exact .cons hy (ih hzs)

theorem mapM_isSome {f : α → Option β} {xs : List α} (h : ∀ x ∈ xs, (f x).isSome) :
    ∃ ys, xs.mapM f = some ys := by
  induction xs with
  | nil => exact ⟨[], rfl⟩
  | cons x xs ih =>
    obtain ⟨y, hy⟩ := Option.isSome_iff_exists.mp (h x List.mem_cons_self)
    obtain ⟨ys, hys⟩ := ih fun z hz => h z (List.mem_cons_of_mem x hz)
    refine ⟨y :: ys, ?_⟩
    rw [List.mapM_cons, hy, hys]
    rfl

/-- In lists of one length each element has a partner. -/
theorem exists_mem_zip {xs : List α} {ys : List β} (h : xs.length = ys.length) {x : α}
    (hx : x ∈ xs) : ∃ y, (x, y) ∈ xs.zip ys := by
  have hfst : (xs.zip ys).map Prod.fst = xs := List.map_fst_zip (Nat.le_of_eq h)
  rw [← hfst, List.mem_map] at hx
  obtain ⟨⟨x, y⟩, hmem, rfl⟩ := hx
  exact ⟨y, hmem⟩

/-- An encoding of fixed size, and the reader of it. -/
structure FixedCodec (size : ℕ) (α : Type) where
  put : α → List UInt8
  parse : List UInt8 → Option α
  put_length : ∀ x, (put x).length = size
  parse_put : ∀ x, parse (put x) = some x

namespace FixedCodec

variable {size : ℕ}

def read (c : FixedCodec size α) : Reader α := do
  let bytes ← get_data size
  StateT.lift (c.parse bytes)

end FixedCodec

/-- An encoding that ends by itself, and the reader of it. -/
structure StreamCodec (α : Type) where
  put : α → List UInt8
  read : Reader α
  read_put : ∀ x rest, read (put x ++ rest) = some (x, rest)

/-! ## Reading back -/

/-- Of the bytes, whatever follows them, the reader makes `x`, and it leaves what follows. -/
def Reads (r : Reader α) (bytes : List UInt8) (x : α) : Prop :=
  ∀ rest, r (bytes ++ rest) = some (x, rest)

theorem reads_pure (x : α) : Reads (pure x) [] x := fun _ => rfl

theorem Reads.bind {r : Reader α} {f : α → Reader β} {bytes bytes' : List UInt8} {x : α} {y : β}
    (h : Reads r bytes x) (h' : Reads (f x) bytes' y) : Reads (r >>= f) (bytes ++ bytes') y := by
  intro rest
  rw [bind_eq_some]
  refine ⟨x, bytes' ++ rest, ?_, h' rest⟩
  rw [List.append_assoc]
  exact h (bytes' ++ rest)

/-- The last step of a reader builds its value. -/
theorem Reads.map {r : Reader α} {f : α → β} {bytes : List UInt8} {x : α} (h : Reads r bytes x) :
    Reads (r >>= fun x => pure (f x)) bytes (f x) := by
  rw [← List.append_nil bytes]
  exact h.bind (f := fun x => pure (f x)) (reads_pure (f x))

theorem reads_data {n : ℕ} {bytes : List UInt8} (h : bytes.length = n) :
    Reads (get_data n) bytes bytes := by
  intro rest
  subst h
  rw [get_data_eq_some]
  exact ⟨by simp, List.take_left, List.drop_left⟩

theorem reads_uint {n k : ℕ} (h : k < 256 ^ n) : Reads (read_uint n) (le_bytes n k) k := by
  intro rest
  rw [read_uint_eq_some]
  have hlen : n = (le_bytes n k).length := (le_bytes_length n k).symm
  refine ⟨by simp, ?_, ?_⟩
  · rw [List.take_left' hlen.symm, of_le_le_bytes h]
  · exact List.drop_left' hlen.symm

theorem FixedCodec.reads {size : ℕ} (c : FixedCodec size α) (x : α) :
    Reads c.read (c.put x) x := by
  intro rest
  unfold FixedCodec.read
  rw [bind_eq_some]
  refine ⟨c.put x, rest, reads_data (c.put_length x) rest, ?_⟩
  simp only [StateT.lift, c.parse_put]
  rfl

theorem StreamCodec.reads (c : StreamCodec α) (x : α) : Reads c.read (c.put x) x := c.read_put x

/-- Values written one after the other are read back in a row. -/
theorem Reads.many {r : Reader α} {pieces : List (List UInt8)} {xs : List α}
    (h : List.Forall₂ (Reads r) pieces xs) : Reads (read_many r xs.length) pieces.flatten xs := by
  induction h with
  | nil => exact reads_pure []
  | cons hx _ ih => exact hx.bind ih.map

theorem FixedCodec.reads_many {size : ℕ} (c : FixedCodec size α) (xs : List α) :
    Reads (read_many c.read xs.length) (xs.flatMap c.put) xs := by
  rw [List.flatMap_def]
  apply Reads.many
  rw [List.forall₂_map_left_iff, List.forall₂_same]
  intro x _
  exact c.reads x

/-- What is read is determined by the bytes. -/
theorem Reads.unique {r : Reader α} {bytes : List UInt8} {x y : α} (hx : Reads r bytes x)
    (hy : Reads r bytes y) : x = y := by
  have heq := (hx []).symm.trans (hy [])
  rw [Option.some.injEq, Prod.mk.injEq] at heq
  exact heq.1

end data_stream
