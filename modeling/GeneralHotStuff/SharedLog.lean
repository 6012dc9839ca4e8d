-- A log that its readers fill as they read. A reader at the end of the log says what comes
-- next, any other finds the entry that is there already. Which histories of reads go through
-- is decided by the readers two by two.
import Mathlib.Data.List.Infix

namespace shared_log

variable {Reader Entry : Type}

/-! ## The log -/

structure Log (Reader Entry : Type) where
  entries : List Entry
  position : Reader → ℕ

/-- What a reader has read in a history of reads, the oldest first. -/
def reads [DecidableEq Reader] (r : Reader) (history : List (Reader × Entry)) : List Entry :=
  (history.filter fun x => x.1 = r).map Prod.snd

namespace Log

def empty : Log Reader Entry := ⟨[], fun _ => 0⟩

variable [DecidableEq Reader] [DecidableEq Entry]

/-- Reader `r` goes on by the entry `e`. -/
def read (l : Log Reader Entry) (r : Reader) (e : Entry) : Option (Log Reader Entry) :=
  let position := Function.update l.position r (l.position r + 1)
  match l.entries[l.position r]? with
  | some e' => if e' = e then some ⟨l.entries, position⟩ else none
  | none => some ⟨l.entries ++ [e], position⟩

end Log

/-- The log after a history, as long as the readers find what they expect. -/
def replay [DecidableEq Reader] [DecidableEq Entry] (history : List (Reader × Entry)) :
    Option (Log Reader Entry) :=
  history.foldlM (fun l x => l.read x.1 x.2) Log.empty

section Reads

variable [DecidableEq Reader]

@[simp] theorem reads_nil (r : Reader) : reads r ([] : List (Reader × Entry)) = [] := rfl

theorem reads_append (r : Reader) (h h' : List (Reader × Entry)) :
    reads r (h ++ h') = reads r h ++ reads r h' := by
  simp [reads]

theorem reads_own (r : Reader) (l : List Entry) : reads r (l.map (r, ·)) = l := by
  induction l with
  | nil => rfl
  | cons e l ih => simpa [reads] using ih

theorem reads_other {r r' : Reader} (hne : r' ≠ r) (l : List Entry) :
    reads r (l.map (r', ·)) = [] := by
  induction l with
  | nil => rfl
  | cons e l ih => simp [reads, hne]

/-- Of any two readers one has read all that the other has. -/
def Linear (history : List (Reader × Entry)) : Prop :=
  ∀ r r', reads r history <+: reads r' history ∨ reads r' history <+: reads r history

theorem Linear.of_append {h h' : List (Reader × Entry)} (hlin : Linear (h ++ h')) : Linear h := by
  have hpre : ∀ r, reads r h <+: reads r (h ++ h') := fun r => by
    rw [reads_append]
    exact List.prefix_append _ _
  intro r r'
  rcases hlin r r' with hle | hle
  · exact List.prefix_or_prefix_of_prefix ((hpre r).trans hle) (hpre r')
  · exact (List.prefix_or_prefix_of_prefix ((hpre r').trans hle) (hpre r)).symm

end Reads

/-! ## What a log says about its history -/

variable [DecidableEq Reader]

/-- Each reader has read the log up to its position, and some reader has read all of it. -/
structure Fits (l : Log Reader Entry) (history : List (Reader × Entry)) : Prop where
  reads : ∀ r, reads r history = l.entries.take (l.position r)
  bound : ∀ r, l.position r ≤ l.entries.length
  full : l.entries = [] ∨ ∃ r, l.position r = l.entries.length

theorem Fits.length {l : Log Reader Entry} {h : List (Reader × Entry)} (hf : Fits l h)
    (r : Reader) : (shared_log.reads r h).length = l.position r := by
  rw [hf.reads, List.length_take, Nat.min_eq_left (hf.bound r)]

/-- The log is what one of its readers has read. -/
theorem Fits.entries {l : Log Reader Entry} {h : List (Reader × Entry)} (hf : Fits l h) :
    l.entries = [] ∨ ∃ r, l.entries = shared_log.reads r h := by
  refine hf.full.imp_right fun ⟨r, hr⟩ => ⟨r, ?_⟩
  rw [hf.reads, hr, List.take_length]

theorem Fits.linear {l : Log Reader Entry} {h : List (Reader × Entry)} (hf : Fits l h) :
    Linear h := by
  intro r r'
  rw [hf.reads, hf.reads]
  exact List.prefix_or_prefix_of_prefix (List.take_prefix _ _) (List.take_prefix _ _)

theorem fits_empty : Fits (Log.empty : Log Reader Entry) [] :=
  ⟨fun _ => rfl, fun _ => Nat.le_refl 0, .inl rfl⟩

theorem reads_snoc (r r' : Reader) (e : Entry) (h : List (Reader × Entry)) :
    reads r (h ++ [(r', e)]) = if r = r' then reads r h ++ [e] else reads r h := by
  rw [reads_append]
  split
  · rename_i heq
    rw [heq]
    exact congrArg _ (reads_own r' [e])
  · rename_i hne
    rw [show [(r', e)] = [e].map (r', ·) from rfl, reads_other (Ne.symm hne), List.append_nil]

variable [DecidableEq Entry]

/-- What a read does: the entry is there after the read, and before it or at the end. -/
theorem Log.read_cases {l l' : Log Reader Entry} {r : Reader} {e : Entry}
    (h : l.read r e = some l') :
    l'.position = Function.update l.position r (l.position r + 1) ∧
      (l'.entries = l.entries ∧ l.entries[l.position r]? = some e ∨
        l'.entries = l.entries ++ [e] ∧ l.entries.length ≤ l.position r) := by
  unfold Log.read at h
  split at h
  · rename_i e' he'
    split at h
    · rename_i heq
      rw [Option.some.injEq] at h
      subst h heq
      exact ⟨rfl, .inl ⟨rfl, he'⟩⟩
    · cases h
  · rename_i hnone
    rw [Option.some.injEq] at h
    subst h
    exact ⟨rfl, .inr ⟨rfl, List.getElem?_eq_none_iff.mp hnone⟩⟩

/-- The read lemma: the log fits the longer history. -/
theorem Fits.read {l l' : Log Reader Entry} {h : List (Reader × Entry)} (hf : Fits l h)
    {r : Reader} {e : Entry} (hr : l.read r e = some l') :
    Fits l' (h ++ [(r, e)]) ∧ l.entries <+: l'.entries := by
  obtain ⟨hpos, hcase⟩ := Log.read_cases hr
  have hpre : l.entries <+: l'.entries := by
    rcases hcase with ⟨heq, -⟩ | ⟨heq, -⟩
    · rw [heq]
    · rw [heq]
      exact List.prefix_append _ _
  have hnext : l'.entries[l.position r]? = some e := by
    rcases hcase with ⟨heq, he⟩ | ⟨heq, hle⟩
    · rw [heq, he]
    · have := Nat.le_antisymm hle (hf.bound r)
      simp [heq, ← this]
  have hlt : l.position r < l'.entries.length := (List.getElem?_eq_some_iff.mp hnext).1
  have htake : ∀ r', l'.entries.take (l.position r') = l.entries.take (l.position r') := fun r' =>
    (List.prefix_iff_eq_take.mp ((List.take_prefix _ _).trans hpre)).symm ▸ by
      simp [Nat.min_eq_left (hf.bound r')]
  refine ⟨⟨fun r' => ?_, fun r' => ?_, .inr ?_⟩, hpre⟩
  · rw [reads_snoc, hpos, hf.reads]
    split
    · rename_i heq
      rw [heq, Function.update_self, List.take_add_one, hnext, htake, Option.toList_some]
    · rename_i hne
      rw [Function.update_of_ne hne, htake]
  · rw [hpos]
    by_cases heq : r' = r
    · rw [heq, Function.update_self]
      exact hlt
    · rw [Function.update_of_ne heq]
      exact (hf.bound r').trans hpre.length_le
  · rcases hcase with ⟨heq, he⟩ | ⟨heq, hle⟩
    · have hlen := (List.getElem?_eq_some_iff.mp he).1
      rcases hf.full with hnil | ⟨r', hr'⟩
      · simp [hnil] at hlen
      · have hne : r' ≠ r := fun h => by
          rw [h] at hr'
          omega
        exact ⟨r', by rw [hpos, heq, Function.update_of_ne hne, hr']⟩
    · refine ⟨r, ?_⟩
      have := Nat.le_antisymm hle (hf.bound r)
      rw [hpos, Function.update_self, heq, List.length_append, this, List.length_singleton]

/-- A reader that stays in line with the others finds what it expects. -/
theorem Fits.exists_read {l : Log Reader Entry} {h : List (Reader × Entry)} (hf : Fits l h)
    {r : Reader} {e : Entry} (hlin : Linear (h ++ [(r, e)])) : ∃ l', l.read r e = some l' := by
  unfold Log.read
  split
  · rename_i e' he'
    have hlen := (List.getElem?_eq_some_iff.mp he').1
    obtain ⟨r', hr'⟩ : ∃ r', l.position r' = l.entries.length := by
      refine hf.full.resolve_left fun hnil => ?_
      simp [hnil] at hlen
    have hne : r' ≠ r := fun h => by
      rw [h] at hr'
      omega
    -- the reader at the end has read the entry, too
    have hcomp := hlin r r'
    rw [reads_snoc, if_pos rfl, reads_snoc, if_neg hne, hf.reads, hf.reads, hr',
      List.take_length] at hcomp
    have hlength : (l.entries.take (l.position r) ++ [e]).length = l.position r + 1 := by
      rw [List.length_append, List.length_take, Nat.min_eq_left hlen.le, List.length_singleton]
    have hpre : l.entries.take (l.position r) ++ [e] <+: l.entries := by
      rcases hcomp with hle | hle
      · exact hle
      · have heq := hle.eq_of_length (Nat.le_antisymm hle.length_le (by omega))
        exact ⟨[], by rw [List.append_nil, ← heq]⟩
    obtain ⟨rest, hrest⟩ := hpre
    have heq : e' = e := by
      rw [← hrest, List.append_assoc, List.getElem?_append_right (List.length_take_le _ _)] at he'
      simpa [Nat.min_eq_left hlen.le] using he'.symm
    exact ⟨_, if_pos heq⟩
  · exact ⟨_, rfl⟩

/-! ## Histories -/

theorem replay_snoc (h : List (Reader × Entry)) (x : Reader × Entry) :
    replay (h ++ [x]) = (replay h).bind fun l => l.read x.1 x.2 := by
  unfold replay
  rw [List.foldlM_append]
  cases h.foldlM (fun l x => Log.read l x.1 x.2) Log.empty with
  | none => rfl
  | some l => simp [List.foldlM]

theorem replay_fits {h : List (Reader × Entry)} {l : Log Reader Entry} (hl : replay h = some l) :
    Fits l h := by
  induction h using List.reverseRecOn generalizing l with
  | nil =>
    rw [replay, List.foldlM_nil, Option.pure_def, Option.some.injEq] at hl
    exact hl ▸ fits_empty
  | append_singleton h x ih =>
    rw [replay_snoc, Option.bind_eq_some_iff] at hl
    obtain ⟨l0, hl0, hread⟩ := hl
    exact ((ih hl0).read hread).1

/-- A history goes through exactly when any two of its readers are in line. -/
theorem replay_isSome_iff (h : List (Reader × Entry)) : (replay h).isSome ↔ Linear h := by
  constructor
  · intro hsome
    obtain ⟨l, hl⟩ := Option.isSome_iff_exists.mp hsome
    exact (replay_fits hl).linear
  · intro hlin
    induction h using List.reverseRecOn with
    | nil => rfl
    | append_singleton h x ih =>
      obtain ⟨l, hl⟩ := Option.isSome_iff_exists.mp (ih hlin.of_append)
      obtain ⟨l', hl'⟩ := (replay_fits hl).exists_read hlin
      rw [replay_snoc, hl, Option.bind_some, hl']
      rfl

end shared_log
