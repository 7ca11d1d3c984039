import Mathlib.Data.List.Basic

/-! Edits at the end of a line: a character is put behind it, the last one is rubbed
out, or nothing happens. A reading of the keys that drops some characters is
compared with the one that keeps them. -/
namespace Comp304.Library.Edits

inductive Edit (α : Type) where
  | put (a : α)
  | rub
  | stay
  deriving DecidableEq, Repr

def Edit.apply (line : List α) : Edit α → List α
  | .put a => line ++ [a]
  | .rub => line.dropLast
  | .stay => line

/-- How long a line of so many characters gets. -/
def Edit.length (n : Nat) : Edit α → Nat
  | .put _ => n + 1
  | .rub => n - 1
  | .stay => n

/-- The line after the keys, each with its edit. -/
def run (edit : κ → Edit α) (line : List α) (keys : List κ) : List α :=
  keys.foldl (fun line k => (edit k).apply line) line

/-- An edit at most drops a character that is put by another one. -/
inductive Lossy : Edit α → Edit α → Prop
  | same (x : Edit α) : Lossy x x
  | drop (a : α) : Lossy .stay (.put a)

section
variable {part full : κ → Edit α} {line line' : List α} {keys : List κ}

@[simp] theorem run_nil (edit : κ → Edit α) (line : List α) : run edit line [] = line := rfl

@[simp] theorem run_cons (edit : κ → Edit α) (line : List α) (k : κ) (keys : List κ) :
    run edit line (k :: keys) = run edit ((edit k).apply line) keys := rfl

theorem run_append (edit : κ → Edit α) (line : List α) (front keys : List κ) :
    run edit line (front ++ keys) = run edit (run edit line front) keys := List.foldl_append

theorem run_congr (line : List α) (same : ∀ k ∈ keys, part k = full k) :
    run part line keys = run full line keys := by
  induction keys generalizing line with
  | nil => rfl
  | cons k keys ih =>
    obtain ⟨first, same⟩ := List.forall_mem_cons.mp same
    rw [run_cons, run_cons, first]
    exact ih _ same

theorem Edit.length_apply (x : Edit α) (line : List α) :
    (x.apply line).length = x.length line.length := by
  cases x with
  | put a => exact List.length_append
  | rub => exact List.length_dropLast
  | stay => rfl

theorem Lossy.length_le {x y : Edit α} (lossy : Lossy x y) (shorter : n ≤ m) :
    x.length n ≤ y.length m := by
  cases lossy with
  | same x =>
    cases x with
    | put a => exact Nat.succ_le_succ shorter
    | rub => exact Nat.sub_le_sub_right shorter 1
    | stay => exact shorter
  | drop a => exact Nat.le_succ_of_le shorter

theorem Lossy.length_apply_le {x y : Edit α} (lossy : Lossy x y)
    (shorter : line.length ≤ line'.length) : (x.apply line).length ≤ (y.apply line').length := by
  rw [Edit.length_apply, Edit.length_apply]
  exact lossy.length_le shorter

/-- A line that is no longer at first stays so. -/
theorem length_run_le (lossy : ∀ k ∈ keys, Lossy (part k) (full k))
    (shorter : line.length ≤ line'.length) :
    (run part line keys).length ≤ (run full line' keys).length := by
  induction keys generalizing line line' with
  | nil => exact shorter
  | cons k keys ih =>
    obtain ⟨first, lossy⟩ := List.forall_mem_cons.mp lossy
    exact ih lossy (first.length_apply_le shorter)

theorem length_run_le_add (edit : κ → Edit α) (line : List α) (keys : List κ) :
    (run edit line keys).length ≤ line.length + keys.length := by
  induction keys generalizing line with
  | nil => exact Nat.le_refl _
  | cons k keys ih =>
    have step : ((edit k).apply line).length ≤ line.length + 1 := by
      rw [Edit.length_apply]
      cases edit k with
      | put a => exact Nat.le_refl _
      | rub => exact Nat.le_trans (Nat.sub_le _ 1) (Nat.le_succ _)
      | stay => exact Nat.le_succ _
    have rest := ih ((edit k).apply line)
    rw [run_cons, List.length_cons]
    omega

/-- Lines that get equally long were so before, or are empty now. -/
theorem Lossy.same_length {x y : Edit α} (lossy : Lossy x y) (shorter : line.length ≤ line'.length)
    (same : (x.apply line).length = (y.apply line').length) :
    x = y ∧ (line.length = line'.length ∨ y.apply line' = []) := by
  cases lossy with
  | same x =>
    refine ⟨rfl, ?_⟩
    cases x with
    | put a => exact Or.inl (by simpa [Edit.apply] using same)
    | rub =>
      simp only [Edit.apply, List.length_dropLast] at same ⊢
      obtain equal | other := Nat.eq_or_lt_of_le shorter
      · exact Or.inl equal
      · exact Or.inr (List.eq_nil_of_length_eq_zero (by rw [List.length_dropLast]; omega))
    | stay => exact Or.inl same
  | drop a =>
    simp only [Edit.apply, List.length_append, List.length_singleton] at same
    omega

/-- Two lines end up equally long only if they were so and nothing was dropped, or
if both were empty in between and nothing was dropped from there on. -/
theorem lossy_split (lossy : ∀ k ∈ keys, Lossy (part k) (full k))
    (shorter : line.length ≤ line'.length)
    (same : (run part line keys).length = (run full line' keys).length) :
    (line.length = line'.length ∧ ∀ k ∈ keys, part k = full k) ∨
    ∃ before after, keys = before ++ after ∧ run full line' before = [] ∧
      ∀ k ∈ after, part k = full k := by
  induction keys generalizing line line' with
  | nil => exact Or.inl ⟨same, nofun⟩
  | cons k keys ih =>
    obtain ⟨first, lossy⟩ := List.forall_mem_cons.mp lossy
    obtain ⟨equal, kept⟩ | ⟨before, after, rfl, empty, kept⟩ :=
      ih lossy (first.length_apply_le shorter) same
    · obtain ⟨here, before | empty⟩ := first.same_length shorter equal
      · exact Or.inl ⟨before, List.forall_mem_cons.mpr ⟨here, kept⟩⟩
      · exact Or.inr ⟨[k], keys, rfl, empty, kept⟩
    · exact Or.inr ⟨k :: before, after, rfl, empty, kept⟩

theorem Edit.head?_apply (x : Edit α) (nonempty : line ≠ []) (still : x.apply line ≠ []) :
    (x.apply line).head? = line.head? := by
  cases x with
  | put a => exact List.head?_append_of_ne_nil line nonempty
  | rub =>
    obtain ⟨a, line, rfl⟩ := List.exists_cons_of_ne_nil nonempty
    cases line with
    | nil => exact absurd rfl still
    | cons b line => rfl
  | stay => rfl

/-- The first character of a line stays as long as the line is not empty. -/
theorem head?_run (edit : κ → Edit α) (filled : ∀ before after, keys = before ++ after →
    run edit line before ≠ []) : (run edit line keys).head? = line.head? := by
  induction keys generalizing line with
  | nil => rfl
  | cons k keys ih =>
    have later : (run edit ((edit k).apply line) keys).head? = ((edit k).apply line).head? :=
      ih fun before after split => filled (k :: before) after (congrArg (k :: ·) split)
    rw [run_cons, later]
    exact (edit k).head?_apply (filled [] _ rfl) (filled [k] _ rfl)

end

end Comp304.Library.Edits
