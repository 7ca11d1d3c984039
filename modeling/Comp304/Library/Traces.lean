import Mathlib.Data.Option.Basic
import Mathlib.Order.Nat

/-! Finite runs of a system whose next state is computed from its state and a
move. An instant of a run is a number of moves, so that statements about runs
can speak of what was the case at, before and between instants. -/
namespace Comp304.Library.Traces

/-- `state k` is the state after the first `k` of `count` moves from `start`. -/
structure Trace (step : σ → μ → Option σ) (start : σ) (count : ℕ) (state : ℕ → σ) (move : ℕ → μ) :
    Prop where
  start : state 0 = start
  step : ∀ i < count, step (state i) (move i) = some (state (i + 1))

variable {step : σ → μ → Option σ} {start : σ} {state : ℕ → σ} {move : ℕ → μ}

/-- What holds at the start and is kept by every step of the run holds at every
instant of it. The invariant may speak of the instant, and so of the past. -/
theorem Trace.invariant (Inv : ℕ → σ → Prop) (trace : Trace step start count state move)
    (initial : Inv 0 start)
    (keeps : ∀ i < count, step (state i) (move i) = some (state (i + 1)) →
      Inv i (state i) → Inv (i + 1) (state (i + 1))) :
    ∀ k ≤ count, Inv k (state k) := by
  intro k
  induction k with
  | zero =>
    intro _
    rw [trace.start]
    exact initial
  | succ k ih =>
    intro inside
    exact keeps k inside (trace.step k inside) (ih (Nat.le_of_succ_le inside))

/-- The predicate has held at some instant up to this one. -/
def Seen (holds : σ → Prop) (state : ℕ → σ) (k : ℕ) : Prop := ∃ j ≤ k, holds (state j)

theorem seen_zero {holds : σ → Prop} : Seen holds state 0 ↔ holds (state 0) := by
  constructor
  · rintro ⟨j, early, seen⟩
    rwa [Nat.le_zero.mp early] at seen
  · exact fun seen => ⟨0, Nat.le_refl 0, seen⟩

theorem seen_succ {holds : σ → Prop} :
    Seen holds state (k + 1) ↔ Seen holds state k ∨ holds (state (k + 1)) := by
  constructor
  · rintro ⟨j, early, seen⟩
    cases Nat.lt_or_eq_of_le early with
    | inl earlier => exact Or.inl ⟨j, Nat.le_of_lt_succ earlier, seen⟩
    | inr now => exact Or.inr (now ▸ seen)
  · rintro (⟨j, early, seen⟩ | seen)
    · exact ⟨j, Nat.le_succ_of_le early, seen⟩
    · exact ⟨k + 1, Nat.le_refl _, seen⟩

/-- What does not hold at one instant and holds at a later one started to hold
in between. -/
theorem exists_onset (holds : ℕ → Prop) (later : first ≤ last) (before : ¬ holds first)
    (after : holds last) : ∃ k, first ≤ k ∧ k < last ∧ ¬ holds k ∧ holds (k + 1) := by
  induction last, later using Nat.le_induction with
  | base => exact absurd after before
  | succ last later ih =>
    by_cases holding : holds last
    · obtain ⟨k, low, high, onset⟩ := ih holding
      exact ⟨k, low, Nat.lt_succ_of_lt high, onset⟩
    · exact ⟨last, later, Nat.lt_succ_self last, holding, after⟩

/-! ### Runs from lists of moves -/

/-- The state after the first `k` moves of a list. -/
def stateAt (step : σ → μ → Option σ) : σ → List μ → ℕ → σ
  | s, m :: rest, k + 1 =>
    match step s m with
    | some next => stateAt step next rest k
    | none => s
  | s, _, _ => s

def moveAt [Inhabited μ] (moves : List μ) (k : ℕ) : μ := moves[k]?.getD default

/-- All moves of the list can be made, each in a state in which it is `good`. -/
def checkMoves (step : σ → μ → Option σ) (good : σ → μ → Bool) : σ → List μ → Bool
  | _, [] => true
  | s, m :: rest => good s m &&
    match step s m with
    | some next => checkMoves step good next rest
    | none => false

theorem checkMoves_sound [Inhabited μ] {good : σ → μ → Bool} {s : σ} {moves : List μ}
    (checked : checkMoves step good s moves = true) : ∀ i < moves.length,
      step (stateAt step s moves i) (moveAt moves i) = some (stateAt step s moves (i + 1)) ∧
      good (stateAt step s moves i) (moveAt moves i) = true := by
  induction moves generalizing s with
  | nil => exact fun i inside => absurd inside (Nat.not_lt_zero i)
  | cons m rest ih =>
    simp only [checkMoves, Bool.and_eq_true] at checked
    obtain ⟨first, later⟩ := checked
    cases made : step s m with
    | none => simp [made] at later
    | some next =>
      simp only [made] at later
      intro i inside
      cases i with
      | zero => exact ⟨by simp [stateAt, moveAt, made], by simpa [stateAt, moveAt] using first⟩
      | succ i =>
        have tail := ih later i (Nat.lt_of_succ_lt_succ inside)
        simpa [stateAt, moveAt, made] using tail

/-- A list of moves that passes the check is a run. -/
theorem trace_of_check [Inhabited μ] {good : σ → μ → Bool} {moves : List μ}
    (checked : checkMoves step good start moves = true) :
    Trace step start moves.length (stateAt step start moves) (moveAt moves) where
  start := by cases moves <;> rfl
  step := fun i inside => (checkMoves_sound checked i inside).1

/-! ### Alternating records -/

/-- The first, the third and so on are `odd`, the others `even`. -/
def Alternates (odd even : α) (entries : List α) : Prop :=
  ∀ n x, entries[n]? = some x → x = if n % 2 = 0 then odd else even

theorem alternates_nil {odd even : α} : Alternates odd even [] := fun _ _ found => nomatch found

theorem Alternates.snoc {odd even : α} {entries : List α} (alternates : Alternates odd even entries) :
    Alternates odd even (entries ++ [if entries.length % 2 = 0 then odd else even]) := by
  intro n x found
  cases Nat.lt_or_ge n entries.length with
  | inl inside =>
    rw [List.getElem?_append_left inside] at found
    exact alternates n x found
  | inr outside =>
    rw [List.getElem?_append_right outside] at found
    have last : n - entries.length = 0 := by
      cases gap : n - entries.length with
      | zero => rfl
      | succ m => simp [gap] at found
    rw [last] at found
    have length : n = entries.length := Nat.le_antisymm (Nat.sub_eq_zero_iff_le.mp last) outside
    rw [length]
    exact (Option.some.inj found).symm

end Comp304.Library.Traces
