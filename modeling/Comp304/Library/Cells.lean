import Comp304.Library.CString
import Mathlib.Data.List.Induction

/-! An array that `realloc` makes larger, and that is moved up by one cell in place.
What a new cell holds is not known until it is set; an access behind the last cell
is a fault. -/
namespace Comp304.Library.Cells
open Budget CString

variable {α : Type}

def get (cells : List α) (i : Nat) : Except Fault α :=
  match cells[i]? with
  | some cell => .ok cell
  | none => .error .outside

def set (cells : List α) (i : Nat) (cell : α) : Except Fault (List α) :=
  if i < cells.length then .ok (cells.set i cell) else .error .outside

/-- `realloc` to `n` cells. -/
def resize (unset : Nat → α) (n : Nat) (cells : List α) : List α :=
  cells.take n ++ (List.range' cells.length (n - cells.length)).map unset

/-- `for (i = n; i > 0; --i) cells[i] = cells[i - 1]` -/
def shift : Nat → List α → Except Fault (List α)
  | 0, cells => .ok cells
  | i + 1, cells => do
    let cell ← get cells i
    let cells ← set cells (i + 1) cell
    shift i cells

variable {unset : Nat → α} {cells : List α}

theorem get_front (front rest : List α) (cell : α) : get (front ++ cell :: rest) front.length = .ok cell := by
  simp [get]

theorem set_front (front rest : List α) (old cell : α) :
    set (front ++ old :: rest) front.length cell = .ok (front ++ cell :: rest) := by
  simp [set]

@[simp] theorem length_resize (n : Nat) (cells : List α) : (resize unset n cells).length = n := by
  simp only [resize, List.length_append, List.length_take, List.length_map, List.length_range']
  omega

theorem resize_of_le (few : n ≤ cells.length) : resize unset n cells = cells.take n := by
  simp [resize, Nat.sub_eq_zero_of_le few]

theorem resize_length (cells : List α) : resize unset cells.length cells = cells := by
  rw [resize_of_le (Nat.le_refl _), List.take_length]

/-- The last cell of a larger array is the only new one. -/
theorem resize_succ (unset : Nat → α) (n : Nat) (cells : List α) :
    ∃ cell, resize unset (n + 1) cells = resize unset n cells ++ [cell] := by
  by_cases inside : n < cells.length
  · refine ⟨cells[n], ?_⟩
    rw [resize_of_le inside, resize_of_le (Nat.le_of_lt inside), List.take_succ_eq_append_getElem inside]
  · have all : cells.length ≤ n := Nat.le_of_not_lt inside
    refine ⟨unset n, ?_⟩
    rw [resize, resize, List.take_of_length_le all, List.take_of_length_le (Nat.le_succ_of_le all),
      Nat.succ_sub all, List.range'_1_concat, List.map_append, List.append_assoc,
      Nat.add_sub_cancel' all]
    rfl

/-- A cell behind the others is set. -/
theorem set_resize (n : Nat) (cells : List α) (cell : α) :
    set (resize unset (n + 1) cells) n cell = .ok (resize unset n cells ++ [cell]) := by
  obtain ⟨old, larger⟩ := resize_succ unset n cells
  have own := set_front (resize unset n cells) [] old cell
  rw [length_resize] at own
  rw [larger, own]

/-- Each cell in front of the last one has moved up, and the first is still there. -/
theorem shift_front (first last : α) (front rest : List α) :
    shift (front.length + 1) (first :: front ++ last :: rest) = .ok (first :: first :: front ++ rest) := by
  induction front using List.reverseRecOn generalizing last rest with
  | nil => rfl
  | append_singleton front cell ih =>
    have here := get_front (first :: front) (last :: rest) cell
    have there := set_front (first :: front ++ [cell]) rest last cell
    have up := ih cell (cell :: rest)
    simp only [List.length_append, List.length_cons, List.length_nil, List.cons_append,
      List.append_assoc, List.nil_append] at here there up ⊢
    rw [shift, here, ok_bind, there, ok_bind, up]

/-- A grown array is moved up, and its first and last cells are set. -/
theorem shift_resize (unset : Nat → α) (n : Nat) (cells : List α) (first last : α) :
    (do
      let cells ← shift n (resize unset (n + 2) cells)
      let cells ← set cells 0 first
      set cells (n + 1) last) = .ok (first :: resize unset n cells ++ [last]) := by
  obtain ⟨spare, grown⟩ := resize_succ unset (n + 1) cells
  obtain ⟨old, larger⟩ := resize_succ unset n cells
  have size : (resize unset n cells).length = n := length_resize n cells
  rw [grown, larger, List.append_assoc]
  revert size
  generalize resize unset n cells = held
  intro size
  have moved : ∃ head, shift n (held ++ [old, spare]) = .ok (head :: held ++ [spare]) := by
    cases held with
    | nil =>
      subst size
      exact ⟨old, rfl⟩
    | cons head held =>
      subst size
      exact ⟨head, shift_front head old held [spare]⟩
  obtain ⟨head, moved⟩ := moved
  have ending := set_front (first :: held) [] spare last
  rw [List.length_cons, size] at ending
  have front : set (head :: held ++ [spare]) 0 first = .ok (first :: held ++ [spare]) := by
    simp [set]
  rw [List.singleton_append, moved, ok_bind, front, ok_bind]
  exact ending

end Comp304.Library.Cells
