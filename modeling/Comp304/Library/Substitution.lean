import Mathlib.Data.List.Infix
import Mathlib.Data.List.TakeDrop

/-! A word in a text replaced by another one: all occurrences that a scan from left
to right meets, or the first one again and again. The two agree when what is put
in takes part in no occurrence. -/
namespace Comp304.Library.Substitution

variable {α : Type*} {word rep text before behind done rest : List α}

/-- The word is there from this place on. -/
def OccursAt (word text : List α) (i : Nat) : Prop := word <+: text.drop i

/-- The word behind `before` is the first one. -/
def Leftmost (word before : List α) : Prop :=
  ∀ i < before.length, ¬ OccursAt word (before ++ word) i

/-- No occurrence begins in front of `rest`. -/
def Settled (word done rest : List α) : Prop :=
  ∀ i < done.length, ¬ OccursAt word (done ++ rest) i

/-- What is put in for a first occurrence takes part in none, in any text that is
admissible before and after. -/
def Separate (admissible : List α → Prop) (word rep : List α) : Prop :=
  ∀ before behind, admissible (before ++ word ++ behind) → admissible (before ++ rep ++ behind) →
    Leftmost word before → Settled word (before ++ rep) behind

/-! ### Occurrences -/

theorem OccursAt.inside (occurs : OccursAt word text i) (nonempty : word ≠ []) :
    i + word.length ≤ text.length := by
  have length := occurs.length_le
  have positive := List.length_pos_iff.mpr nonempty
  rw [List.length_drop] at length
  omega

theorem occursAt_behind (before : List α) (i : Nat) :
    OccursAt word (before ++ text) (before.length + i) ↔ OccursAt word text i := by
  rw [OccursAt, ← List.drop_drop, List.drop_left, OccursAt]

/-- What is behind an occurrence does not matter. -/
theorem occursAt_front (inside : i + word.length ≤ text.length) (behind : List α) :
    OccursAt word (text ++ behind) i ↔ OccursAt word text i := by
  have short : word.length ≤ (text.drop i).length := by
    rw [List.length_drop]
    omega
  rw [OccursAt, List.drop_append_of_le_length (by omega), OccursAt]
  exact ⟨fun occurs => List.prefix_of_prefix_length_le occurs (List.prefix_append ..) short,
    fun occurs => occurs.trans (List.prefix_append ..)⟩

theorem Leftmost.settled (leftmost : Leftmost word before) (behind : List α) :
    Settled word before (word ++ behind) := by
  intro i front
  rw [← List.append_assoc, occursAt_front]
  · exact leftmost i front
  · rw [List.length_append]
    omega

theorem Settled.leftmost (settled : Settled word before (word ++ behind)) :
    Leftmost word before := by
  intro i front occurs
  refine settled i front ?_
  rw [← List.append_assoc, occursAt_front]
  · exact occurs
  · rw [List.length_append]
    omega

/-- Two parts without an occurrence, the second one with what is behind it. -/
theorem Settled.append (settled : Settled word done (before ++ rest))
    (later : Settled word before rest) : Settled word (done ++ before) rest := by
  intro i front
  rw [List.append_assoc]
  by_cases first : i < done.length
  · exact settled i first
  · obtain ⟨j, rfl⟩ : ∃ j, i = done.length + j := ⟨i - done.length, by omega⟩
    rw [occursAt_behind]
    rw [List.length_append] at front
    exact later j (by omega)

theorem Settled.of_short (nonempty : word ≠ []) (short : (done ++ rest).length < word.length) :
    Settled word done rest := by
  intro i front occurs
  have inside := occurs.inside nonempty
  omega

/-! ### Left to right -/

section
variable [DecidableEq α]

/-- The text with all occurrences replaced that a scan meets. So many characters of
the last one are still skipped. -/
def scan (word rep : List α) : Nat → List α → List α
  | _, [] => []
  | skip + 1, _ :: text => scan word rep skip text
  | 0, c :: text =>
    if word.isPrefixOf (c :: text) then rep ++ scan word rep (word.length - 1) text
    else c :: scan word rep 0 text

def replaceAll (word rep text : List α) : List α := scan word rep 0 text

theorem scan_skip (word rep : List α) (skipped text : List α) :
    scan word rep skipped.length (skipped ++ text) = replaceAll word rep text := by
  induction skipped with
  | nil => rfl
  | cons c skipped ih => exact ih

theorem replaceAll_word (nonempty : word ≠ []) (rep text : List α) :
    replaceAll word rep (word ++ text) = rep ++ replaceAll word rep text := by
  obtain ⟨c, tail, rfl⟩ := List.exists_cons_of_ne_nil nonempty
  have front : (c :: tail).isPrefixOf (c :: (tail ++ text)) :=
    List.isPrefixOf_iff_prefix.mpr (List.prefix_append (c :: tail) text)
  rw [replaceAll, List.cons_append, scan, if_pos front]
  exact congrArg (rep ++ ·) (scan_skip ..)

theorem replaceAll_other (rep : List α) (other : ¬ OccursAt word (c :: text) 0) :
    replaceAll word rep (c :: text) = c :: replaceAll word rep text := by
  rw [replaceAll, scan, if_neg]
  · rfl
  · exact fun front => other (List.isPrefixOf_iff_prefix.mp front)

/-- The scan goes over what no occurrence begins in. -/
theorem replaceAll_settled (rep : List α) (settled : Settled word done rest) :
    replaceAll word rep (done ++ rest) = done ++ replaceAll word rep rest := by
  induction done with
  | nil => rfl
  | cons c done ih =>
    have first : ¬ OccursAt word (c :: (done ++ rest)) 0 := settled 0 (Nat.succ_pos _)
    rw [List.cons_append, replaceAll_other rep first, ih, List.cons_append]
    exact fun i front => settled (i + 1) (Nat.succ_lt_succ front)

theorem replaceAll_leftmost (nonempty : word ≠ []) (leftmost : Leftmost word before)
    (rep behind : List α) : replaceAll word rep (before ++ word ++ behind) =
      before ++ rep ++ replaceAll word rep behind := by
  rw [List.append_assoc, replaceAll_settled rep (leftmost.settled behind),
    replaceAll_word nonempty, List.append_assoc]

/-- Without an occurrence nothing is replaced. -/
theorem replaceAll_absent (rep : List α) (absent : Settled word text []) :
    replaceAll word rep text = text := by
  have whole := replaceAll_settled rep absent
  rw [List.append_nil] at whole
  rw [whole]
  exact List.append_nil text

/-- A longer word makes the text no shorter. -/
theorem length_le_replaceAll (nonempty : word ≠ []) (longer : word.length ≤ rep.length)
    (text : List α) : text.length ≤ (replaceAll word rep text).length := by
  induction length : text.length using Nat.strongRecOn generalizing text with
  | ind n ih =>
    cases text with
    | nil => exact length ▸ Nat.zero_le _
    | cons c text =>
      by_cases front : OccursAt word (c :: text) 0
      · obtain ⟨behind, same⟩ := front
        have positive := List.length_pos_iff.mpr nonempty
        rw [List.drop_zero] at same
        have parts := congrArg List.length same
        rw [List.length_append] at parts
        have shorter := ih behind.length (by omega) behind rfl
        rw [← same, replaceAll_word nonempty, List.length_append]
        omega
      · rw [List.length_cons] at length
        have shorter := ih text.length (by omega) text rfl
        rw [replaceAll_other rep front, List.length_cons]
        omega

end

/-! ### One after the other -/

theorem OccursAt.getElem? (occurs : OccursAt word text i) (inside : j < word.length) :
    text[i + j]? = some word[j] := by
  obtain ⟨behind, same⟩ := occurs
  rw [← List.getElem?_drop, ← same, List.getElem?_append_left inside, List.getElem?_eq_getElem inside]

/-- What has no character of the word takes part in no occurrence. -/
theorem separate_of_disjoint {admissible : List α → Prop} (nonempty : word ≠ []) (filled : rep ≠ [])
    (disjoint : ∀ c ∈ rep, c ∉ word) : Separate admissible word rep := by
  intro before behind _ _ leftmost i front occurs
  have positive := List.length_pos_iff.mpr nonempty
  have longer := List.length_pos_iff.mpr filled
  rw [List.length_append] at front
  rw [List.append_assoc] at occurs
  -- a place in what was put in, unless the occurrence ends in front of it
  have place : ∀ j < word.length, before.length ≤ i + j → i + j < before.length + rep.length → False := by
    intro j inside late early
    have there := occurs.getElem? inside
    rw [List.getElem?_append_right late, List.getElem?_append_left (by omega)] at there
    exact disjoint _ (List.mem_of_getElem? there) (List.getElem_mem inside)
  by_cases first : before.length ≤ i
  · exact place 0 positive first front
  by_cases reaches : before.length < i + word.length
  · exact place (before.length - i) (by omega) (by omega) (by omega)
  · refine leftmost i (by omega) ?_
    rw [occursAt_front (by omega)] at occurs ⊢
    exact occurs

/-- The step of a rewriting that keeps up with the scan: what was put in is settled,
and what is left to do is behind it. -/
theorem Separate.step {admissible : List α → Prop} (separate : Separate admissible word rep)
    (settled : Settled word done (before ++ word ++ behind)) (leftmost : Leftmost word before)
    (now : admissible (done ++ (before ++ word ++ behind)))
    (next : admissible (done ++ before ++ rep ++ behind)) :
    Leftmost word (done ++ before) ∧ Settled word (done ++ before ++ rep) behind := by
  rw [List.append_assoc] at settled
  have first : Leftmost word (done ++ before) :=
    (Settled.append settled (leftmost.settled behind)).leftmost
  refine ⟨first, separate _ _ ?_ next first⟩
  rw [← List.append_assoc, ← List.append_assoc] at now
  exact now

end Comp304.Library.Substitution
