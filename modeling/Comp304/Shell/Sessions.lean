import Comp304.Library.Budget
import Comp304.Shell.Editor

/-! Keys over any number of prompts. `oldbuf` carries a line from one prompt to the
next, and every prompt finds another array for `buf`. -/
namespace Comp304.Shell
open Library.CString Library.Budget

/-- How many prompts were completed, and the editor of the one that is open. -/
structure Session where
  prompts : Nat
  editor : Editor

namespace Session

theorem cleared_size : (List.replicate 4096 nul).length = 4096 := List.length_replicate

/-- `oldbuf` when the shell starts. -/
def cleared : Terminated where
  bytes := List.replicate 4096 nul
  size := cleared_size
  ended := List.mem_replicate.mpr ⟨by decide, rfl⟩

def first (garbage : Nat → Buffer) : Session := ⟨0, .start (garbage 0) cleared⟩

section
variable (garbage : Nat → Buffer)

/-- The prompt behind this one. -/
def next (t : Session) (oldbuf : Terminated) : Session where
  prompts := t.prompts + 1
  editor := .start (garbage (t.prompts + 1)) oldbuf

/-- One key. -/
def press (t : Session) (c : Char) : Except Stop (Option Session) := do
  match ← t.editor.press c with
  | .editing e => return some ⟨t.prompts, e⟩
  | .handed _ oldbuf => return some (t.next garbage oldbuf)
  | .exit => return none

/-- The state after some keys, unless the shell has ended. -/
def run (t : Session) : List Char → Except Stop (Option Session)
  | [] => .ok (some t)
  | c :: rest => do
    match ← t.press garbage c with
    | some t => t.run rest
    | none => return none

end

section
variable {garbage : Nat → Buffer} {t t' : Session} {c : Char}

theorem press_again {e : Editor} (again : t.editor.key c = .ok (.again e)) :
    t.press garbage c = .ok (some ⟨t.prompts, e⟩) := by
  rw [press, Editor.press, again]
  rfl

theorem press_leave {e : Editor} (leave : t.editor.key c = .ok (.leave e)) :
    t.press garbage c = e.finish.map fun (_, oldbuf) => some (t.next garbage oldbuf) := by
  simp only [press, Editor.press, leave, ok_bind]
  cases e.finish with
  | error stop => rfl
  | ok buffers => rfl

/-- What a key does that is followed by another one. -/
inductive Pressed (garbage : Nat → Buffer) (t : Session) : Char → Session → Prop
  | delete : Pressed garbage t '\x7f' ⟨t.prompts, { t.editor with index := t.editor.index - 1 }⟩
  | ignored (c : Char) : Pressed garbage t c t
  | exchanged (ended : nul ∈ t.editor.buf.bytes) : Pressed garbage t 'A'
      ⟨t.prompts, t.editor.exchanged ended⟩
  | stored (c : Char) (room : t.editor.index < 4094) :
      Pressed garbage t c ⟨t.prompts, t.editor.stored c⟩
  | complete (c : Char) (oldbuf : Terminated) : Pressed garbage t c (t.next garbage oldbuf)

/-- A key for which there is no room at the last index of the array. -/
def Filling (c : Char) : Prop := c ∉ ['\n', '\x7f', '\x1b', '[', 'A', 'B', 'C', 'D']

instance (c : Char) : Decidable (Filling c) := inferInstanceAs (Decidable (¬ _))

theorem ignored_not_filling (ignored : c ∈ ['\x1b', '[', 'B', 'C', 'D']) : ¬ Filling c := by
  have listed : ['\x1b', '[', 'B', 'C', 'D'] ⊆
      ['\n', '\x7f', '\x1b', '[', 'A', 'B', 'C', 'D'] := by decide
  exact fun filling => filling (listed ignored)

theorem ordinary_filling (ordinary : Ordinary c) : Filling c := by
  have fewer : ['\n', '\x7f', '\x1b', '[', 'A', 'B', 'C', 'D'] ⊆
      ['\t', '\n', '\x04', '\x7f', '\x1b', '[', 'A', 'B', 'C', 'D'] := by decide
  exact fun inside => ordinary (fewer inside)

/-- The key does not stop the loop by a fault of its index. -/
def Fits (garbage : Nat → Buffer) (t : Session) (c : Char) : Prop :=
  t.press garbage c = .error .unended ∨ t.press garbage c = .ok none ∨
    ∃ t', t.press garbage c = .ok (some t') ∧ Pressed garbage t c t'

theorem fits_again {e : Editor} (again : t.editor.key c = .ok (.again e))
    (pressed : Pressed garbage t c ⟨t.prompts, e⟩) : Fits garbage t c :=
  Or.inr (Or.inr ⟨_, press_again again, pressed⟩)

/-- A key behind which the line is complete. -/
theorem fits_leave (room : t.editor.index < 4096)
    (leave : t.editor.key c = .ok (.leave (t.editor.stored d)))
    (free : t.editor.index < 4095 ∨ d = '\n') : Fits garbage t c := by
  have trimmed := trimmed_stored room d
  have fits : (t.editor.stored d).trimmed < 4096 := by
    split at trimmed
    · omega
    · next other =>
      have below := free.resolve_right other
      omega
  have finish : (t.editor.stored d).finish = .ok (_, _) := dif_pos fits
  exact Or.inr (Or.inr ⟨_, (press_leave leave).trans (congrArg (Except.map _) finish), .complete c _⟩)

theorem overrun_leave (full : t.editor.index = 4095)
    (leave : t.editor.key c = .ok (.leave (t.editor.stored d))) (other : d ≠ '\n') :
    t.press garbage c = .error (.overrun 4096) := by
  have trimmed := trimmed_stored (Nat.lt_of_le_of_lt (Nat.le_of_eq full) (by decide)) d
  rw [if_neg other, full] at trimmed
  rw [press_leave leave, Editor.finish, dif_neg (by omega), trimmed]
  rfl

/-- One key overruns the array exactly if it fills it from the last index on. -/
theorem press_cases (garbage : Nat → Buffer) (room : t.editor.index ≤ 4095) (c : Char) :
    (t.editor.index = 4095 ∧ Filling c ∧ t.press garbage c = .error (.overrun 4096)) ∨
    (¬ (t.editor.index = 4095 ∧ Filling c) ∧ Fits garbage t c) := by
  have inside : t.editor.index < 4096 := Nat.lt_succ_of_le room
  by_cases full : t.editor.index = 4095 ∧ Filling c
  · obtain ⟨last, filling⟩ := full
    refine Or.inl ⟨last, filling, ?_⟩
    have late : 4094 ≤ t.editor.index := by omega
    rcases key_class c with rfl | rfl | rfl | rfl | ignored | rfl | ordinary
    · exact overrun_leave last (key_tab inside) (by decide)
    · exact absurd filling (by decide)
    · exact overrun_leave last ((key_quit inside).trans (by rw [if_pos late])) (by decide)
    · exact absurd filling (by decide)
    · exact absurd filling (ignored_not_filling ignored)
    · exact absurd filling (by decide)
    · refine overrun_leave last ((key_stored ordinary inside).trans (by rw [if_pos late])) ?_
      rintro rfl
      exact absurd ordinary (by decide)
  · refine Or.inr ⟨full, ?_⟩
    have free : Filling c → t.editor.index < 4095 := fun filling =>
      Nat.lt_of_le_of_ne room fun last => full ⟨last, filling⟩
    rcases key_class c with rfl | rfl | rfl | rfl | ignored | rfl | ordinary
    · exact fits_leave inside (key_tab inside) (Or.inl (free (by decide)))
    · exact fits_leave inside (key_newline inside) (Or.inr rfl)
    · have quit := key_quit inside
      split at quit
      · exact fits_leave inside quit (Or.inl (free (by decide)))
      · refine Or.inr (Or.inl ?_)
        rw [press, Editor.press, quit]
        rfl
    · exact fits_again rfl .delete
    · exact fits_again (key_ignored ignored) (.ignored c)
    · by_cases ended : nul ∈ t.editor.buf.bytes
      · exact fits_again (key_up ended) (.exchanged ended)
      · left
        rw [press, Editor.press, key_up_unended ended]
        rfl
    · have stored := key_stored ordinary inside
      split at stored
      · exact fits_leave inside stored (Or.inl (free (ordinary_filling ordinary)))
      · next room => exact fits_again stored (.stored c (Nat.lt_of_not_le room))

theorem Pressed.room (pressed : Pressed garbage t c t') (room : t.editor.index ≤ 4095) :
    t'.editor.index ≤ 4095 := by
  cases pressed with
  | delete => exact Nat.le_trans (Nat.sub_le _ 1) room
  | ignored => exact room
  | exchanged ended => exact Nat.le_of_lt_succ t.editor.oldbuf.short
  | stored c below => exact Nat.le_trans (Nat.le_of_lt (Nat.succ_lt_succ below)) (by decide)
  | complete => exact Nat.zero_le _

/-! ### The bounds of `buf` -/

/-- No key leads to a write to `buf` at an index outside of it. -/
def InBounds (garbage : Nat → Buffer) (t : Session) (keys : List Char) : Prop :=
  ∀ index, t.run garbage keys ≠ .error (.overrun index)

/-- No key that fills the array is pressed when the line takes up all but its last byte. -/
def KeepsFree (garbage : Nat → Buffer) (t : Session) (keys : List Char) : Prop :=
  ∀ before c, before ++ [c] <+: keys → ∀ t', t.run garbage before = .ok (some t') →
    ¬ (t'.editor.index = 4095 ∧ Filling c)

theorem keepsFree_cons : KeepsFree garbage t (c :: rest) ↔
    ¬ (t.editor.index = 4095 ∧ Filling c) ∧
      ∀ t', t.press garbage c = .ok (some t') → KeepsFree garbage t' rest := by
  constructor
  · intro free
    refine ⟨free [] c (by simp) t rfl, fun t' pressed before d behind t'' ran => ?_⟩
    refine free (c :: before) d (by simpa using behind) t'' ?_
    rw [run, pressed]
    exact ran
  · rintro ⟨here, later⟩ before d front t' ran
    cases before with
    | nil =>
      obtain ⟨rfl, -⟩ := List.cons_prefix_cons.mp front
      cases ran
      exact here
    | cons x before =>
      obtain ⟨rfl, behind⟩ := List.cons_prefix_cons.mp front
      rw [run] at ran
      obtain ⟨reached, pressed, ran⟩ := bind_eq_ok.mp ran
      cases reached with
      | none => cases ran
      | some t₁ => exact later t₁ pressed before d behind t' ran

theorem inBounds_iff (room : t.editor.index ≤ 4095) (keys : List Char) :
    InBounds garbage t keys ↔ KeepsFree garbage t keys := by
  induction keys generalizing t with
  | nil =>
    refine ⟨fun _ before c front => ?_, fun _ index => nofun⟩
    exact absurd (List.prefix_nil.mp front) (by simp)
  | cons c rest ih =>
    rw [keepsFree_cons]
    obtain ⟨last, filling, stopped⟩ | ⟨free, fits⟩ := press_cases garbage room c
    · have overrun : t.run garbage (c :: rest) = .error (.overrun 4096) := by
        rw [run, stopped]
        rfl
      exact iff_of_false (fun bounds => bounds 4096 overrun) fun free => free.1 ⟨last, filling⟩
    · rw [and_iff_right free]
      obtain stopped | exit | ⟨t', pressed, next⟩ := fits
      · have ran : t.run garbage (c :: rest) = .error .unended := by
          rw [run, stopped]
          rfl
        simp [InBounds, ran, stopped]
      · have ran : t.run garbage (c :: rest) = .ok none := by
          rw [run, exit]
          rfl
        simp [InBounds, ran, exit]
      · have ran : t.run garbage (c :: rest) = t'.run garbage rest := by
          rw [run, pressed]
          rfl
        simp only [InBounds, ran, pressed, Except.ok.injEq, Option.some.injEq, forall_eq']
        exact ih (next.room room)

theorem run_append (garbage : Nat → Buffer) (keys rest : List Char) :
    t.run garbage (keys ++ rest) = t.run garbage keys >>= fun reached =>
      match reached with
      | some t => t.run garbage rest
      | none => .ok none := by
  induction keys generalizing t with
  | nil => rfl
  | cons c keys ih =>
    simp only [List.cons_append, run, bind_assoc]
    refine bind_congr fun reached => ?_
    cases reached with
    | none => rfl
    | some t' => exact ih

/-- A text is typed behind the line. -/
theorem run_text (garbage : Nat → Buffer) (ordinary : ∀ c ∈ text, Ordinary c) (room : t.editor.index + text.length ≤ 4094) :
    ∃ e, t.run garbage text = .ok (some ⟨t.prompts, e⟩) ∧ e.line = t.editor.line ++ text ∧
      e.index = t.editor.index + text.length := by
  induction text generalizing t with
  | nil => exact ⟨t.editor, rfl, (List.append_nil _).symm, rfl⟩
  | cons c text ih =>
    obtain ⟨first, ordinary⟩ := List.forall_mem_cons.mp ordinary
    rw [List.length_cons] at room
    have inside : t.editor.index < 4096 := by omega
    have stored := key_stored first inside
    rw [if_neg (by omega)] at stored
    have count : (t.editor.stored c).index = t.editor.index + 1 := rfl
    obtain ⟨e, ran, line, index⟩ := ih (t := ⟨t.prompts, t.editor.stored c⟩) ordinary (by rw [count]; omega)
    refine ⟨e, ?_, ?_, ?_⟩
    · rw [run, press_again stored]
      exact ran
    · rw [line, stored_line inside, List.append_assoc]
      rfl
    · rw [index, count, List.length_cons]
      omega

theorem run_ignored (garbage : Nat → Buffer) (ignored : c ∈ ['\x1b', '[', 'B', 'C', 'D'])
    (keys : List Char) : t.run garbage (c :: keys) = t.run garbage keys := by
  rw [run, press_again (key_ignored ignored)]
  rfl

/-- The three bytes of the key up. -/
theorem run_up (garbage : Nat → Buffer) (ended : nul ∈ t.editor.buf.bytes) (keys : List Char) :
    t.run garbage ('\x1b' :: '[' :: 'A' :: keys) =
      run garbage ⟨t.prompts, t.editor.exchanged ended⟩ keys := by
  rw [run_ignored garbage (by decide), run_ignored garbage (by decide), run,
    press_again (key_up ended)]
  rfl

theorem run_up_unended (garbage : Nat → Buffer) (unended : nul ∉ t.editor.buf.bytes)
    (keys : List Char) : t.run garbage ('\x1b' :: '[' :: 'A' :: keys) = .error .unended := by
  rw [run_ignored garbage (by decide), run_ignored garbage (by decide), run, press, Editor.press,
    key_up_unended unended]
  rfl

/-- A line of 4095 characters is completed by its last one, and the next prompt has
all of it back by one key. -/
theorem run_full (garbage : Nat → Buffer) (ordinary : ∀ c ∈ text ++ [last], Ordinary c)
    (plain : nul ∉ text ++ [last]) (full : text.length = 4094) (empty : t.editor.index = 0) :
    ∃ t', t.run garbage (text ++ [last, '\x1b', '[', 'A']) = .ok (some t') ∧
      t'.editor.index = 4095 := by
  obtain ⟨front, ordinaryLast⟩ := List.forall_mem_append.mp ordinary
  obtain ⟨e, ran, line, index⟩ := run_text (t := t) garbage front (by omega)
  have inside : e.index < 4096 := by omega
  have newline : last ≠ '\n' := by
    rintro rfl
    exact absurd (ordinaryLast '\n' List.mem_cons_self) (by decide)
  have stored := key_stored (ordinaryLast last List.mem_cons_self) inside
  rw [if_pos (by omega)] at stored
  have trimmed := trimmed_stored inside last
  rw [if_neg newline] at trimmed
  have whole : (e.stored last).line = text ++ [last] := by
    rw [stored_line inside, line, Editor.line, empty]
    rfl
  have fits : (e.stored last).trimmed = 4095 := by omega
  obtain ⟨handed, finish, same⟩ := finish_ok (e := e.stored last) (by omega) (whole ▸ plain)
  have length : (e.oldbuf.copy handed).text.length = 4095 := by
    rw [Buffer.copy_text, same, fits, List.length_take, Buffer.size]
    rfl
  have completed : (⟨t.prompts, e⟩ : Session).press garbage last =
      .ok (some (next garbage ⟨t.prompts, e⟩ (e.oldbuf.copy handed))) :=
    (press_leave stored).trans (congrArg (Except.map _) finish)
  let opened := next garbage ⟨t.prompts, e⟩ (e.oldbuf.copy handed)
  refine ⟨⟨opened.prompts, opened.editor.exchanged (start_ended _ _)⟩, ?_, length⟩
  rw [run_append, ran, ok_bind]
  simp only [run, completed, ok_bind]
  exact run_up garbage (start_ended _ _) []

/-- Whatever keys are pressed, no write to `buf` is outside of it as long as no key
that fills the array is pressed at its last index, and only that long. -/
theorem buf_in_bounds_iff (garbage : Nat → Buffer) (keys : List Char) :
    InBounds garbage (first garbage) keys ↔ KeepsFree garbage (first garbage) keys :=
  inBounds_iff (Nat.zero_le _) keys

/-- A full line, the key up and one more character: the terminator is written behind
the array. -/
theorem full_line_overruns : ¬ InBounds (fun _ => cleared.toBuffer)
    (first fun _ => cleared.toBuffer) (List.replicate 4095 'x' ++ ['\x1b', '[', 'A', 'x']) := by
  have text : List.replicate 4095 'x' = List.replicate 4094 'x' ++ ['x'] := List.replicate_succ'
  have all : ∀ c ∈ List.replicate 4095 'x', c = 'x' := fun _ => List.eq_of_mem_replicate
  have ordinary : ∀ c ∈ List.replicate 4095 'x', Ordinary c := by
    intro c member
    rw [all c member]
    decide
  have plain : nul ∉ List.replicate 4095 'x' := fun member => absurd (all nul member) (by decide)
  rw [text] at ordinary plain
  obtain ⟨t, ran, full⟩ := run_full (t := first fun _ => cleared.toBuffer) (fun _ => cleared.toBuffer)
    ordinary plain List.length_replicate rfl
  intro bounds
  obtain ⟨-, -, overrun⟩ | ⟨free, -⟩ := press_cases (fun _ => cleared.toBuffer) (Nat.le_of_eq full) 'x'
  · refine bounds 4096 ?_
    have keys : List.replicate 4095 'x' ++ ['\x1b', '[', 'A', 'x'] =
        List.replicate 4094 'x' ++ ['x', '\x1b', '[', 'A'] ++ ['x'] := by
      rw [text]
      simp only [List.append_assoc, List.cons_append, List.nil_append]
    rw [keys, run_append, ran, ok_bind]
    simp only [run, overrun]
    rfl
  · exact free ⟨full, by decide⟩

/-! ### The key up twice -/

/-- The key up twice gives the line and the one that is saved back. -/
def Toggles (garbage : Nat → Buffer) (t : Session) : Prop :=
  ∃ t', t.run garbage ['\x1b', '[', 'A', '\x1b', '[', 'A'] = .ok (some t') ∧
    t'.editor.line = t.editor.line ∧ t'.editor.oldbuf.text = t.editor.oldbuf.text

/-- No character of the line is a terminator. -/
theorem Pressed.plain (pressed : Pressed garbage t c t') (other : c ≠ nul)
    (plain : nul ∉ t.editor.line) : nul ∉ t'.editor.line := by
  cases pressed with
  | delete => exact fun zero => plain (List.take_subset_take_left _ (Nat.sub_le _ 1) zero)
  | ignored => exact plain
  | exchanged ended =>
    rw [exchanged_line ended]
    exact t.editor.oldbuf.holds.1
  | stored c below =>
    rw [stored_line (by omega), List.mem_append, List.mem_singleton, not_or]
    exact ⟨plain, Ne.symm other⟩
  | complete => exact nofun

theorem run_plain (ran : t.run garbage keys = .ok (some t')) (typed : nul ∉ keys)
    (room : t.editor.index ≤ 4095) (plain : nul ∉ t.editor.line) :
    t'.editor.index ≤ 4095 ∧ nul ∉ t'.editor.line := by
  induction keys generalizing t with
  | nil =>
    cases ran
    exact ⟨room, plain⟩
  | cons c keys ih =>
    obtain ⟨other, typed⟩ := List.ne_and_not_mem_of_not_mem_cons typed
    rw [run] at ran
    obtain ⟨reached, step, ran⟩ := bind_eq_ok.mp ran
    cases reached with
    | none => cases ran
    | some t₁ =>
      obtain ⟨-, -, stopped⟩ | ⟨-, stopped | exit | ⟨t₂, same, pressed⟩⟩ :=
        press_cases garbage room c
      · cases step.symm.trans stopped
      · cases step.symm.trans stopped
      · cases step.symm.trans exit
      · cases step.symm.trans same
        exact ih ran typed (pressed.room room) (pressed.plain (Ne.symm other) plain)

/-- The terminator is right behind the line that is being edited. -/
def LineEnds (t : Session) : Prop := t.editor.buf.bytes[t.editor.index]? = some nul

theorem toggles_iff (garbage : Nat → Buffer) (room : t.editor.index ≤ 4095)
    (plain : nul ∉ t.editor.line) : Toggles garbage t ↔ LineEnds t := by
  by_cases ended : nul ∈ t.editor.buf.bytes
  · have again : nul ∈ (t.editor.exchanged ended).buf.bytes :=
      (t.editor.buf.copy t.editor.oldbuf).ended
    have ran : t.run garbage ['\x1b', '[', 'A', '\x1b', '[', 'A'] =
        .ok (some ⟨t.prompts, (t.editor.exchanged ended).exchanged again⟩) := by
      rw [run_up garbage ended]
      exact run_up garbage again []
    have line : ((t.editor.exchanged ended).exchanged again).line =
        Terminated.text ⟨t.editor.buf, ended⟩ :=
      (exchanged_line again).trans (Buffer.copy_text ..)
    have saved : ((t.editor.exchanged ended).exchanged again).oldbuf.text = t.editor.oldbuf.text :=
      (Buffer.copy_text ..).trans (Buffer.copy_text ..)
    have text := Terminated.text_eq_take_iff ⟨t.editor.buf, ended⟩ plain (Nat.lt_succ_of_le room)
    rw [LineEnds, ← text]
    constructor
    · rintro ⟨t', twice, same, -⟩
      cases ran.symm.trans twice
      exact line.symm.trans same
    · exact fun same => ⟨_, ran, line.trans same, saved⟩
  · refine iff_of_false ?_ fun zero => ended (List.mem_of_getElem? zero)
    rintro ⟨t', twice, -⟩
    rw [run_up_unended garbage ended] at twice
    cases twice

/-- In every state that any keys lead to, the key up twice changes nothing exactly if the
line is terminated there. -/
theorem up_twice_iff (garbage : Nat → Buffer) (keys : List Char) (typed : nul ∉ keys)
    (ran : (first garbage).run garbage keys = .ok (some t)) : Toggles garbage t ↔ LineEnds t := by
  obtain ⟨room, plain⟩ := run_plain ran typed (Nat.zero_le _) nofun
  exact toggles_iff garbage room plain

/-- An array that is not clear. -/
def used : Buffer := cleared.toBuffer.set 2 'x'

/-- The line `ls` at one prompt; at the next one `ab`, a deletion and the key up. -/
def edited : List Char := ['l', 's', '\n', 'a', 'b', '\x7f', '\x1b', '[', 'A']

/-- The earlier line is back, and what was saved ends only at the next terminator. -/
theorem up_twice_iff_edited : ∃ t, (first fun _ => used).run (fun _ => used) edited = .ok (some t) ∧
    t.prompts = 1 ∧ t.editor.line = ['l', 's'] ∧ t.editor.oldbuf.text = ['a', 'b', 'x'] ∧
      (Toggles (fun _ => used) t ↔ LineEnds t) := by
  refine ⟨_, rfl, rfl, rfl, rfl, ?_⟩
  exact up_twice_iff (fun _ => used) edited (by decide) rfl

/-- A character that was deleted comes back: the line `a`, once `ab`, is `ab` again. -/
theorem deleted_character_comes_back : ∃ t, (first fun _ => cleared.toBuffer).run
    (fun _ => cleared.toBuffer) ['a', 'b', '\x7f'] = .ok (some t) ∧
      ¬ Toggles (fun _ => cleared.toBuffer) t := by
  let t : Session := ⟨0, ((cleared.toBuffer.set 0 nul).set 0 'a').set 1 'b', 1, cleared⟩
  have plain : nul ∉ t.editor.line := by
    have line : t.editor.line = ['a'] := rfl
    rw [line]
    decide
  refine ⟨t, rfl, fun toggles => ?_⟩
  have ends : some 'b' = some nul := (toggles_iff _ (Nat.le_of_ble_eq_true rfl) plain).mp toggles
  exact absurd ends (by decide)

end

end Session

end Comp304.Shell
