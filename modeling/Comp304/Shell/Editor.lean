import Comp304.Library.CString

/-! The line editor of `prompt`, key by key. Its arrays have 4096 bytes, and it keeps
the end of the line as an index only: no terminator is written behind the line
before it is complete. The echo and the settings of the terminal are left out. -/
namespace Comp304.Shell
open Library.CString

/-- `char buf[4096]` -/
structure Buffer where
  bytes : List Char
  size : bytes.length = 4096

/-- One that ends in a terminator somewhere, as `oldbuf` always does. -/
structure Terminated extends Buffer where
  ended : nul ∈ bytes

/-- The characters in front of the first terminator. -/
def Terminated.text (b : Terminated) : List Char := b.bytes.takeWhile (· ≠ nul)

theorem Terminated.holds (b : Terminated) : Holds b.bytes 0 b.text := by
  have split := List.takeWhile_append_dropWhile (p := (· ≠ nul)) (l := b.bytes)
  refine ⟨fun inside => by simpa using List.mem_takeWhile_imp inside, ?_⟩
  cases rest : b.bytes.dropWhile (· ≠ nul) with
  | nil =>
    have plain := List.dropWhile_eq_nil_iff.mp rest nul b.ended
    simp at plain
  | cons c after =>
    have stop := List.head?_dropWhile_not (· ≠ nul) b.bytes
    rw [rest] at stop split
    have zero : c = nul := by simpa using stop
    subst zero
    exact ⟨after, split.symm⟩

theorem Terminated.short (b : Terminated) : b.text.length < 4096 := by
  have inside := b.holds.inside
  rw [b.size] at inside
  omega

/-- Why the loop is left early: a write to `buf` at an index outside of it, or a
copy of `buf` when it has no terminator. -/
inductive Stop where
  | overrun (index : Nat)
  | unended
  deriving DecidableEq, Repr

/-- `buf[index] = c`, if the index is inside. -/
def Buffer.set (b : Buffer) (index : Nat) (c : Char) : Buffer where
  bytes := b.bytes.set index c
  size := by rw [List.length_set, b.size]

/-- `strcpy(dest, src)`, for which there is always room. -/
def Buffer.copy (dest : Buffer) (src : Terminated) : Terminated where
  bytes := src.text ++ nul :: dest.bytes.drop (src.text.length + 1)
  size := by
    have short := src.short
    rw [List.length_append, List.length_cons, List.length_drop, dest.size]
    omega
  ended := List.mem_append_right _ List.mem_cons_self

/-- The locals of `prompt` and the static `oldbuf`. -/
structure Editor where
  buf : Buffer
  index : Nat
  oldbuf : Terminated

/-- The line that is being edited. -/
def Editor.line (e : Editor) : List Char := e.buf.bytes.take e.index

/-- `buf[0] = 0`, in an array that holds anything. -/
def Editor.start (garbage : Buffer) (oldbuf : Terminated) : Editor where
  buf := garbage.set 0 nul
  index := 0
  oldbuf := oldbuf

def Editor.stored (e : Editor) (c : Char) : Editor := ⟨e.buf.set e.index c, e.index + 1, e.oldbuf⟩

/-- `buf[index++] = c` -/
def Editor.insert (e : Editor) (c : Char) : Except Stop Editor :=
  if e.index < 4096 then .ok (e.stored c) else .error (.overrun e.index)

/-- `buf` and `oldbuf` are exchanged, by way of `tmpbuf`. -/
def Editor.exchanged (e : Editor) (ended : nul ∈ e.buf.bytes) : Editor where
  buf := (e.buf.copy e.oldbuf).toBuffer
  index := e.oldbuf.text.length
  oldbuf := e.oldbuf.copy ⟨e.buf, ended⟩

/-- The key up. -/
def Editor.recall (e : Editor) : Except Stop Editor :=
  if ended : nul ∈ e.buf.bytes then .ok (e.exchanged ended) else .error .unended

/-- How a round of the loop ends. -/
inductive Turn where
  | again (e : Editor)
  | leave (e : Editor)
  | exit

/-- One round of the loop. The bytes of an escape sequence are looked at one by
one, so the keys for these letters do the same. -/
def Editor.key (e : Editor) (c : Char) : Except Stop Turn :=
  if c = '\t' then (e.insert '?').map .leave
  else if c = '\x7f' then .ok (.again { e with index := e.index - 1 })
  else if c = '\x1b' ∨ c = '[' ∨ c = 'B' ∨ c = 'C' ∨ c = 'D' then .ok (.again e)
  else if c = 'A' then e.recall.map .again
  else (e.insert c).map fun e =>
    if 4095 ≤ e.index ∨ c = '\n' then .leave e else if c = '\x04' then .exit else .again e

/-- `buf[index] = '\0'` -/
def Buffer.close (b : Buffer) (index : Nat) (inside : index < 4096) : Terminated where
  toBuffer := b.set index nul
  ended := List.mem_iff_getElem?.mpr ⟨index, List.getElem?_set_self (b.size ▸ inside)⟩

/-- The index without a newline at the end. -/
def Editor.trimmed (e : Editor) : Nat :=
  if 0 < e.index ∧ e.buf.bytes[e.index - 1]? = some '\n' then e.index - 1 else e.index

/-- The line that is handed on, and what `oldbuf` is then. -/
def Editor.finish (e : Editor) : Except Stop (Terminated × Terminated) :=
  if inside : e.trimmed < 4096 then
    let line := e.buf.close e.trimmed inside
    .ok (line, e.oldbuf.copy line)
  else .error (.overrun e.trimmed)

/-- What a key leads to: a line that is still edited, a line for `check_for_aliases`
with what is in `oldbuf` then, or the end of the shell. -/
inductive Outcome where
  | editing (e : Editor)
  | handed (line : Terminated) (oldbuf : Terminated)
  | exit

def Editor.press (e : Editor) (c : Char) : Except Stop Outcome := do
  match ← e.key c with
  | .again e => return .editing e
  | .leave e =>
    let (line, oldbuf) ← e.finish
    return .handed line oldbuf
  | .exit => return .exit

/-- The loop of `prompt`, and the keys that it leaves. -/
def Editor.type (e : Editor) : List Char → Except Stop (Outcome × List Char)
  | [] => .ok (.editing e, [])
  | c :: rest => do
    match ← e.press c with
    | .editing e => e.type rest
    | done => return (done, rest)

/-! ### The arrays -/

theorem Terminated.text_eq {b : Terminated} {text : List Char} (holds : Holds b.bytes 0 text) :
    b.text = text := b.holds.unique holds

@[simp] theorem Buffer.copy_text (dest : Buffer) (src : Terminated) : (dest.copy src).text = src.text :=
  Terminated.text_eq (holds_front src.holds.1 _)

/-- A string fills the array up to its terminator. -/
theorem Terminated.take_text (b : Terminated) : b.bytes.take b.text.length = b.text := by
  obtain ⟨-, after, same⟩ := b.holds
  rw [List.drop_zero] at same
  rw [same, List.take_left]

/-- The text in front of an index is the string exactly when the terminator is there. -/
theorem Terminated.text_eq_take_iff (b : Terminated) {index : Nat} (plain : nul ∉ b.bytes.take index)
    (room : index < 4096) : b.text = b.bytes.take index ↔ b.bytes[index]? = some nul := by
  have inside : index < b.bytes.length := by rwa [b.size]
  have split := List.take_append_drop index b.bytes
  constructor
  · intro same
    obtain ⟨-, after, whole⟩ := b.holds
    have length : b.text.length = index := by
      rw [same, List.length_take]
      omega
    rw [List.drop_zero] at whole
    rw [whole, ← length, List.getElem?_append_right (Nat.le_refl _), Nat.sub_self]
    rfl
  · intro zero
    apply Terminated.text_eq
    refine ⟨plain, b.bytes.drop (index + 1), ?_⟩
    obtain ⟨_, cell⟩ := List.getElem?_eq_some_iff.mp zero
    rw [← cell, ← List.drop_eq_getElem_cons inside, List.drop_zero, split]

/-! ### Keys -/

section
variable {e : Editor} {c : Char}

/-- A key that is stored and goes on. -/
def Ordinary (c : Char) : Prop :=
  c ∉ ['\t', '\n', '\x04', '\x7f', '\x1b', '[', 'A', 'B', 'C', 'D']

instance (c : Char) : Decidable (Ordinary c) := inferInstanceAs (Decidable (¬ _))

theorem key_class (c : Char) : c = '\t' ∨ c = '\n' ∨ c = '\x04' ∨ c = '\x7f' ∨
    c ∈ ['\x1b', '[', 'B', 'C', 'D'] ∨ c = 'A' ∨ Ordinary c := by
  by_cases ordinary : Ordinary c
  · simp only [ordinary, or_true]
  · simp only [Ordinary, not_not, List.mem_cons, List.not_mem_nil, or_false] at ordinary ⊢
    grind

theorem key_ignored (ignored : c ∈ ['\x1b', '[', 'B', 'C', 'D']) : e.key c = .ok (.again e) := by
  simp only [List.mem_cons, List.not_mem_nil, or_false] at ignored
  rcases ignored with rfl | rfl | rfl | rfl | rfl <;> rfl

theorem key_stored (ordinary : Ordinary c) (room : e.index < 4096) :
    e.key c = .ok (if 4094 ≤ e.index then .leave (e.stored c) else .again (e.stored c)) := by
  simp only [Ordinary, List.mem_cons, List.not_mem_nil, or_false, not_or] at ordinary
  obtain ⟨tab, newline, quit, delete, escape, bracket, up, down, right, left⟩ := ordinary
  have full : 4095 ≤ e.index + 1 ↔ 4094 ≤ e.index := by omega
  simp only [Editor.key, Editor.insert, if_pos room, tab, newline, quit, delete, escape, bracket, up,
    down, right, left, or_false, if_false, Except.map, Editor.stored, full]

/-- What a key is stored behind is the line. -/
theorem stored_line (room : e.index < 4096) (c : Char) : (e.stored c).line = e.line ++ [c] := by
  have inside : e.index < e.buf.bytes.length := by rwa [e.buf.size]
  rw [Editor.line, Editor.stored, Buffer.set, List.take_succ_eq_append_getElem (by simpa using inside),
    List.take_set_of_le (Nat.le_refl _), List.getElem_set_self]
  rfl

theorem exchanged_line (ended : nul ∈ e.buf.bytes) : (e.exchanged ended).line = e.oldbuf.text := by
  have line := (e.buf.copy e.oldbuf).take_text
  rw [Buffer.copy_text] at line
  exact line

/-- The mark of a tab completes the line as well. -/
theorem key_tab (room : e.index < 4096) : e.key '\t' = .ok (.leave (e.stored '?')) := by
  simp [Editor.key, Editor.insert, room, Except.map]

theorem key_quit (room : e.index < 4096) : e.key '\x04' =
    .ok (if 4094 ≤ e.index then .leave (e.stored '\x04') else .exit) := by
  have full : 4095 ≤ e.index + 1 ↔ 4094 ≤ e.index := by omega
  simp [Editor.key, Editor.insert, room, Except.map, Editor.stored, full]

theorem start_ended (garbage : Buffer) (oldbuf : Terminated) :
    nul ∈ (Editor.start garbage oldbuf).buf.bytes :=
  (garbage.close 0 (by decide)).ended

theorem key_up (ended : nul ∈ e.buf.bytes) :
    e.key 'A' = .ok (.again (e.exchanged ended)) := by
  have recalled : e.recall = .ok _ := dif_pos ended
  exact congrArg (Except.map Turn.again) recalled

theorem key_up_unended (unended : nul ∉ e.buf.bytes) : e.key 'A' = .error .unended := by
  have stopped : e.recall = .error _ := dif_neg unended
  exact congrArg (Except.map Turn.again) stopped

/-- A newline is stored and completes the line, as it does when there is no room for more. -/
theorem key_newline (room : e.index < 4096) : e.key '\n' = .ok (.leave (e.stored '\n')) := by
  simp [Editor.key, Editor.insert, room, Except.map]

theorem length_line (room : e.index ≤ 4096) : e.line.length = e.index := by
  rw [Editor.line, List.length_take, e.buf.size]
  omega

theorem trimmed_eq (room : e.index ≤ 4096) :
    e.trimmed = if e.line.getLast? = some '\n' then e.index - 1 else e.index := by
  have last : (0 < e.index ∧ e.buf.bytes[e.index - 1]? = some '\n') ↔
      e.line.getLast? = some '\n' := by
    rw [List.getLast?_eq_getElem?, length_line room, Editor.line]
    cases e.index with
    | zero => simp
    | succ i =>
      rw [List.getElem?_take_of_lt (by omega)]
      simp
  simp only [Editor.trimmed, last]

theorem trimmed_stored (room : e.index < 4096) (c : Char) :
    (e.stored c).trimmed = if c = '\n' then e.index else e.index + 1 := by
  rw [trimmed_eq (e := e.stored c) room, stored_line room, List.getLast?_concat]
  simp [Editor.stored]

theorem close_text (b : Buffer) (inside : index < 4096) (plain : nul ∉ b.bytes.take index) :
    (b.close index inside).text = b.bytes.take index := by
  have same : (b.close index inside).bytes.take index = b.bytes.take index :=
    List.take_set_of_le (Nat.le_refl index)
  rw [← same] at plain ⊢
  rw [Terminated.text_eq_take_iff _ plain inside]
  exact List.getElem?_set_self (b.size ▸ inside)

/-- What is handed on is the line without a newline. -/
theorem finish_ok (inside : e.trimmed < 4096) (plain : nul ∉ e.line) :
    ∃ line, e.finish = .ok (line, e.oldbuf.copy line) ∧
      line.text = e.buf.bytes.take e.trimmed := by
  refine ⟨_, dif_pos inside, close_text e.buf inside fun zero => plain ?_⟩
  refine List.take_subset_take_left _ ?_ zero
  rw [Editor.trimmed]
  split <;> omega

end

end Comp304.Shell
