import Comp304.Shell.Program

/-! What the scan of a line depends on: only its words. A word is handled by the
progress of the stage, whatever has been done to the buffer before, and a nested
call leaves the scan at the end of the line. -/
namespace Comp304.Shell
open Library Library.CString Library.Budget

/-- The scan goes on at a text with these words. -/
def Machine.Scans (m : Machine) (ws : List (List Char)) : Prop :=
  ∃ p text, m.save = some p ∧ Holds m.bytes p text ∧ words splitters text = ws

/-- The scan goes on at this text, with these bytes behind its terminator. -/
def Machine.Reads (m : Machine) (text behind : List Char) : Prop :=
  ∃ p, m.save = some p ∧ Spans m.bytes p text behind

/-- There is no white space at the end. -/
def Trimmed (text : List Char) : Prop := ∀ c, text.getLast? = some c → c ∉ splitters

/-- The scan is at the end of the string. -/
def Machine.Done (m : Machine) : Prop := ∃ p, m.save = some p ∧ Holds m.bytes p []

/-- The same buffer size and count of blocks. -/
def Machine.Alike (m m' : Machine) : Prop :=
  m'.bytes.length = m.bytes.length ∧ m'.structs = m.structs

theorem Machine.Alike.refl (m : Machine) : m.Alike m := ⟨rfl, rfl⟩

theorem Machine.Alike.trans {m m' m'' : Machine} (first : m.Alike m') (second : m'.Alike m'') :
    m.Alike m'' := ⟨second.1.trans first.1, second.2.trans first.2⟩

/-- What the loop does with a token that is no pipe. -/
def Progress.take (pr : Progress) (w : List Char) : Except Fault Progress :=
  match pr.redirectIndex with
  | some i => .ok (pr.takeFile i w)
  | none => pr.takeArg (trim w)

theorem Machine.Reads.scans {m : Machine} (reads : m.Reads text behind) :
    m.Scans (words splitters text) := by
  obtain ⟨p, at_, spans⟩ := reads
  exact ⟨p, text, at_, spans.holds, rfl⟩

theorem Machine.Scans.reads {m : Machine} (scans : m.Scans ws) :
    ∃ text behind, m.Reads text behind ∧ words splitters text = ws := by
  obtain ⟨p, text, at_, holds, found⟩ := scans
  obtain ⟨behind, spans⟩ := holds.spans
  exact ⟨text, behind, ⟨p, at_, spans⟩, found⟩

theorem Machine.Reads.whole {m : Machine} (reads : m.Reads text behind) : nul ∉ text := by
  obtain ⟨p, -, spans⟩ := reads
  exact spans.1

theorem Trimmed.suffix (trimmed : Trimmed text) (ending : rest <:+ text) : Trimmed rest := by
  obtain ⟨front, rfl⟩ := ending
  intro c last
  refine trimmed c ?_
  rw [List.getLast?_append, last]
  rfl

theorem Machine.Done.scans {m : Machine} (done : m.Done) : m.Scans [] := by
  obtain ⟨p, at_, holds⟩ := done
  exact ⟨p, [], at_, holds, rfl⟩

/-- A terminator more does not matter at the end. -/
theorem Machine.Done.write {m : Machine} (done : m.Done) (q structs : Nat) :
    Machine.Done ⟨⟨m.bytes.set q nul, m.save⟩, structs⟩ := by
  obtain ⟨p, at_, whole, after, same⟩ := done
  refine ⟨p, at_, whole, ?_⟩
  simp only [List.drop_set, same, List.nil_append]
  split
  · exact ⟨after, rfl⟩
  · cases q - p with
    | zero => exact ⟨after, rfl⟩
    | succ i => exact ⟨after.set i nul, rfl⟩

theorem trim_word (plain : ∀ c ∈ w, c ∉ splitters) (whole : nul ∉ w) : trim w = w := by
  have outside : ∀ c ∈ w, inSplitters c = false := fun c member => by
    have other : c ≠ nul := fun same => whole (same ▸ member)
    simp [inSplitters, plain c member, other]
  have front : w.dropWhile inSplitters = w := by
    cases w with
    | nil => rfl
    | cons c w => exact List.dropWhile_cons_of_neg (by simp [outside c List.mem_cons_self])
  rw [trim, front]
  refine List.rdropWhile_eq_self_iff.mpr fun nonempty => ?_
  simp [outside _ (List.getLast_mem nonempty)]

theorem trim_of_mem (whole : nul ∉ text) (member : w ∈ words splitters text) :
    trim w = w ∧ w ≠ [] := by
  obtain ⟨nonempty, plain⟩ := words_mem member
  exact ⟨trim_word (fun c inside => (plain c inside).1) fun zero => whole (plain nul zero).2, nonempty⟩

/-! ### The arguments -/

section
variable {pr : Progress} {name : Stored}

/-- The cells of `args` that have been set. -/
def Progress.held (pr : Progress) : List (Option Stored) :=
  Cells.resize pr.unset pr.argIndex pr.args

/-- The progress with one more argument. -/
def Progress.passed (pr : Progress) (arg : Stored) : Progress :=
  { pr with args := pr.held ++ [some arg], argIndex := pr.argIndex + 1 }

/-- The stage with the name in front of its arguments and `NULL` behind them. -/
def Progress.staged (pr : Progress) (name : Stored) : Stage where
  name := name
  argCount := pr.argIndex + 1
  args := some (stored name.text) :: pr.held ++ [none]
  redirects := pr.redirects
  redirectFiles := pr.redirectFiles
  redirectIdxs := pr.redirectIdxs

@[simp] theorem length_held (pr : Progress) : pr.held.length = pr.argIndex := Cells.length_resize ..

theorem pass_eq (pr : Progress) (arg : Stored) : pr.pass arg = .ok (pr.passed arg) := by
  rw [Progress.pass, Cells.set_resize, ok_bind]
  rfl

@[simp] theorem held_passed (pr : Progress) (arg : Stored) :
    (pr.passed arg).held = pr.held ++ [some arg] := by
  have size : (pr.held ++ [some arg]).length = pr.argIndex + 1 := by simp
  rw [Progress.held, Progress.passed]
  simp only
  rw [← size, Cells.resize_length]

theorem stage_eq (pr : Progress) (name : Stored) : pr.stage name = .ok (pr.staged name) := by
  have moved := Cells.shift_resize pr.unset pr.argIndex pr.args
    (some (stored name.text)) none
  obtain ⟨cells, up, moved⟩ := bind_eq_ok.mp moved
  obtain ⟨cells', front, moved⟩ := bind_eq_ok.mp moved
  rw [Progress.stage, up, ok_bind, front, ok_bind, moved]
  rfl

end

/-! ### One word -/

section
variable {pr : Progress} {w : List Char} {k : Fin 3}

theorem take_file (pending : pr.redirectIndex = some k) (w : List Char) :
    pr.take w = .ok (pr.takeFile k w) := by
  simp only [Progress.take, pending]

theorem take_word (between : pr.redirectIndex = none) (trimmed : trim w = w) (nonempty : w ≠ [])
    (plain : operator w = none) :
    pr.take w = .ok (if w = ['&'] then pr else pr.passed (unquote w)) := by
  simp only [Progress.take, between, trimmed, Progress.takeArg, nonempty, false_or, plain, pass_eq]
  split <;> rfl

theorem take_operator (between : pr.redirectIndex = none) (trimmed : trim w = w)
    (found : operator w = some (k, len)) : pr.take w = pr.redirect k len w := by
  have other : ¬ (w = [] ∨ w = ['&']) := by
    rintro (rfl | rfl)
    · cases found
    · cases found
  simp only [Progress.take, between, trimmed, Progress.takeArg, if_neg other, found]

end

/-! ### One round -/

section
variable {m : Machine} {w text behind : List Char} {ws : List (List Char)}

/-- The next token of the line. It ends where the line ends, or at a delimiter. -/
theorem Machine.Reads.token (reads : m.Reads text behind) (found : words splitters text = w :: ws) :
    ∃ (q next : Nat) (bytes rest : List Char),
      strtok splitters none m.toTokenizer = .ok (some q, ⟨bytes, some next⟩) ∧
      bytes.length = m.bytes.length ∧ Holds bytes q w ∧ Spans bytes next rest behind ∧
      words splitters rest = ws ∧ rest <:+ text ∧ trim w = w ∧
      (next = q + w.length ∧ rest = [] ∨
        next = q + w.length + 1 ∧ ∃ d ∈ splitters, d :: rest <:+ text) := by
  obtain ⟨p, at_, spans⟩ := reads
  obtain ⟨⟨bytes, save⟩, structs⟩ := m
  obtain ⟨q, bytes', next, rest, ran, size, token, later, left, ending, place⟩ :=
    strtok_spans (s := none) at_ spans found
  have same := (trim_of_mem spans.1 (found ▸ List.mem_cons_self)).1
  exact ⟨q, next, bytes', rest, ran, size, token, later, left, ending, same, place⟩

/-- One round of the loop on a word that is taken for a file or is no pipe. -/
theorem tokenLoop_reads (reads : m.Reads text behind) (found : words splitters text = w :: ws) :
    ∃ (m' : Machine) (rest : List Char), m'.Reads rest behind ∧ words splitters rest = ws ∧
      rest <:+ text ∧ m.Alike m' ∧ ∀ fresh nested rounds pr,
        (pr.redirectIndex = none → w.length < 1024 ∧ w ≠ ['|']) →
          tokenLoop fresh nested (rounds + 1) pr m =
            pr.take w >>= fun pr => tokenLoop fresh nested rounds pr m' := by
  obtain ⟨q, next, bytes, rest, ran, size, token, later, left, ending, same, -⟩ := reads.token found
  refine ⟨⟨⟨bytes, some next⟩, m.structs⟩, rest, ⟨next, rfl, later⟩, left, ending, ⟨size, rfl⟩, ?_⟩
  intro fresh nested rounds pr other
  rw [tokenLoop, ran]
  simp only [ok_bind, Progress.take, same]
  cases between : pr.redirectIndex with
  | some i =>
    simp only [token.textAt, ok_bind]
  | none =>
    obtain ⟨short, other⟩ := other between
    simp only [token.textAt, ok_bind, same]
    rw [if_neg (Nat.not_le_of_lt short), if_neg other]

theorem tokenLoop_word (scans : m.Scans (w :: ws)) (short : w.length < 1024) (other : w ≠ ['|']) :
    ∃ m' : Machine, m'.Scans ws ∧ m.Alike m' ∧ ∀ fresh nested rounds pr,
      tokenLoop fresh nested (rounds + 1) pr m =
        pr.take w >>= fun pr => tokenLoop fresh nested rounds pr m' := by
  obtain ⟨text, behind, reads, found⟩ := scans.reads
  obtain ⟨m', rest, reads', left, -, alike, run⟩ := tokenLoop_reads reads found
  refine ⟨m', left ▸ reads'.scans, alike, fun fresh nested rounds pr => ?_⟩
  exact run fresh nested rounds pr fun _ => ⟨short, other⟩

/-- The loop over words that are no pipes. -/
theorem tokenLoop_words (front : List (List Char)) (scans : m.Scans (front ++ ws))
    (short : ∀ w ∈ front, w.length < 1024) (other : ['|'] ∉ front) :
    ∃ m' : Machine, m'.Scans ws ∧ m.Alike m' ∧ ∀ fresh nested rounds pr,
      tokenLoop fresh nested (rounds + front.length) pr m =
        front.foldlM Progress.take pr >>= fun pr => tokenLoop fresh nested rounds pr m' := by
  induction front generalizing m with
  | nil => exact ⟨m, scans, .refl m, fun fresh nested rounds pr => rfl⟩
  | cons w front ih =>
    obtain ⟨shortW, short⟩ := List.forall_mem_cons.mp short
    obtain ⟨otherW, other⟩ := List.ne_and_not_mem_of_not_mem_cons other
    obtain ⟨m₁, scans₁, alike₁, step⟩ :=
      tokenLoop_word scans shortW (Ne.symm otherW)
    obtain ⟨m₂, scans₂, alike₂, run⟩ := ih scans₁ short other
    refine ⟨m₂, scans₂, alike₁.trans alike₂, fun fresh nested rounds pr => ?_⟩
    rw [List.length_cons, ← Nat.add_assoc, step, List.foldlM_cons, bind_assoc]
    exact bind_congr fun pr' => run fresh nested rounds pr'

theorem tokenLoop_end (scans : m.Scans []) :
    ∃ m' : Machine, m'.Done ∧ m.Alike m' ∧ ∀ fresh nested rounds pr, pr.redirectIndex = none →
      tokenLoop fresh nested (rounds + 1) pr m = .ok (pr, m') := by
  obtain ⟨p, text, at_, holds, empty⟩ := scans
  obtain ⟨⟨bytes, save⟩, structs⟩ := m
  have ending : Holds bytes (p + text.length) [] := by
    rw [← List.append_nil text] at holds
    exact holds.skip
  refine ⟨⟨⟨bytes, some (p + text.length)⟩, structs⟩, ⟨_, rfl, ending⟩, ⟨rfl, rfl⟩, ?_⟩
  intro fresh nested rounds pr between
  rw [tokenLoop, strtok_none (s := none) at_ holds empty]
  simp only [ok_bind, between]

/-- At the end of the line there is no file name for an operator. -/
theorem tokenLoop_pending (scans : m.Scans []) (pending : pr.redirectIndex = some i)
    (fresh : Nat → Contents) (nested : Nat → Contents → Machine → Except Fault (Command × Machine))
    (rounds : Nat) : tokenLoop fresh nested (rounds + 1) pr m = .error .null := by
  obtain ⟨p, text, at_, holds, empty⟩ := scans
  obtain ⟨⟨bytes, save⟩, structs⟩ := m
  rw [tokenLoop, strtok_none (s := none) at_ holds empty]
  simp only [ok_bind, pending]

theorem skipBlanks_holds (whole : nul ∉ text) (after : List Char) :
    ∃ blanks rest, skipBlanks (text ++ nul :: after) = .ok blanks.length ∧
      text = blanks ++ rest ∧ words splitters rest = words splitters text := by
  induction text with
  | nil => exact ⟨[], [], rfl, rfl, rfl⟩
  | cons c text ih =>
    obtain ⟨-, whole⟩ := List.ne_and_not_mem_of_not_mem_cons whole
    rw [List.cons_append, skipBlanks]
    by_cases blank : c = ' ' ∨ c = '\t'
    · obtain ⟨blanks, rest, ran, rfl, same⟩ := ih whole
      have delim : c ∈ splitters := by simpa [splitters] using blank
      refine ⟨c :: blanks, rest, ?_, rfl, ?_⟩
      · rw [if_pos blank, ran]
        rfl
      · rw [words_cons delim, same]
    · exact ⟨[], c :: text, if_neg blank, rfl, rfl⟩

theorem drop_set_eq {bytes tail : List Char} (same : bytes.drop p = c :: tail) (d : Char) :
    p < bytes.length ∧ (bytes.set p d).drop p = d :: tail := by
  have inside : p < bytes.length := by
    have length := congrArg List.length same
    simp only [List.length_drop, List.length_cons] at length
    omega
  rw [List.drop_set, if_neg (Nat.lt_irrefl p), same, Nat.sub_self]
  exact ⟨inside, rfl⟩

/-- A round on a pipe. Behind its terminator is the rest of the line, or what is behind
the line if nothing is left of it. -/
theorem tokenLoop_bar (reads : m.Reads text behind) (found : words splitters text = ['|'] :: ws) :
    ∃ (q : Nat) (m' : Machine) (tail : List Char), m'.bytes.drop (q + 1) = nul :: tail ∧
      m.Alike m' ∧ (tail = behind ∧ ws = [] ∨
        ∃ d rest, tail = rest ++ nul :: behind ∧ nul ∉ rest ∧ words splitters rest = ws ∧
          d ∈ splitters ∧ d :: rest <:+ text) ∧
      ∀ fresh nested rounds pr, pr.redirectIndex = none →
        tokenLoop fresh nested (rounds + 1) pr m = pipe fresh nested q ['|'] m' >>= fun (c, m) =>
          tokenLoop fresh nested rounds { pr with next := .inr c } m := by
  obtain ⟨q, next, bytes, rest, ran, size, token, later, left, ending, same, place⟩ :=
    reads.token found
  have run : ∀ fresh nested rounds pr, pr.redirectIndex = none →
      tokenLoop fresh nested (rounds + 1) pr m =
        pipe fresh nested q ['|'] ⟨⟨bytes, some next⟩, m.structs⟩ >>= fun (c, m) =>
          tokenLoop fresh nested rounds { pr with next := .inr c } m := by
    intro fresh nested rounds pr between
    rw [tokenLoop, ran]
    simp only [ok_bind, between, token.textAt]
    rw [if_neg (by decide), if_pos (by decide)]
  obtain ⟨whole, stored⟩ := later
  obtain ⟨rfl, rfl⟩ | ⟨rfl, d, delim, stop⟩ := place
  · exact ⟨q, ⟨⟨bytes, some _⟩, m.structs⟩, behind, stored, ⟨size, rfl⟩, Or.inl ⟨rfl, left.symm⟩,
      run⟩
  · have ending : Holds bytes (q + ['|'].length) [] := Holds.skip ['|'] token
    obtain ⟨-, after, ended⟩ := ending
    have same : after = rest ++ nul :: behind := by
      rw [← stored, List.length_singleton, ← List.drop_drop]
      exact congrArg (List.drop 1) ended.symm
    exact ⟨q, ⟨⟨bytes, some _⟩, m.structs⟩, after, ended, ⟨size, rfl⟩,
      Or.inr ⟨d, rest, same, whole, left, delim, stop⟩, run⟩

/-- A pipe starts the nested call at what is behind it, without the blanks in front. -/
theorem pipe_eq {q : Nat} (ended : m.bytes.drop (q + 1) = nul :: (text ++ nul :: behind))
    (whole : nul ∉ text) :
    ∃ (buf : Nat) (m' : Machine) (front : List Char), Spans m'.bytes buf front behind ∧
      words splitters front = words splitters text ∧ front <:+ text ∧
      m'.bytes.length = m.bytes.length ∧ q + 1 < m.bytes.length ∧ m'.structs = m.structs + 1 ∧
      ∀ fresh nested, pipe fresh nested q ['|'] m =
        nested buf (fresh m.structs) m' >>= fun (c, m) => write m.bytes (q + 1) nul >>= fun bytes =>
          .ok (c, ⟨⟨bytes, m.save⟩, m.structs⟩) := by
  obtain ⟨inside, joined⟩ := drop_set_eq ended ' '
  obtain ⟨blanks, front, skipped, rfl, same⟩ := skipBlanks_holds whole behind
  have start : Spans (m.bytes.set (q + 1) ' ') (q + 1) (' ' :: blanks ++ front) behind :=
    ⟨List.not_mem_cons_of_ne_of_not_mem (by decide) whole, joined⟩
  refine ⟨q + 1 + (' ' :: blanks).length, ⟨⟨m.bytes.set (q + 1) ' ', m.save⟩, m.structs + 1⟩, front,
    start.skip, same, List.suffix_append blanks front, List.length_set .., inside, rfl, ?_⟩
  intro fresh nested
  have skip : skipBlanks (' ' :: (blanks ++ front ++ nul :: behind)) = .ok (' ' :: blanks).length := by
    rw [skipBlanks, if_pos (Or.inl rfl), skipped]
    rfl
  rw [pipe, List.length_singleton, write_ok inside]
  simp only [ok_bind, joined, skip]
  rfl

/-- With nothing behind the terminator, the blanks run out of the buffer. -/
theorem pipe_outside {q : Nat} (ended : m.bytes.drop (q + 1) = [nul]) (fresh : Nat → Contents)
    (nested : Nat → Contents → Machine → Except Fault (Command × Machine)) :
    pipe fresh nested q ['|'] m = .error .outside := by
  obtain ⟨inside, joined⟩ := drop_set_eq ended ' '
  rw [pipe, List.length_singleton, write_ok inside]
  simp only [ok_bind, joined]
  rfl

/-- A pipe starts the nested call at a text with the words behind it. -/
theorem tokenLoop_pipe (scans : m.Scans (['|'] :: ws)) (more : ws ≠ []) :
    ∃ (buf q : Nat) (m' : Machine) (text : List Char), Holds m'.bytes buf text ∧
      words splitters text = ws ∧ m'.bytes.length = m.bytes.length ∧ q < m.bytes.length ∧
      m'.structs = m.structs + 1 ∧ ∀ fresh nested rounds pr, pr.redirectIndex = none →
        tokenLoop fresh nested (rounds + 1) pr m =
          nested buf (fresh m.structs) m' >>= fun (c, m) => write m.bytes q nul >>= fun bytes =>
            tokenLoop fresh nested rounds { pr with next := .inr c } ⟨⟨bytes, m.save⟩, m.structs⟩ := by
  obtain ⟨text, behind, reads, found⟩ := scans.reads
  obtain ⟨q, m₁, tail, ended, alike, place, run⟩ := tokenLoop_bar reads found
  obtain ⟨-, none⟩ | ⟨d, rest, rfl, whole, left, -, -⟩ := place
  · exact absurd none more
  obtain ⟨buf, m', front, spans, same, -, size, inside, structs, piped⟩ := pipe_eq ended whole
  rw [alike.1] at size inside
  rw [alike.2] at structs piped
  refine ⟨buf, q + 1, m', front, spans.holds, same.trans left, size, inside, structs, ?_⟩
  intro fresh nested rounds pr between
  rw [run fresh nested rounds pr between, piped]
  simp only [bind_assoc, ok_bind]

/-! ### Trimming the line -/

variable {bytes : List Char} {buf : Nat}

theorem inSplitters_iff (character : c ≠ nul) : inSplitters c = true ↔ c ∈ splitters := by
  simp [inSplitters, character]

theorem trimLeft_spans (spans : Spans bytes buf text behind) :
    ∃ buf', trimLeft bytes buf text.length = .ok (buf', (text.dropWhile inSplitters).length) ∧
      Spans bytes buf' (text.dropWhile inSplitters) behind := by
  induction text generalizing buf with
  | nil => exact ⟨buf, rfl, spans⟩
  | cons c text ih =>
    have char : read bytes buf = .ok c := spans.holds.read_head
    rw [List.length_cons, trimLeft, char, ok_bind, List.dropWhile_cons]
    by_cases blank : inSplitters c
    · rw [if_pos blank, if_pos blank]
      exact ih (Spans.skip [c] spans)
    · rw [if_neg blank, if_neg blank]
      exact ⟨buf, rfl, spans⟩

/-- The white space at the end becomes terminators. -/
theorem trimRight_spans (spans : Spans bytes buf text behind) :
    ∃ bytes', trimRight buf bytes text.length = .ok (bytes', (text.rdropWhile inSplitters).length) ∧
      Spans bytes' buf (text.rdropWhile inSplitters)
        (List.replicate (text.rtakeWhile inSplitters).length nul ++ behind) ∧
      bytes'.length = bytes.length := by
  induction text using List.reverseRecOn generalizing bytes behind with
  | nil => exact ⟨bytes, rfl, spans, rfl⟩
  | append_singleton text c ih =>
    have char : read bytes (buf + text.length) = .ok c := (spans.skip text).holds.read_head
    rw [List.length_append, List.length_singleton, trimRight, char, ok_bind, List.rdropWhile_concat,
      List.rtakeWhile_concat]
    by_cases blank : inSplitters c
    · have inside := spans.holds.inside
      rw [if_pos blank, if_pos blank, if_pos blank, write_ok (by simp at inside; omega)]
      obtain ⟨bytes', ran, spans', size⟩ := ih (spans.cut text).1
      refine ⟨bytes', ran, ?_, size.trans (List.length_set ..)⟩
      rw [List.length_append, List.length_singleton, List.replicate_succ', List.append_assoc]
      exact spans'
    · refine ⟨bytes, ?_, ?_, rfl⟩
      · rw [if_neg blank, if_neg blank, List.length_append]
        rfl
      · rw [if_neg blank, if_neg blank]
        exact spans

/-- White space around a line makes no word. -/
theorem words_trim (whole : nul ∉ text) : words splitters (trim text) = words splitters text := by
  have delim : ∀ l : List Char, (∀ c ∈ l, c ∈ text ∧ inSplitters c) → ∀ c ∈ l, c ∈ splitters := by
    intro l blank c inside
    obtain ⟨member, separates⟩ := blank c inside
    exact (inSplitters_iff fun same => whole (same ▸ member)).mp separates
  have left := List.takeWhile_append_dropWhile (p := inSplitters) (l := text)
  have right := List.rdropWhile_append_rtakeWhile (p := inSplitters) (l := text.dropWhile inSplitters)
  have front := delim (text.takeWhile inSplitters) fun c inside =>
    ⟨(List.takeWhile_prefix _).subset inside, List.mem_takeWhile_imp inside⟩
  have back := delim ((text.dropWhile inSplitters).rtakeWhile inSplitters) fun c inside =>
    ⟨(List.dropWhile_suffix _).subset ((List.rtakeWhile_suffix _ _).subset inside),
      List.mem_rtakeWhile_imp inside⟩
  rw [trim]
  conv_rhs => rw [← left, words_blank front, ← right, words_trailing back]

theorem endsIn_holds (holds : Holds bytes buf text) (c : Char) :
    endsIn bytes buf text.length c = .ok (text.getLast? = some c) := by
  cases text using List.reverseRecOn with
  | nil => rfl
  | append_singleton text d =>
    have char : read bytes (buf + text.length) = .ok d := (holds.skip text).read_head
    simp [endsIn, char, Except.map]

/-- `parse_command` reads the name, if there is one, and starts the loop on what is
behind it. The white space at the end of the line is terminators by then. -/
theorem parseCommand_reads (spans : Spans m.bytes buf text behind) :
    ∃ (m' : Machine) (rest : List Char), m'.Reads rest (List.replicate
        ((text.dropWhile inSplitters).rtakeWhile inSplitters).length nul ++ behind) ∧
      words splitters rest = (words splitters text).tail ∧ rest <:+ trim text ∧ m.Alike m' ∧
      ∀ fresh budget command, parseCommand fresh (budget + 1) buf command m =
        tokenLoop fresh (parseCommand fresh budget) (budget + 1) (.start command) m' >>=
          fun (pr, m) => .ok (⟨command.background || (trim text).getLast? = some '&',
            command.autoComplete || (trim text).getLast? = some '?',
            pr.staged (stored ((words splitters text).headD [])), pr.next⟩, m) := by
  obtain ⟨buf', left, front⟩ := trimLeft_spans spans
  obtain ⟨bytes', right, line, size⟩ := trimRight_spans front
  rw [← words_trim spans.1]
  have same : (text.dropWhile inSplitters).rdropWhile inSplitters = trim text := rfl
  rw [same] at right line
  have at_ : (some buf').or m.save = some buf' := rfl
  cases found : words splitters (trim text) with
  | nil =>
    have ran := strtok_none at_ line.holds found
    refine ⟨⟨⟨bytes', some (buf' + (trim text).length)⟩, m.structs⟩, [], ⟨_, rfl, line.ending⟩, rfl,
      List.nil_suffix, ⟨size, rfl⟩, fun fresh budget command => ?_⟩
    rw [parseCommand]
    simp only [spans.holds.textAt, ok_bind, left, right, endsIn_holds line.holds, ran, stage_eq]
    rfl
  | cons w ws =>
    obtain ⟨q, bytes'', next, rest, ran, size', token, later, words, ending, -⟩ :=
      strtok_spans at_ line found
    refine ⟨⟨⟨bytes'', some next⟩, m.structs⟩, rest, ⟨next, rfl, later⟩, words, ending,
      ⟨size'.trans size, rfl⟩, fun fresh budget command => ?_⟩
    rw [parseCommand]
    simp only [spans.holds.textAt, ok_bind, left, right, endsIn_holds line.holds, ran, token.textAt,
      Except.map, stage_eq]
    rfl

theorem parseCommand_start (holds : Holds m.bytes buf text) :
    ∃ m' : Machine, m'.Scans (words splitters text).tail ∧ m.Alike m' ∧
      ∀ fresh budget command, parseCommand fresh (budget + 1) buf command m =
        tokenLoop fresh (parseCommand fresh budget) (budget + 1) (.start command) m' >>=
          fun (pr, m) => .ok (⟨command.background || (trim text).getLast? = some '&',
            command.autoComplete || (trim text).getLast? = some '?',
            pr.staged (stored ((words splitters text).headD [])), pr.next⟩, m) := by
  obtain ⟨behind, spans⟩ := holds.spans
  obtain ⟨m', rest, reads, left, -, alike, start⟩ := parseCommand_reads spans
  exact ⟨m', left ▸ reads.scans, alike, start⟩

end

/-- A line without bars is parsed word by word. -/
theorem parseLine_words (fresh : Nat → Contents) (command : Contents) (after : List Char)
    (whole : nul ∉ text) (noBar : ['|'] ∉ (words splitters text).tail)
    (short : ∀ w ∈ words splitters text, w.length ≤ 1023) :
    parseLine fresh command text after =
      (words splitters text).tail.foldlM Progress.take (.start command) >>= fun pr =>
        if pr.redirectIndex = none then
          .ok ⟨command.background || (trim text).getLast? = some '&',
            command.autoComplete || (trim text).getLast? = some '?',
            pr.staged (stored ((words splitters text).headD [])), pr.next⟩
        else .error .null := by
  have holds : Holds (text ++ nul :: after) 0 text := holds_front whole after
  obtain ⟨m₁, scans, -, start⟩ := parseCommand_start (m := ⟨⟨text ++ nul :: after, none⟩, 0⟩) holds
  rw [← List.append_nil (words splitters text).tail] at scans
  obtain ⟨m₂, scans₂, -, run⟩ := tokenLoop_words _ scans
    (fun w member => Nat.lt_succ_of_le (short w (List.mem_of_mem_tail member))) noBar
  obtain ⟨m₃, -, -, last⟩ := tokenLoop_end scans₂
  obtain ⟨extra, rounds⟩ : ∃ extra,
      text.length + 2 = extra + 1 + (words splitters text).tail.length := by
    have few := length_words_le splitters text
    rw [List.length_tail]
    exact ⟨text.length + 1 - ((words splitters text).length - 1), by omega⟩
  rw [parseLine, start, rounds, run]
  cases (words splitters text).tail.foldlM Progress.take (.start command) with
  | error stop => rfl
  | ok pr =>
    simp only [ok_bind]
    cases pending : pr.redirectIndex with
    | none =>
      rw [last _ _ _ _ pending]
      rfl
    | some i =>
      rw [tokenLoop_pending scans₂ pending]
      rfl

end Comp304.Shell
