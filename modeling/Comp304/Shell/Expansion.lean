import Comp304.Shell.Aliases

/-! The expansion of a line, read off the arrays. The file is read as it is, and
each entry rewrites the line, as long as the byte of `alias` behind its name is
zero: the name is copied there without a terminator. -/
namespace Comp304.Shell
open Library Library.CString Library.Budget

/-- A line of `alias.txt`. -/
structure Entry where
  name : List Char
  comm : List Char
  nonempty : name ≠ []
  name_plain : nul ∉ name ∧ ';' ∉ name ∧ '\n' ∉ name ∧ ' ' ∉ name
  comm_plain : nul ∉ comm ∧ '\n' ∉ comm
  name_fits : name.length ≤ 98
  comm_fits : comm.length ≤ 398

def Entry.token (e : Entry) : List Char := e.name ++ ';' :: e.comm

def fileText (entries : List Entry) : List Char := entries.flatMap fun e => e.token ++ ['\n']

/-- The line with the name replaced, as the code does it: only the first place is looked
at where the name is in front of a blank, and nothing is done if no word begins there. -/
def Entry.substitute (e : Entry) (text : List Char) : List Char :=
  match strstr text (e.name ++ [' ']) with
  | some loc =>
    if loc = 0 ∨ text[loc - 1]? = some ' ' then
      text.take loc ++ (e.comm ++ [' ']) ++ text.drop (loc + e.name.length + 1)
    else text
  | none => text

/-- The line after all entries in their order. -/
def substituteAll (entries : List Entry) (text : List Char) : List Char :=
  entries.foldl (fun text e => e.substitute text) text

/-- The line stays within its array. -/
def Fits : List Entry → List Char → Prop
  | [], _ => True
  | entry :: entries, text =>
    (entry.substitute text).length < 4096 ∧ Fits entries (entry.substitute text)

/-- The file as the shell finds it, which is not there before the first entry. -/
def fileOf : List Entry → Option (List Char)
  | [] => none
  | entry :: entries => some (fileText (entry :: entries))

/-! ### Names in the line -/

/-- A name is replaced only where it is a word. -/
theorem Entry.substitute_absent (e : Entry) (token : ∀ c ∈ e.name, c ∉ splitters)
    (absent : e.name ∉ words splitters text) : e.substitute text = text := by
  rw [substitute]
  cases found : strstr text (e.name ++ [' ']) with
  | none => rfl
  | some loc =>
    refine if_neg ?_
    rintro word
    apply absent
    obtain ⟨before, behind, rfl, rfl⟩ := strstr_some found
    have blank : ' ' ∈ splitters := List.mem_cons_self
    have named : words splitters (e.name ++ ' ' :: behind) = e.name :: words splitters behind := by
      rw [words_append _ blank, words_single token e.nonempty]
      rfl
    cases before using List.reverseRecOn with
    | nil => simp [named]
    | append_singleton before c =>
      obtain rfl : c = ' ' := by simpa using word
      have parts : before ++ [' '] ++ (e.name ++ [' ']) ++ behind =
          before ++ ' ' :: (e.name ++ ' ' :: behind) := by simp
      rw [parts, words_append _ blank, named]
      simp

theorem Entry.substitute_front (e : Entry) (behind : List Char) :
    e.substitute (e.name ++ [' '] ++ behind) = e.comm ++ [' '] ++ behind := by
  rw [substitute, strstr_front (by simp)]
  simp

theorem substituteAll_absent (entries : List Entry)
    (absent : ∀ e ∈ entries, (∀ c ∈ e.name, c ∉ splitters) ∧ e.name ∉ words splitters text) :
    substituteAll entries text = text := by
  induction entries with
  | nil => rfl
  | cons e entries ih =>
    obtain ⟨⟨token, first⟩, absent⟩ := List.forall_mem_cons.mp absent
    rw [substituteAll, List.foldl_cons, e.substitute_absent token first]
    exact ih absent

theorem fits_absent (entries : List Entry) (short : text.length < 4096)
    (absent : ∀ e ∈ entries, (∀ c ∈ e.name, c ∉ splitters) ∧ e.name ∉ words splitters text) :
    Fits entries text := by
  induction entries with
  | nil => exact True.intro
  | cons e entries ih =>
    obtain ⟨⟨token, first⟩, absent⟩ := List.forall_mem_cons.mp absent
    rw [Fits, e.substitute_absent token first]
    exact ⟨short, ih absent⟩

theorem substituteAll_append (before after : List Entry) (text : List Char) :
    substituteAll (before ++ after) text = substituteAll after (substituteAll before text) := List.foldl_append

theorem fits_append {before after : List Entry} {text : List Char} (front : Fits before text)
    (back : Fits after (substituteAll before text)) : Fits (before ++ after) text := by
  induction before generalizing text with
  | nil => exact back
  | cons e before ih => exact ⟨front.1, ih front.2 back⟩

/-! ### Reading the file -/

theorem fgets_append (c : Char) (rest : List Char) :
    ∃ chunk left, fgets lineSize (c :: rest) = (chunk, left) ∧ c :: rest = chunk ++ left ∧
      chunk ≠ [] ∧ chunk.length < lineSize := by
  rw [fgets]
  split
  · next i found =>
    obtain ⟨inside, -⟩ := List.idxOf?_eq_some_iff.mp found
    refine ⟨_, _, List.splitAt_eq .., (List.take_append_drop ..).symm, by simp, ?_⟩
    rw [List.length_take] at inside ⊢
    simp only [lineSize] at inside ⊢
    omega
  · refine ⟨_, _, List.splitAt_eq .., (List.take_append_drop ..).symm, by simp [lineSize], ?_⟩
    rw [List.length_take]
    simp only [lineSize]
    omega

/-- The chunks of the file, joined behind what the block held. -/
theorem readLoop_text {line : List Char} (text : List Char) (rounds : Nat) (old rest : List Char)
    (size : line.length = lineSize) (enough : text.length < rounds) (whole : nul ∉ old ++ text)
    (room : text.length ≤ rest.length) :
    readLoop rounds line (old ++ nul :: rest) text =
      .ok (old ++ text ++ nul :: rest.drop text.length) := by
  induction rounds generalizing text line old rest with
  | zero => exact absurd enough (Nat.not_lt_zero _)
  | succ rounds ih =>
    cases text with
    | nil => simp [readLoop]
    | cons c text =>
      obtain ⟨chunk, left, read, parts, nonempty, short⟩ := fgets_append c text
      have longer := List.length_pos_iff.mpr nonempty
      have total := congrArg List.length parts
      rw [List.length_append] at total
      rw [parts, ← List.append_assoc] at whole
      have wholeOld : nul ∉ old ++ chunk := fun member => whole (List.mem_append_left _ member)
      have wholeChunk : nul ∉ chunk := fun member => wholeOld (List.mem_append_right _ member)
      have wholeFront : nul ∉ old := fun member => wholeOld (List.mem_append_left _ member)
      rw [readLoop, read]
      simp only
      rw [strcpy_front (by omega), ok_bind, (holds_front wholeChunk _).textAt, ok_bind,
        strcat_front wholeFront _ (by omega), ok_bind,
        ih left _ _ ?_ (by omega) whole (by rw [List.length_drop]; omega), parts, List.drop_drop,
        List.length_append, List.append_assoc old]
      simp only [List.length_append, List.length_cons, List.length_drop]
      omega

theorem readFromFile_text (size : line.length = lineSize) (strSize : str.length = 40000)
    (whole : nul ∉ text) (clear : str.head? = some nul) (fits : text.length < 40000) :
    ∃ aliasFile, readFromFile line str (some text) = .ok (some aliasFile) ∧
      Holds aliasFile 0 text := by
  obtain ⟨rest, rfl⟩ := List.head?_eq_some_iff.mp clear
  rw [List.length_cons] at strSize
  have read := readLoop_text text (text.length + 1) [] rest size (Nat.lt_succ_self _) whole
    (by omega)
  refine ⟨text ++ nul :: rest.drop text.length, ?_, holds_front whole _⟩
  exact congrArg (Except.map some) read

/-! ### One replacement -/

/-- The copied front with its terminator. -/
theorem set_behind (buffer : List Char) (inside : before.length < buffer.length) :
    (before ++ buffer.drop before.length).set before.length nul =
      before ++ nul :: buffer.drop (before.length + 1) := by
  rw [List.set_append_right _ _ (Nat.le_refl _), Nat.sub_self, List.drop_eq_getElem_cons inside,
    List.set_cons_zero]

/-- The terminator is written over the word at most, so what is behind it is still there. -/
theorem holds_behind {str : Place} {buffer : List Char}
    (holds : Holds (str.bytes buffer) 0 (before ++ orig ++ behind)) (nonempty : orig ≠ []) :
    Holds (str.bytes (before ++ nul :: buffer.drop (before.length + 1)))
      (before.length + orig.length) behind := by
  have tail := holds.skip
  rw [Nat.zero_add, List.length_append] at tail
  cases str with
  | block bytes => exact tail
  | buffer =>
    obtain ⟨whole, after, same⟩ := tail
    refine ⟨whole, after, ?_⟩
    have positive := List.length_pos_iff.mpr nonempty
    obtain ⟨n, some⟩ : ∃ n, orig.length = n + 1 := ⟨orig.length - 1, by omega⟩
    rw [Place.bytes, ← List.drop_drop, List.drop_left, some, List.drop_succ_cons, List.drop_drop,
      Nat.add_right_comm, Nat.add_assoc, ← some]
    exact same

/-- `replace` in place or from another array. -/
theorem replace_text {statics : Statics} {str : Place}
    (holds : Holds (str.bytes statics.buffer) 0 (before ++ orig ++ behind)) (nonempty : orig ≠ [])
    (whole : nul ∉ rep) (size : statics.buffer.length = 4096) (size2 : statics.buffer2.length = 4096)
    (fits : (before ++ rep ++ behind).length < 4096) :
    ∃ statics', replace statics str orig rep before.length = .ok statics' ∧
      Holds statics'.buffer 0 (before ++ rep ++ behind) ∧ statics'.buffer.length = 4096 ∧
      statics'.buffer2.length = 4096 := by
  simp only [List.length_append] at fits
  have wholeText := holds.1
  have wholeBehind : nul ∉ behind := fun member => wholeText (List.mem_append_right _ member)
  have wholeBefore : nul ∉ before := fun member =>
    wholeText (List.mem_append_left _ (List.mem_append_left _ member))
  have copied := strncpy_exact statics.buffer before (orig ++ behind) (by omega)
  have later := holds_behind holds nonempty
  rw [List.append_assoc] at holds
  rw [replace, holds.textAt, ok_bind, copied, ok_bind, write_ok (by simp; omega), ok_bind,
    set_behind _ (by omega), later.textAt, ok_bind, strcpy_front (by omega), ok_bind,
    (holds_front wholeBehind _).textAt, ok_bind, strcpy_behind before (by simp; omega), ok_bind]
  refine ⟨_, rfl, ?_, ?_, ?_⟩
  · rw [← List.append_assoc]
    refine holds_front (fun member => ?_) _
    simp only [List.mem_append] at member
    obtain (front | middle) | back := member
    · exact wholeBefore front
    · exact whole middle
    · exact wholeBehind back
  · simp
    omega
  · simp
    omega

/-! ### One entry -/

/-- The line is in place and the arrays have their sizes. -/
structure Expansion.Ready (e : Expansion) (text : List Char) : Prop where
  line : Holds e.bytes 0 text
  aliasName : e.aliasName.length = 100
  comm : e.comm.length = 400
  buffer : e.statics.buffer.length = 4096
  buffer2 : e.statics.buffer2.length = 4096

theorem Entry.idxOf_token (entry : Entry) : entry.token.idxOf? ';' = some entry.name.length := by
  obtain ⟨-, plain, -⟩ := entry.name_plain
  refine List.idxOf?_eq_some_iff.mpr ⟨by simp [token], by simp [token], fun j before same => ?_⟩
  simp only [token, List.getElem_append_left before] at same
  exact plain (same ▸ List.getElem_mem before)

/-- The array `alias` after an entry still has the zeros further behind. -/
theorem aliasName_after (array name : List Char) (behind : name.length < n)
    (zero : array[n]? = some nul) :
    (name ++ [' '] ++ nul :: (array.drop (name.length + 1)).drop 1)[n]? = some nul := by
  have inside : (name ++ [' ']).length ≤ n := by
    rw [List.length_append, List.length_singleton]
    omega
  rw [List.getElem?_append_right inside, List.drop_drop, List.length_append, List.length_singleton]
  cases position : n - (name.length + 1) with
  | zero => rfl
  | succ k =>
    have there : name.length + 1 + 1 + k = n := by omega
    rw [List.getElem?_cons_succ, List.getElem?_drop, there]
    exact zero

/-- The name and the command are found in their arrays with a blank behind them. -/
theorem Expansion.Ready.split {e : Expansion} (ready : e.Ready text) (entry : Entry)
    (ended : e.aliasName[entry.name.length]? = some nul) :
    ∃ aliasName comm, aliasName.length = 100 ∧ comm.length = 400 ∧
      (∀ n, entry.name.length < n → e.aliasName[n]? = some nul → aliasName[n]? = some nul) ∧
      e.step entry.token =
        match strstr text (entry.name ++ [' ']) with
        | none => .ok ⟨aliasName, comm, e.statics, e.tempBuf⟩
        | some loc =>
          if loc = 0 ∨ text[loc - 1]? = some ' ' then
            replace e.statics e.tempBuf (entry.name ++ [' ']) (entry.comm ++ [' ']) loc >>=
              fun statics => .ok ⟨aliasName, comm, statics, .buffer⟩
          else .ok ⟨aliasName, comm, e.statics, e.tempBuf⟩ := by
  obtain ⟨line, aliasSize, commSize, -, -⟩ := ready
  have nameFits := entry.name_fits
  have commFits := entry.comm_fits
  obtain ⟨wholeName, -⟩ := entry.name_plain
  obtain ⟨wholeComm, -⟩ := entry.comm_plain
  have wholeAlias : nul ∉ entry.name ++ [' '] := by
    rw [List.mem_append, not_or]
    exact ⟨wholeName, by decide⟩
  have wholeRep : nul ∉ entry.comm ++ [' '] := by
    rw [List.mem_append, not_or]
    exact ⟨wholeComm, by decide⟩
  have copied : strncpy e.aliasName entry.token entry.name.length =
      .ok (entry.name ++ nul :: e.aliasName.drop (entry.name.length + 1)) := by
    obtain ⟨inside, same⟩ := List.getElem?_eq_some_iff.mp ended
    rw [Entry.token, strncpy_exact _ _ _ (by omega), List.drop_eq_getElem_cons inside, same]
  have command : entry.token.drop (entry.name.length + 1) = entry.comm := by
    simp [Entry.token, List.drop_append]
  refine ⟨entry.name ++ [' '] ++ nul :: (e.aliasName.drop (entry.name.length + 1)).drop 1,
    entry.comm ++ [' '] ++ nul :: (e.comm.drop (entry.comm.length + 1)).drop 1, ?_, ?_,
    fun n behind zero => aliasName_after _ _ behind zero, ?_⟩
  · simp
    omega
  · simp
    omega
  · rw [Expansion.step, entry.idxOf_token]
    simp only [ok_bind, copied, command]
    rw [strcpy_front (by omega), ok_bind, strcat_front wholeComm [' '] (by simp; omega), ok_bind,
      strcat_front wholeName [' '] (by simp; omega), ok_bind, (holds_front wholeAlias _).textAt,
      ok_bind, line.textAt, ok_bind]
    simp only [(holds_front wholeRep _).textAt, ok_bind]
    rfl

/-- What one entry does, if `alias` is terminated behind its name. -/
theorem Expansion.Ready.step {e : Expansion} (ready : e.Ready text) (entry : Entry)
    (ended : e.aliasName[entry.name.length]? = some nul)
    (fits : (entry.substitute text).length < 4096) :
    ∃ e', e.step entry.token = .ok e' ∧ e'.Ready (entry.substitute text) ∧
      ∀ n, entry.name.length < n → e.aliasName[n]? = some nul → e'.aliasName[n]? = some nul := by
  obtain ⟨aliasName, comm, aliasSize, commSize, zeros, start⟩ := ready.split entry ended
  obtain ⟨line, -, -, bufferSize, buffer2Size⟩ := ready
  rw [Entry.substitute] at fits ⊢
  cases found : strstr text (entry.name ++ [' ']) with
  | none =>
    simp only [found] at start
    exact ⟨_, start, ⟨line, aliasSize, commSize, bufferSize, buffer2Size⟩, zeros⟩
  | some loc =>
    simp only [found] at start fits ⊢
    by_cases word : loc = 0 ∨ text[loc - 1]? = some ' '
    · rw [if_pos word] at start fits ⊢
      obtain ⟨before, behind, rfl, rfl⟩ := strstr_some found
      have front : (before ++ (entry.name ++ [' ']) ++ behind).take before.length = before := by simp
      have back : (before ++ (entry.name ++ [' ']) ++ behind).drop
          (before.length + entry.name.length + 1) = behind := by
        rw [Nat.add_assoc, ← List.drop_drop, List.append_assoc, List.drop_left]
        simp
      have whole : nul ∉ entry.comm ++ [' '] := by
        rw [List.mem_append, not_or]
        exact ⟨entry.comm_plain.1, by decide⟩
      rw [front, back] at fits ⊢
      obtain ⟨statics, ran, line', bufferSize', buffer2Size'⟩ :=
        replace_text line (by simp) whole bufferSize buffer2Size fits
      rw [ran, ok_bind] at start
      exact ⟨_, start, ⟨line', aliasSize, commSize, bufferSize', buffer2Size'⟩, zeros⟩
    · rw [if_neg word] at start ⊢
      exact ⟨_, start, ⟨line, aliasSize, commSize, bufferSize, buffer2Size⟩, zeros⟩

/-! ### All entries -/

/-- The names get longer, and `alias` is terminated behind each of them. -/
def Ended (aliasName : List Char) (entries : List Entry) : Prop :=
  entries.Pairwise (fun d e => d.name.length < e.name.length) ∧
    ∀ e ∈ entries, aliasName[e.name.length]? = some nul

theorem expandLoop_text {e : Expansion} (ready : e.Ready text)
    (at_ : At ['\n'] pch t (entries.map Entry.token)) (ended : Ended e.aliasName entries)
    (fits : Fits entries text) (enough : entries.length < rounds) :
    ∃ e', expandLoop rounds pch t e = .ok e' ∧ e'.Ready (substituteAll entries text) := by
  induction entries generalizing rounds pch t e text with
  | nil =>
    obtain ⟨rounds, rfl⟩ := Nat.exists_eq_succ_of_ne_zero (Nat.ne_of_gt enough)
    obtain rfl : pch = none := at_
    exact ⟨e, rfl, ready⟩
  | cons entry entries ih =>
    obtain ⟨rounds, rfl⟩ := Nat.exists_eq_succ_of_ne_zero (Nat.ne_of_gt (Nat.zero_lt_of_lt enough))
    obtain ⟨first, next, rest, rfl, token, save, later, same⟩ := at_
    obtain ⟨growing, zeros⟩ := ended
    obtain ⟨longer, growing⟩ := List.pairwise_cons.mp growing
    obtain ⟨zero, zeros⟩ := List.forall_mem_cons.mp zeros
    obtain ⟨e₁, ran, ready₁, kept⟩ := ready.step entry zero fits.1
    obtain ⟨bytes, _⟩ := t
    cases save
    obtain ⟨pch', t', scanned, at'⟩ := strtok_at (s := none) ['\n'] rfl later
    rw [same] at at'
    obtain ⟨e₂, looped, ready₂⟩ := ih ready₁ at' ⟨growing, fun d member =>
      kept _ (longer d member) (zeros d member)⟩ fits.2 (Nat.lt_of_succ_lt_succ enough)
    refine ⟨e₂, ?_, ready₂⟩
    rw [expandLoop, token.textAt, ok_bind, ran, ok_bind, scanned]
    exact looped

theorem words_fileText (entries : List Entry) :
    words ['\n'] (fileText entries) = entries.map Entry.token := by
  induction entries with
  | nil => rfl
  | cons e entries ih =>
    have line : ∀ c ∈ e.token, c ∉ ['\n'] := by
      intro c member same
      rw [List.mem_singleton] at same
      subst same
      simp only [Entry.token, List.mem_append, List.mem_cons] at member
      obtain front | back | comm := member
      · exact e.name_plain.2.2.1 front
      · cases back
      · exact e.comm_plain.2 comm
    have nonempty : e.token ≠ [] := by simp [Entry.token]
    rw [fileText, List.flatMap_cons, List.append_assoc, List.singleton_append,
      words_append _ List.mem_cons_self, words_single line nonempty]
    exact congrArg (e.token :: ·) ih

theorem whole_fileText (entries : List Entry) : nul ∉ fileText entries := by
  intro member
  obtain ⟨e, -, inside⟩ := List.mem_flatMap.mp member
  simp only [Entry.token, List.mem_append, List.mem_cons, List.not_mem_nil, or_false] at inside
  obtain (name | back | comm) | newline := inside
  · exact e.name_plain.1 name
  · cases back
  · exact e.comm_plain.1 comm
  · cases newline

/-- `check_for_aliases` returns the line as all entries rewrite it. -/
theorem checkForAliases_text (s : Scratch) (entries : List Entry)
    (small : (fileText entries).length < 40000) (clear : s.str.head? = some nul)
    (ended : Ended s.aliasName entries) (holds : Holds buf 0 line) (short : line.length < 4095)
    (fits : Fits entries (line ++ [' '])) :
    ∃ bytes, checkForAliases s (some (fileText entries)) buf = .ok bytes ∧
      Holds bytes 0 (substituteAll entries (line ++ [' '])) := by
  obtain ⟨aliasFile, read, file⟩ := readFromFile_text s.line_size s.str_size
    (whole_fileText entries) clear small
  have start : (some 0).or none = some 0 := rfl
  obtain ⟨pch, t, scanned, at_⟩ := strtok_at ['\n'] start file
  rw [words_fileText] at at_
  have size := s.tempBuf_size
  have whole : nul ∉ line ++ [' '] := by
    rw [List.mem_append, not_or]
    exact ⟨holds.1, by decide⟩
  have enough : entries.length < aliasFile.length + 1 := by
    have count := length_words_le ['\n'] (fileText entries)
    have inside := file.inside
    rw [words_fileText, List.length_map] at count
    omega
  obtain ⟨e, looped, ready⟩ := expandLoop_text (e := ⟨s.aliasName, s.comm, ⟨s.buffer, s.buffer2⟩,
    .block (line ++ [' '] ++ nul :: (s.tempBuf.drop (line.length + 1)).drop 1)⟩)
    ⟨holds_front whole _, s.aliasName_size, s.comm_size, s.buffer_size, s.buffer2_size⟩ at_ ended
    fits enough
  refine ⟨e.bytes, ?_, ready.line⟩
  rw [checkForAliases, read, ok_bind]
  simp only [scanned, ok_bind, holds.textAt]
  rw [strcpy_front (by omega), ok_bind, strcat_front holds.1 [' '] (by simp; omega), ok_bind]
  simp only [List.length_singleton, looped, ok_bind]
  rfl

/-- The same for the words of the line, with or without a file. -/
theorem checkForAliases_words (s : Scratch) (entries : List Entry)
    (small : (fileText entries).length < 40000)
    (ready : entries ≠ [] → s.str.head? = some nul ∧ Ended s.aliasName entries)
    (holds : Holds buf 0 line) (short : line.length < 4095) (fits : Fits entries (line ++ [' '])) :
    ∃ bytes text, checkForAliases s (fileOf entries) buf = .ok bytes ∧ Holds bytes 0 text ∧
      words splitters text = words splitters (substituteAll entries (line ++ [' '])) := by
  cases entries with
  | nil =>
    refine ⟨buf, line, rfl, holds, ?_⟩
    exact (words_trailing (by simp [splitters]) line).symm
  | cons e entries =>
    obtain ⟨clear, ended⟩ := ready (List.cons_ne_nil e entries)
    obtain ⟨bytes, ran, holds'⟩ := checkForAliases_text s _ small clear ended holds short fits
    exact ⟨bytes, _, ran, holds', rfl⟩

end Comp304.Shell
