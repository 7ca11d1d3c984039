import Comp304.Shell.Expansion
import Comp304.Shell.Pipelines

/-! Definitions of aliases and their use. A definition that is typed comes back as
it was given when no earlier entry rewrites its line and the expansion can tell
its name from the ones before. -/
namespace Comp304.Shell
open Library Library.CString Library.Budget

def Plain (c : Char) : Prop := c.isAlphanum ∨ c ∈ ['-', '_', '.', '/']

instance : DecidablePred Plain := fun _ => inferInstanceAs (Decidable (_ ∨ _))

theorem plain_of_all {text : List Char} (each : text.all (Plain ·)) : ∀ c ∈ text, Plain c := by
  simpa using each

/-- A token of letters, digits and a few other characters. -/
@[ext]
structure Word where
  text : List Char
  nonempty : text ≠ []
  plain : ∀ c ∈ text, Plain c
  deriving DecidableEq

/-- What the command `alias` writes for the words: one alone gets a blank behind it. -/
def joinedWords : List Word → List Char
  | [w] => w.text ++ [' ']
  | ws => [' '].intercalate (ws.map Word.text)

/-- `alias n w1 ... wk`, within the sizes of `alias` and of the two `comm`. -/
structure Definition where
  name : Word
  words : List Word
  nonempty : words ≠ []
  name_fits : name.text.length ≤ 98
  words_fit : (joinedWords words).length ≤ 99

def Definition.line (d : Definition) : List Char :=
  [' '].intercalate ("alias".toList :: d.name.text :: d.words.map Word.text)

/-! ### Plain words -/

theorem Plain.ne (plain : Plain c) :
    c ∉ [nul, ' ', '\t', '\n', ';', '|', '<', '>', '&', '\x22', '\''] := by
  rintro member
  simp only [List.mem_cons, List.not_mem_nil, or_false] at member
  obtain rfl | rfl | rfl | rfl | rfl | rfl | rfl | rfl | rfl | rfl | rfl := member
  all_goals exact absurd plain (by unfold Plain; decide)

theorem Word.not_mem (w : Word)
    (special : c ∈ [nul, ' ', '\t', '\n', ';', '|', '<', '>', '&', '\x22', '\'']) : c ∉ w.text :=
  fun inside => (w.plain c inside).ne special

theorem Word.operator (w : Word) : operator w.text = none := by
  obtain ⟨text, -, plain⟩ := w
  cases text with
  | nil => rfl
  | cons c text =>
    have first := (plain c List.mem_cons_self).ne
    unfold Shell.operator
    split
    · next same =>
      cases same
      exact absurd (by simp) first
    · next same =>
      cases same
      exact absurd (by simp) first
    · next same =>
      cases same
      exact absurd (by simp) first
    · rfl

theorem Word.unquote (w : Word) : (unquote w.text).text = w.text := by
  rw [Shell.unquote, if_neg]
  rintro ⟨-, ⟨first, -⟩ | ⟨first, -⟩⟩
  · exact w.not_mem (by simp) (List.mem_of_head? first)
  · exact w.not_mem (by simp) (List.mem_of_head? first)

theorem words_intercalate (ws : List Word) :
    words splitters ([' '].intercalate (ws.map Word.text)) = ws.map Word.text := by
  have blank : ' ' ∈ splitters := by decide
  refine words_joined blank fun w listed => ?_
  obtain ⟨w, -, rfl⟩ := List.mem_map.mp listed
  refine ⟨w.nonempty, fun c member delim => ?_⟩
  simp only [splitters, List.mem_cons, List.not_mem_nil, or_false] at delim
  obtain rfl | rfl := delim
  · exact w.not_mem (by simp) member
  · exact w.not_mem (by simp) member

theorem words_joinedWords (ws : List Word) : words splitters (joinedWords ws) = ws.map Word.text := by
  unfold joinedWords
  split
  · next w =>
    rw [words_trailing (by simp [splitters])]
    simpa using words_intercalate [w]
  · exact words_intercalate ws

/-- A line of plain words is parsed to them. -/
def Command.Runs (c : Command) (ws : List Word) : Prop :=
  some c.stage.name.text = (ws.map Word.text).head? ∧
    c.stage.argv = (ws.map fun w => some w.text) ++ [none] ∧ c.stage.argCount = ws.length

theorem arguments_words (ws : List Word) :
    arguments (ws.map fun w => .argument w.text) = ws.map Word.text := by
  induction ws with
  | nil => rfl
  | cons w ws ih =>
    have other : w.text ≠ ['&'] := by
      intro same
      have member : '&' ∈ w.text := by simp [same]
      exact w.not_mem (by simp) member
    rw [arguments, passed] at ih ⊢
    rw [List.map_cons, List.filterMap_cons]
    simp only [if_neg other, w.unquote, List.map_cons]
    rw [ih]

theorem parse_words {bytes : List Char} (fresh : Nat → Contents) (holds : Holds bytes 0 text)
    (w : Word) (ws : List Word) (found : words splitters text = (w :: ws).map Word.text)
    (short : ∀ v ∈ w :: ws, v.text.length ≤ 1023) :
    ∃ c m, parseCommand fresh (bytes.length + 1) 0 zeroed ⟨⟨bytes, none⟩, 0⟩ = .ok (c, m) ∧
      c.Runs (w :: ws) := by
  have noBar : ['|'] ∉ words splitters text := by
    rw [found]
    rintro member
    obtain ⟨v, -, same⟩ := List.mem_map.mp member
    have bar : '|' ∈ v.text := by simp [same]
    exact v.not_mem (by simp) bar
  have none : kinds (ws.map fun w => .argument w.text) = [] := by
    simp [kinds, List.filterMap_map]
  let s : StageText := {
    text := text
    name := w.text
    items := ws.map fun w => .argument w.text
    whole := holds.1
    spelled := by
      rw [found, List.map_cons, List.flatMap_map]
      exact congrArg (w.text :: ·) List.map_eq_flatMap
    noBar := noBar
    short := by
      rw [found]
      intro v member
      obtain ⟨v, listed, rfl⟩ := List.mem_map.mp member
      exact short v listed
    plain := by
      intro item member
      obtain ⟨v, -, rfl⟩ := List.mem_map.mp member
      exact v.operator
    few := by
      rw [none]
      exact Nat.zero_le 3 }
  have line : words splitters text = lineWords [s] := by simp [lineWords, s]
  have enough : (lineWords [s]).length ≤ bytes.length := by
    have inside := holds.inside
    rw [← line]
    exact Nat.le_trans (length_words_le ..) (by omega)
  obtain ⟨c, m, ran, -, -, chained⟩ := parseCommand_chain fresh s [] (m := ⟨⟨bytes, .none⟩, 0⟩) holds
    line enough zeroed
  refine ⟨c, m, ran, ?_⟩
  have own : c.stage = s.stage zeroed := by
    cases chained with
    | last stage next => exact stage
    | pipe stage next rest => cases rest
  have given : arguments s.items = ws.map Word.text := arguments_words ws
  rw [Command.Runs, own]
  refine ⟨rfl, ?_, ?_⟩
  · rw [StageText.stage, argv_staged, given]
    simp [s]
  · have count := congrArg List.length given
    simpa [StageText.stage, Progress.staged, progressOf, arguments] using count

/-! ### Storing a definition -/

theorem mem_spaced {ws : List Word} (inside : c ∈ [' '].intercalate (ws.map Word.text)) :
    c = ' ' ∨ ∃ w ∈ ws, c ∈ w.text := by
  induction ws with
  | nil => cases inside
  | cons w ws ih =>
    cases ws with
    | nil => exact Or.inr ⟨w, List.mem_cons_self, by simpa using inside⟩
    | cons v ws =>
      rw [List.map_cons, List.map_cons, List.intercalate_cons_cons, List.append_assoc] at inside
      obtain first | later := List.mem_append.mp inside
      · exact Or.inr ⟨w, List.mem_cons_self, first⟩
      obtain blank | later := List.mem_append.mp later
      · exact Or.inl (List.mem_singleton.mp blank)
      · obtain same | ⟨u, listed, member⟩ := ih later
        · exact Or.inl same
        · exact Or.inr ⟨u, List.mem_cons_of_mem _ listed, member⟩

theorem mem_joinedWords {ws : List Word} (inside : c ∈ joinedWords ws) :
    c = ' ' ∨ ∃ w ∈ ws, c ∈ w.text := by
  unfold joinedWords at inside
  split at inside
  · next w =>
    obtain first | blank := List.mem_append.mp inside
    · exact Or.inr ⟨w, List.mem_cons_self, first⟩
    · exact Or.inl (List.mem_singleton.mp blank)
  · exact mem_spaced inside

theorem joinedWords_not_mem (ws : List Word) (other : c ≠ ' ')
    (special : c ∈ [nul, ' ', '\t', '\n', ';', '|', '<', '>', '&', '\x22', '\'']) :
    c ∉ joinedWords ws := by
  intro inside
  obtain blank | ⟨w, -, member⟩ := mem_joinedWords inside
  · exact other blank
  · exact w.not_mem special member

theorem length_le_spaced {ws : List Word} (member : w ∈ ws) :
    w.text.length ≤ ([' '].intercalate (ws.map Word.text)).length := by
  induction ws with
  | nil => cases member
  | cons v ws ih =>
    cases ws with
    | nil => simp [List.mem_singleton.mp member]
    | cons u ws =>
      rw [List.map_cons, List.map_cons, List.intercalate_cons_cons, ← List.map_cons]
      simp only [List.length_append]
      obtain rfl | later := List.mem_cons.mp member
      · omega
      · have shorter := ih later
        omega

theorem Definition.words_short (d : Definition) : ∀ w ∈ d.words, w.text.length ≤ 99 := by
  intro w member
  refine Nat.le_trans ?_ d.words_fit
  unfold joinedWords
  split
  · next v same =>
    rw [same] at member
    simp [List.mem_singleton.mp member]
  · exact length_le_spaced member

def Definition.entry (d : Definition) : Entry where
  name := d.name.text
  comm := joinedWords d.words
  nonempty := d.name.nonempty
  name_plain := by
    refine ⟨?_, ?_, ?_, ?_⟩
    all_goals exact d.name.not_mem (by simp)
  comm_plain := by
    refine ⟨?_, ?_⟩
    all_goals exact joinedWords_not_mem d.words (by decide) (by simp)
  name_fits := d.name_fits
  comm_fits := Nat.le_trans d.words_fit (by decide)

/-- The loop on the arguments behind the first one. -/
theorem joinLoop_rest (w : Word) (ws : List Word) (old rest : List Char) (i : Nat) (late : 3 ≤ i)
    (whole : nul ∉ old) (room : ([' '].intercalate ((w :: ws).map Word.text)).length ≤ rest.length) :
    ∃ left, joinLoop (i + ws.length + 1) i (old ++ nul :: rest) ((w :: ws).map fun w => some w.text) =
      .ok (old ++ [' '].intercalate ((w :: ws).map Word.text) ++ nul :: left) := by
  induction ws generalizing w old rest i with
  | nil =>
    refine ⟨rest.drop w.text.length, ?_⟩
    simp only [List.map_cons, List.map_nil, List.intercalate_singleton] at room ⊢
    rw [joinLoop, if_neg (by omega), if_neg (by simp), strcat_front whole _ room, ok_bind]
    rfl
  | cons v ws ih =>
    rw [List.map_cons, List.map_cons, List.intercalate_cons_cons, List.append_assoc] at room
    simp only [List.length_append, List.length_singleton] at room
    have whole' : nul ∉ old ++ w.text := by
      rw [List.mem_append, not_or]
      exact ⟨whole, w.not_mem (by simp)⟩
    have whole'' : nul ∉ old ++ w.text ++ [' '] := by
      rw [List.mem_append, not_or]
      exact ⟨whole', by decide⟩
    obtain ⟨left, ran⟩ := ih v (old ++ w.text ++ [' ']) ((rest.drop w.text.length).drop 1) (i + 1)
      (Nat.le_succ_of_le late) whole'' (by simp only [List.length_drop, List.map_cons]; omega)
    refine ⟨left, ?_⟩
    rw [List.length_cons, ← Nat.add_assoc, Nat.add_right_comm i, List.map_cons, joinLoop,
      if_neg (by omega), if_pos (by omega), strcat_front whole _ (by omega), ok_bind,
      strcat_front whole' _ (by simp; omega), ok_bind]
    simp only [List.length_singleton]
    rw [ran]
    simp [List.intercalate_cons_cons]

/-- The array `comm` when the file is written. -/
theorem joinLoop_words (ws : List Word) (nonempty : ws ≠ []) (comm : List Char)
    (size : comm.length = 100) (fits : (joinedWords ws).length ≤ 99) :
    ∃ rest, joinLoop (ws.length + 2) 2 comm (ws.map fun w => some w.text) =
      .ok (joinedWords ws ++ nul :: rest) := by
  obtain ⟨w, ws, rfl⟩ := List.exists_cons_of_ne_nil nonempty
  have whole : nul ∉ w.text := w.not_mem (by simp)
  have whole' : nul ∉ w.text ++ [' '] := by
    rw [List.mem_append, not_or]
    exact ⟨whole, by decide⟩
  cases ws with
  | nil =>
    simp only [joinedWords, List.length_append, List.length_singleton] at fits
    refine ⟨(comm.drop (w.text.length + 1)).drop 1, ?_⟩
    rw [List.map_singleton, joinLoop, if_pos rfl, strcpy_front (by omega), ok_bind,
      strcat_front whole _ (by simp; omega), ok_bind]
    rfl
  | cons v ws =>
    simp only [joinedWords, List.map_cons, List.intercalate_cons_cons, List.length_append,
      List.length_singleton] at fits
    obtain ⟨rest, ran⟩ := joinLoop_rest v ws (w.text ++ [' '])
      ((comm.drop (w.text.length + 1)).drop 1) 3 (Nat.le_refl _) whole'
      (by simp only [List.length_drop, List.map_cons]; omega)
    refine ⟨rest, ?_⟩
    rw [List.map_cons, joinLoop, if_pos rfl, strcpy_front (by omega), ok_bind,
      strcat_front whole _ (by simp; omega), ok_bind]
    have count : (w :: v :: ws).length + 2 = 3 + ws.length + 1 := by
      simp only [List.length_cons]
      omega
    rw [count]
    refine Eq.trans ran ?_
    simp [joinedWords, List.intercalate_cons_cons]

theorem processCommand_alias (s : Scratch) (file : Option (List Char)) (d : Definition)
    {alias_ : Word} {c : Command} (named : alias_.text = "alias".toList)
    (runs : c.Runs (alias_ :: d.name :: d.words)) :
    processCommand s file c = .ok (some (file.getD [] ++ fileText [d.entry])) := by
  obtain ⟨name, args, count⟩ := runs
  have called : c.stage.name.text = "alias".toList := by
    rw [List.map_cons, List.head?_cons, Option.some.injEq] at name
    rw [name, named]
  have counted : c.stage.argCount = d.words.length + 2 := count
  have passed : (c.stage.argv.take (d.words.length + 2)).drop 2 =
      d.words.map fun w => some w.text := by
    rw [args]
    simp
  have second : c.stage.argv[1]?.join = some d.name.text := by
    rw [args]
    rfl
  obtain ⟨rest, joined⟩ := joinLoop_words d.words d.nonempty s.joined s.joined_size d.words_fit
  have whole : nul ∉ joinedWords d.words := joinedWords_not_mem d.words (by decide) (by simp)
  rw [processCommand, if_pos called]
  simp only [counted, passed, joined, ok_bind, (holds_front whole rest).textAt, second]
  simp [fileText, Entry.token, Definition.entry, pure, Except.pure]

/-! ### One line of a history -/

def aliasWord : Word where
  text := "alias".toList
  nonempty := by decide
  plain := plain_of_all rfl

theorem Definition.line_eq (d : Definition) :
    d.line = [' '].intercalate ((aliasWord :: d.name :: d.words).map Word.text) := rfl

theorem length_spaced_le (ws : List Word) :
    ([' '].intercalate (ws.map Word.text)).length ≤ (joinedWords ws).length := by
  unfold joinedWords
  split
  · simp
  · exact Nat.le_refl _

theorem Definition.line_short (d : Definition) : d.line.length ≤ 204 := by
  obtain ⟨w, ws, same⟩ := List.exists_cons_of_ne_nil d.nonempty
  have name := d.name_fits
  have words := Nat.le_trans (length_spaced_le d.words) d.words_fit
  rw [line, same] at *
  simp only [List.map_cons, List.intercalate_cons_cons, List.length_append] at words ⊢
  simp
  omega

theorem whole_spaced (ws : List Word) : nul ∉ [' '].intercalate (ws.map Word.text) := by
  intro inside
  obtain blank | ⟨w, -, member⟩ := mem_spaced inside
  · cases blank
  · exact w.not_mem (by simp) member

/-- An entry whose name is none of the words is not found. -/
theorem Word.absent {w : Word} {ws : List Word} {line : List Char} (other : w ∉ ws)
    (found : words splitters line = ws.map Word.text) :
    (∀ c ∈ w.text, c ∉ splitters) ∧ w.text ∉ words splitters line := by
  refine ⟨fun c member blank => ?_, ?_⟩
  · simp only [splitters, List.mem_cons, List.not_mem_nil, or_false] at blank
    obtain rfl | rfl := blank
    · exact w.not_mem (by simp) member
    · exact w.not_mem (by simp) member
  · rw [found]
    rintro member
    obtain ⟨v, listed, same⟩ := List.mem_map.mp member
    exact other (Word.ext same ▸ listed)

/-- What is typed is parsed to the words the entries make of it. -/
theorem prompt_words (s : Scratch) (entries : List Entry) (line : List Char) {w : Word}
    {ws : List Word} (small : (fileText entries).length < 40000)
    (ready : entries ≠ [] → s.str.head? = some nul ∧ Ended s.aliasName entries)
    (whole : nul ∉ line) (typed : line.length < 4095) (fits : Fits entries (line ++ [' ']))
    (found : words splitters (substituteAll entries (line ++ [' '])) = (w :: ws).map Word.text)
    (short : ∀ v ∈ w :: ws, v.text.length ≤ 1023) :
    ∃ c, prompt s (fileOf entries) line = .ok c ∧ c.Runs (w :: ws) := by
  have size := s.buf_size
  obtain ⟨bytes, text, expanded, holds, same⟩ :=
    checkForAliases_words s entries small ready (holds_front whole _) typed fits
  rw [found] at same
  obtain ⟨c, m, parsed, runs⟩ := parse_words s.fresh holds w ws same short
  refine ⟨c, ?_, runs⟩
  rw [prompt, strcpy_front (by omega), ok_bind, expanded, ok_bind, parsed]
  rfl

theorem fileOf_append (entries : List Entry) (e : Entry) :
    fileOf (entries ++ [e]) = some ((fileOf entries).getD [] ++ fileText [e]) := by
  cases entries with
  | nil => rfl
  | cons d entries => simp [fileOf, fileText]

/-- A line that the entries turn into a definition adds its entry to the file. -/
theorem definition_stored (s : Scratch) (entries : List Entry) (line : List Char) (d : Definition)
    (small : (fileText entries).length < 40000)
    (ready : entries ≠ [] → s.str.head? = some nul ∧ Ended s.aliasName entries)
    (whole : nul ∉ line) (typed : line.length < 4095) (fits : Fits entries (line ++ [' ']))
    (found : words splitters (substituteAll entries (line ++ [' '])) =
      (aliasWord :: d.name :: d.words).map Word.text) :
    ∃ c, prompt s (fileOf entries) line = .ok c ∧
      processCommand s (fileOf entries) c = .ok (fileOf (entries ++ [d.entry])) := by
  have name := d.name_fits
  have short : ∀ v ∈ aliasWord :: d.name :: d.words, v.text.length ≤ 1023 := by
    intro v member
    obtain rfl | later := List.mem_cons.mp member
    · decide
    obtain rfl | later := List.mem_cons.mp later
    · omega
    · have bound := d.words_short v later
      omega
  obtain ⟨c, parsed, runs⟩ := prompt_words s entries line small ready whole typed fits found short
  exact ⟨c, parsed, by rw [processCommand_alias s _ d rfl runs, fileOf_append]⟩

/-! ### Histories -/

/-- Definitions none of whose words is a name, in a file that `str` has room for. -/
structure History where
  definitions : List Definition
  apart : ∀ d ∈ definitions, ∀ e ∈ definitions, e.name ∉ d.words
  fits : (fileText (definitions.map Definition.entry)).length < 40000

def History.latest (h : History) (name : Word) : Option Definition :=
  h.definitions.reverse.find? (·.name = name)

/-- When all definitions have been typed, every name stands for the words it was
given last. -/
def RoundTrips (scratch : Nat → Scratch) (h : History) : Prop :=
  ∃ file, enterAll scratch 0 none (h.definitions.map Definition.line) = .ok file ∧
    ∀ name d, h.latest name = some d →
      ∃ c, prompt (scratch h.definitions.length) file name.text = .ok c ∧ c.Runs d.words

/-- Each name is longer than the ones before, and `alias` can only be the last one. -/
def History.Growing (h : History) : Prop :=
  h.definitions.Pairwise fun d e => d.name.text.length < e.name.text.length ∧ d.name ≠ aliasWord

/-- The block `str` is empty, and `alias` is terminated behind each stored name. -/
structure Clear (s : Scratch) (done : List Definition) : Prop where
  str : s.str.head? = some nul
  aliasName : ∀ d ∈ done, s.aliasName[d.name.text.length]? = some nul

/-- At every prompt that finds a file. -/
def History.Terminated (scratch : Nat → Scratch) (h : History) : Prop :=
  ∀ k, 0 < k → k ≤ h.definitions.length → Clear (scratch k) (h.definitions.take k)

section
variable {scratch : Nat → Scratch} {h : History} {done rest : List Definition}

theorem History.small (parts : h.definitions = done ++ rest) :
    (fileText (done.map Definition.entry)).length < 40000 := by
  have fits := h.fits
  rw [parts, fileText, List.map_append, List.flatMap_append, List.length_append] at fits
  rw [fileText]
  omega

theorem History.Growing.ready (growing : h.Growing) (terminated : h.Terminated scratch)
    (parts : h.definitions = done ++ rest) (nonempty : done.map Definition.entry ≠ []) :
    (scratch done.length).str.head? = some nul ∧
      Ended (scratch done.length).aliasName (done.map Definition.entry) := by
  have inside := congrArg List.length parts
  rw [List.length_append] at inside
  have clear := terminated done.length (by simpa [List.length_pos_iff] using nonempty) (by omega)
  rw [parts, List.take_left] at clear
  rw [Growing, parts] at growing
  refine ⟨clear.str, ?_, ?_⟩
  · rw [List.pairwise_map]
    exact (List.pairwise_append.mp growing).1.imp And.left
  · intro entry member
    obtain ⟨d, listed, rfl⟩ := List.mem_map.mp member
    exact clear.aliasName d listed

theorem entries_absent (done : List Definition) {ws : List Word} {line : List Char}
    (other : ∀ d ∈ done, d.name ∉ ws) (found : words splitters line = ws.map Word.text) :
    ∀ e ∈ done.map Definition.entry,
      (∀ c ∈ e.name, c ∉ splitters) ∧ e.name ∉ words splitters line := by
  intro e member
  obtain ⟨d, listed, rfl⟩ := List.mem_map.mp member
  exact Word.absent (other d listed) found

/-- A definition goes through the prompt as it is typed and is added to the file. -/
theorem History.Growing.define (growing : h.Growing) (terminated : h.Terminated scratch)
    (parts : h.definitions = done ++ d :: rest) :
    ∃ c, prompt (scratch done.length) (fileOf (done.map Definition.entry)) d.line = .ok c ∧
      processCommand (scratch done.length) (fileOf (done.map Definition.entry)) c =
        .ok (fileOf ((done ++ [d]).map Definition.entry)) := by
  have other : ∀ e ∈ done, e.name ∉ aliasWord :: d.name :: d.words := by
    intro e member inside
    have before : e ∈ h.definitions := parts ▸ List.mem_append_left _ member
    have here : d ∈ h.definitions := parts ▸ List.mem_append_right _ List.mem_cons_self
    rw [Growing, parts] at growing
    have ⟨longer, plain⟩ := (List.pairwise_append.mp growing).2.2 e member d List.mem_cons_self
    obtain same | later := List.mem_cons.mp inside
    · exact plain same
    obtain same | later := List.mem_cons.mp later
    · rw [same] at longer
      exact Nat.lt_irrefl _ longer
    · exact h.apart d here e before later
  have typed := d.line_short
  have found : words splitters (d.line ++ [' ']) =
      (aliasWord :: d.name :: d.words).map Word.text := by
    rw [words_trailing (by simp [splitters]), d.line_eq, words_intercalate]
  have absent := entries_absent done other found
  have length : (d.line ++ [' ']).length < 4096 := by
    rw [List.length_append, List.length_singleton]
    omega
  rw [List.map_append, List.map_singleton]
  refine definition_stored _ _ d.line d (History.small parts) (growing.ready terminated parts)
    (d.line_eq ▸ whole_spaced _) (by omega) (fits_absent _ length absent) ?_
  rw [substituteAll_absent _ absent, found]

theorem enterAll_cons (scratch : Nat → Scratch) (k : Nat) (lines : List (List Char)) {c : Command}
    {file file' : Option (List Char)} {line : List Char}
    (typed : prompt (scratch k) file line = .ok c)
    (stored : processCommand (scratch k) file c = .ok file') :
    enterAll scratch k file (line :: lines) = enterAll scratch (k + 1) file' lines := by
  rw [enterAll, typed, ok_bind, stored, ok_bind]

/-- The file has the definitions in their order. -/
theorem History.Growing.enterAll_file (done : List Definition) (growing : h.Growing) (terminated : h.Terminated scratch)
    (parts : h.definitions = done ++ rest) :
    enterAll scratch done.length (fileOf (done.map Definition.entry)) (rest.map Definition.line) =
      .ok (fileOf (h.definitions.map Definition.entry)) := by
  induction rest generalizing done with
  | nil =>
    rw [parts, List.append_nil]
    rfl
  | cons d rest ih =>
    obtain ⟨c, parsed, stored⟩ := growing.define terminated parts
    have later := ih (done ++ [d]) (by simp [parts])
    rw [List.length_append, List.length_singleton] at later
    rw [List.map_cons, enterAll_cons scratch _ _ parsed stored, later]

end

/-- A name alone becomes the words of its entry. -/
theorem substituteAll_lookup {before after : List Definition} (d : Definition)
    (other : ∀ e ∈ before, e.name ≠ d.name) (apart : ∀ e ∈ after, e.name ∉ d.words) :
    substituteAll ((before ++ d :: after).map Definition.entry) (d.name.text ++ [' ']) =
        joinedWords d.words ++ [' '] ∧
      Fits ((before ++ d :: after).map Definition.entry) (d.name.text ++ [' ']) := by
  have named : words splitters (d.name.text ++ [' ']) = [d.name].map Word.text := by
    rw [words_trailing (by simp [splitters])]
    simpa using words_intercalate [d.name]
  have found : words splitters (joinedWords d.words ++ [' ']) = d.words.map Word.text := by
    rw [words_trailing (by simp [splitters]), words_joinedWords]
  have front := entries_absent before (by simpa using other) named
  have back := entries_absent after apart found
  have own : d.entry.substitute (d.name.text ++ [' ']) = joinedWords d.words ++ [' '] := by
    simpa [Definition.entry] using d.entry.substitute_front []
  have name := d.name_fits
  have comm := d.words_fit
  have short : (d.name.text ++ [' ']).length < 4096 := by
    rw [List.length_append, List.length_singleton]
    omega
  have short' : (joinedWords d.words ++ [' ']).length < 4096 := by
    rw [List.length_append, List.length_singleton]
    omega
  rw [List.map_append, List.map_cons]
  constructor
  · rw [substituteAll_append, substituteAll_absent _ front, substituteAll, List.foldl_cons, own]
    exact substituteAll_absent _ back
  · refine fits_append (fits_absent _ short front) ?_
    rw [substituteAll_absent _ front, Fits, own]
    exact ⟨short', fits_absent _ short' back⟩

/-- Definitions come back as they were given if each name is longer than the ones
before. -/
theorem alias_round_trips (scratch : Nat → Scratch) (h : History) (growing : h.Growing)
    (terminated : h.Terminated scratch) : RoundTrips scratch h := by
  refine ⟨_, growing.enterAll_file [] terminated rfl, ?_⟩
  rintro name d latest
  have listed : d ∈ h.definitions := List.mem_reverse.mp (List.mem_of_find?_eq_some latest)
  obtain rfl : d.name = name := by simpa using List.find?_some latest
  obtain ⟨before, after, parts⟩ := List.append_of_mem listed
  have other : ∀ e ∈ before, e.name ≠ d.name := by
    intro e member same
    have order := growing
    rw [History.Growing, parts] at order
    have longer := ((List.pairwise_append.mp order).2.2 e member d List.mem_cons_self).1
    rw [same] at longer
    exact Nat.lt_irrefl _ longer
  have apart : ∀ e ∈ after, e.name ∉ d.words := fun e member =>
    h.apart d listed e (parts ▸ List.mem_append_right _ (List.mem_cons_of_mem _ member))
  obtain ⟨expanded, fits⟩ := substituteAll_lookup d other apart
  rw [← parts] at expanded fits
  obtain ⟨w, ws, same⟩ := List.exists_cons_of_ne_nil d.nonempty
  have found : words splitters (joinedWords d.words ++ [' ']) = (w :: ws).map Word.text := by
    rw [words_trailing (by simp [splitters]), words_joinedWords, same]
  have name := d.name_fits
  have short := d.words_short
  rw [same] at short ⊢
  refine prompt_words _ _ _ h.fits (growing.ready terminated (List.append_nil _).symm)
    (d.name.not_mem (by simp)) (by omega) fits (expanded ▸ found) fun v member => ?_
  have bound := short v member
  omega

/-- Arrays of zeros. -/
def clearScratch : Scratch where
  buf := List.replicate 4096 nul
  line := List.replicate lineSize nul
  str := List.replicate 40000 nul
  aliasName := List.replicate 100 nul
  comm := List.replicate 400 nul
  tempBuf := List.replicate 4096 nul
  buffer := List.replicate 4096 nul
  buffer2 := List.replicate 4096 nul
  joined := List.replicate 100 nul
  fresh := fun _ => zeroed
  buf_size := filled_4096
  line_size := List.length_replicate
  str_size := filled_40000
  aliasName_size := filled_100
  comm_size := filled_400
  tempBuf_size := filled_4096
  buffer_size := filled_4096
  buffer2_size := filled_4096
  joined_size := filled_100

theorem clearScratch_clear (done : List Definition) : Clear clearScratch done where
  str := List.head?_replicate.trans (if_neg (Nat.succ_ne_zero _))
  aliasName := fun d _ => by
    have name := d.name_fits
    exact (List.getElem?_replicate ..).trans (if_pos (by omega))

def wordL : Word := ⟨"l".toList, by decide, plain_of_all rfl⟩
def wordLl : Word := ⟨"ll".toList, by decide, plain_of_all rfl⟩
def wordLs : Word := ⟨"ls".toList, by decide, plain_of_all rfl⟩
def wordDashL : Word := ⟨"-l".toList, by decide, plain_of_all rfl⟩
def wordDashA : Word := ⟨"-a".toList, by decide, plain_of_all rfl⟩

/-- `alias l ls -l` -/
def longListing : Definition := ⟨wordL, [wordLs, wordDashL], by decide, by decide, by decide⟩

/-- `alias ll ls -a` -/
def fullListing : Definition := ⟨wordLl, [wordLs, wordDashA], by decide, by decide, by decide⟩

/-- `alias l ls -a` -/
def otherListing : Definition := ⟨wordL, [wordLs, wordDashA], by decide, by decide, by decide⟩

def twoNames : History where
  definitions := [longListing, fullListing]
  apart := by decide
  fits := by decide

theorem two_names_round_trip : RoundTrips (fun _ => clearScratch) twoNames :=
  alias_round_trips _ _ (by unfold History.Growing; decide) fun _ _ _ => clearScratch_clear _

def oneNameTwice : History where
  definitions := [longListing, otherListing]
  apart := by decide
  fits := by decide

/-- What the second line defines after the first one has rewritten it:
`alias ls -l ls -a`. -/
def rewrittenListing : Definition :=
  ⟨wordLs, [wordDashL, wordLs, wordDashA], by decide, by decide, by decide⟩

/-- `alias l ls -l` and `alias l ls -a`: the new definition of `l` is stored as one
of `ls`, and `l` is neither. -/
theorem redefinition_is_rewritten : ¬ RoundTrips (fun _ => clearScratch) oneNameTwice := by
  obtain ⟨c₁, typed₁, file₁⟩ : ∃ c, prompt clearScratch none longListing.line = .ok c ∧
      processCommand clearScratch none c = .ok (fileOf [longListing.entry]) :=
    definition_stored clearScratch [] longListing.line longListing (by decide) (absurd rfl)
      (by decide) (by decide) True.intro (by decide)
  have ready : ∀ done : List Definition,
      (done.map Definition.entry).Pairwise (fun d e => d.name.length < e.name.length) →
      clearScratch.str.head? = some nul ∧
        Ended clearScratch.aliasName (done.map Definition.entry) := by
    intro done growing
    refine ⟨(clearScratch_clear done).str, growing, ?_⟩
    intro entry member
    obtain ⟨d, listed, rfl⟩ := List.mem_map.mp member
    exact (clearScratch_clear done).aliasName d listed
  obtain ⟨c₂, typed₂, file₂⟩ := definition_stored clearScratch [longListing.entry]
    otherListing.line rewrittenListing (by decide) (fun _ => ready [longListing] (by decide))
    (by decide) (by decide) ⟨by decide, True.intro⟩ (by decide)
  obtain ⟨c₃, typed₃, runs₃⟩ : ∃ c,
      prompt clearScratch (fileOf [longListing.entry, rewrittenListing.entry]) wordL.text = .ok c ∧
      c.Runs [wordDashL, wordLs, wordDashA, wordDashL] :=
    prompt_words clearScratch [longListing.entry, rewrittenListing.entry] wordL.text (by decide)
      (fun _ => ready [longListing, rewrittenListing] (by decide)) (by decide) (by decide)
      ⟨by decide, by decide, True.intro⟩ (by decide) (by decide)
  rintro ⟨file, entered, returns⟩
  have both : enterAll (fun _ => clearScratch) 0 none [longListing.line, otherListing.line] =
      .ok (fileOf [longListing.entry, rewrittenListing.entry]) := calc
    _ = enterAll (fun _ => clearScratch) 1 (fileOf [longListing.entry]) [otherListing.line] :=
      enterAll_cons _ 0 _ typed₁ file₁
    _ = .ok (fileOf [longListing.entry, rewrittenListing.entry]) := enterAll_cons _ 1 [] typed₂ file₂
  cases entered.symm.trans both
  obtain ⟨c, typed, runs⟩ := returns wordL otherListing rfl
  cases typed.symm.trans typed₃
  have names : some wordLs.text = some wordDashL.text := runs.1.symm.trans runs₃.1
  exact absurd names (by decide)

end Comp304.Shell
