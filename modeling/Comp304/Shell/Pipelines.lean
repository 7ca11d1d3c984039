import Comp304.Shell.Stages
import Mathlib.Data.List.Forall2

/-! A pipeline is parsed stage by stage: every node of the chain is what its stage
alone would be parsed to, exactly when the blocks that are allocated for the
later nodes happen to hold zeros in the members their stages do not set. -/
namespace Comp304.Shell
open Library Library.CString Library.Budget

/-- White space on both sides of a bar between two stages. -/
def Spaced (s t : StageText) : Prop :=
  (∃ c ∈ splitters, s.text.getLast? = some c) ∧ ∃ c ∈ splitters, t.text.head? = some c

/-- A line of stages with bars between them. -/
structure Line where
  first : StageText
  later : List StageText
  spaced : (first :: later).IsChain Spaced

def Line.stages (l : Line) : List StageText := l.first :: l.later

def Line.text (l : Line) : List Char := ['|'].intercalate (l.stages.map StageText.text)

/-- The nodes of a chain and the word it ends in. -/
def Command.stages : Command → List Stage
  | ⟨_, _, stage, .inl _⟩ => [stage]
  | ⟨_, _, stage, .inr next⟩ => stage :: next.stages

def Command.last : Command → UInt64
  | ⟨_, _, _, .inl word⟩ => word
  | ⟨_, _, _, .inr next⟩ => next.last

/-- The chain has one node for each stage, which is the stage parsed alone, and
ends in `NULL`. -/
def StageByStage (fresh : Nat → Contents) (after : List Char) (l : Line) : Prop :=
  ∃ c, parseLine fresh zeroed l.text after = .ok c ∧ c.last = 0 ∧
    List.Forall₂ (fun s stage => ∃ d, parseLine fresh zeroed s.text after = .ok d ∧
      d.next = .inl 0 ∧ d.stage = stage) l.stages c.stages

/-- The blocks of the later nodes are zero where their stages set nothing, and the
last one also in `next`. -/
def Cleared (fresh : Nat → Contents) (l : Line) : Prop :=
  (∀ i (s : StageText), l.later[i]? = some s → s.Covers (fresh i)) ∧
    (l.later ≠ [] → (fresh (l.later.length - 1)).next = 0)

/-! ### The words of the line -/

theorem words_bar (left : ∃ c ∈ splitters, s.getLast? = some c)
    (right : ∃ c ∈ splitters, t.head? = some c) :
    words splitters (s ++ '|' :: t) = words splitters s ++ ['|'] :: words splitters t := by
  obtain ⟨c, delim, last⟩ := left
  obtain ⟨d, delim', head⟩ := right
  obtain ⟨s, rfl⟩ := List.getLast?_eq_some_iff.mp last
  obtain ⟨t, rfl⟩ := List.head?_eq_some_iff.mp head
  have bar : words splitters ('|' :: d :: t) = ['|'] :: words splitters t := by
    refine (words_append ['|'] delim' t).trans ?_
    rw [words_single (by simp [splitters]) (by simp)]
    rfl
  rw [List.append_assoc, List.singleton_append, words_append s delim, bar, words_append s delim,
    words_nil, words_cons delim', List.append_nil]

def lineWords (stages : List StageText) : List (List Char) :=
  [['|']].intercalate (stages.map fun s => words splitters s.text)

theorem words_line (stages : List StageText) (spaced : stages.IsChain Spaced) :
    words splitters (['|'].intercalate (stages.map StageText.text)) = lineWords stages := by
  induction stages with
  | nil => rfl
  | cons s stages ih =>
    cases stages with
    | nil => simp [lineWords]
    | cons t stages =>
      obtain ⟨⟨left, -⟩, later⟩ := List.isChain_cons_cons.mp spaced
      have right : ∃ c ∈ splitters,
          (['|'].intercalate ((t :: stages).map StageText.text)).head? = some c := by
        obtain ⟨c, delim, head⟩ := (List.isChain_cons_cons.mp spaced).1.2
        refine ⟨c, delim, ?_⟩
        cases stages with
        | nil => simpa using head
        | cons u stages =>
          simp only [List.map_cons, List.intercalate_cons_cons, List.head?_append, head]
          rfl
      have split := words_bar left right
      rw [ih later] at split
      simpa [lineWords, List.intercalate_cons_cons] using split

theorem whole_line (stages : List StageText) :
    nul ∉ ['|'].intercalate (stages.map StageText.text) := by
  induction stages with
  | nil => exact nofun
  | cons s stages ih =>
    cases stages with
    | nil => simpa using s.whole
    | cons t stages =>
      simp only [List.map_cons, List.intercalate_cons_cons, List.mem_append, not_or]
      exact ⟨⟨s.whole, by decide⟩, ih⟩

theorem lineWords_ne_nil (s : StageText) (stages : List StageText) :
    lineWords (s :: stages) ≠ [] := by
  cases stages with
  | nil => simp [lineWords, s.spelled]
  | cons t stages => simp [lineWords, List.intercalate_cons_cons, s.spelled]

/-! ### The chain -/

/-- The chain that is built for some stages, the first into a struct with the given
contents and the others into blocks from the given number on. -/
inductive Chained (fresh : Nat → Contents) : Nat → Contents → List StageText → Command → Prop
  | last (stage : c.stage = s.stage command) (next : c.next = .inl command.next) :
      Chained fresh k command [s] c
  | pipe (stage : c.stage = s.stage command) (next : c.next = .inr d)
      (rest : Chained fresh (k + 1) (fresh k) stages d) : Chained fresh k command (s :: stages) c

/-- The loop over the words of one stage, and where it goes on. -/
theorem StageText.tokenLoop_stage (s : StageText)
    {m : Machine} (scans : m.Scans (s.items.flatMap Item.words ++ ws)) :
    ∃ m' : Machine, m'.Scans ws ∧ m.Alike m' ∧ ∀ fresh nested rounds command,
      tokenLoop fresh nested (rounds + (s.items.flatMap Item.words).length) (.start command) m =
        tokenLoop fresh nested rounds (progressOf command s.items) m' := by
  have listed : ∀ w ∈ s.items.flatMap Item.words, w ∈ words splitters s.text := fun w member => by
    rw [s.spelled]
    exact List.mem_cons_of_mem _ member
  obtain ⟨m', scans', alike, run⟩ := tokenLoop_words _ scans
    (fun w member => Nat.lt_succ_of_le (s.short w (listed w member)))
    (fun member => s.noBar (listed _ member))
  refine ⟨m', scans', alike, fun fresh nested rounds command => ?_⟩
  rw [run, s.take_words, ok_bind]

theorem parseCommand_chain (fresh : Nat → Contents) (s : StageText) (later : List StageText)
    {m : Machine} (holds : Holds m.bytes buf text)
    (found : words splitters text = lineWords (s :: later))
    (enough : (lineWords (s :: later)).length ≤ budget) (command : Contents) :
    ∃ c m', parseCommand fresh (budget + 1) buf command m = .ok (c, m') ∧ m'.Done ∧
      m'.bytes.length = m.bytes.length ∧ Chained fresh m.structs command (s :: later) c := by
  induction later generalizing s m buf text budget command with
  | nil =>
    have own : lineWords [s] = s.name :: (s.items.flatMap Item.words ++ []) := by
      simp [lineWords, s.spelled]
    rw [own] at found enough
    obtain ⟨m₁, scans, alike, start⟩ := parseCommand_start holds
    rw [found] at scans start
    obtain ⟨m₂, scans₂, alike₂, run⟩ := s.tokenLoop_stage scans
    obtain ⟨m₃, done, alike₃, last⟩ := tokenLoop_end scans₂
    obtain ⟨extra, rounds⟩ : ∃ extra, budget + 1 = extra + 1 + (s.items.flatMap Item.words).length := by
      simp only [List.append_nil, List.length_cons] at enough
      exact ⟨budget - (s.items.flatMap Item.words).length, by omega⟩
    refine ⟨⟨command.background || (trim text).getLast? = some '&',
      command.autoComplete || (trim text).getLast? = some '?', s.stage command, .inl command.next⟩, m₃, ?_, done, (alike.trans (alike₂.trans alike₃)).1, ?_⟩
    · rw [start, rounds, run, last _ _ _ _ rfl]
      rfl
    · exact .last rfl rfl
  | cons t later ih =>
    have own : lineWords (s :: t :: later) =
        s.name :: (s.items.flatMap Item.words ++ ['|'] :: lineWords (t :: later)) := by
      simp [lineWords, s.spelled, List.intercalate_cons_cons]
    rw [own] at found enough
    obtain ⟨m₁, scans, alike, start⟩ := parseCommand_start holds
    rw [found] at scans start
    obtain ⟨m₂, scans₂, alike₂, run⟩ := s.tokenLoop_stage scans
    obtain ⟨buf', q, m₃, text', holds', found', size, inside, structs, pipe⟩ :=
      tokenLoop_pipe scans₂ (lineWords_ne_nil t later)
    simp only [List.length_cons, List.length_append] at enough
    obtain ⟨budget, rfl⟩ : ∃ rest, budget = rest + 1 := ⟨budget - 1, by omega⟩
    have enough' : (lineWords (t :: later)).length ≤ budget := by omega
    obtain ⟨d, m₄, nested, done, size', chained⟩ := ih t holds' found' enough' (fresh m₂.structs)
    obtain ⟨m₅, done', alike₅, last⟩ := tokenLoop_end (done.write q m₄.structs).scans
    obtain ⟨extra, rounds⟩ : ∃ extra, budget + 1 + 1 =
        extra + 1 + 1 + (s.items.flatMap Item.words).length :=
      ⟨budget - (s.items.flatMap Item.words).length, by omega⟩
    refine ⟨⟨command.background || (trim text).getLast? = some '&',
      command.autoComplete || (trim text).getLast? = some '?', s.stage command, .inr d⟩, m₅, ?_, done', ?_, ?_⟩
    · rw [start, rounds, run, pipe _ _ _ _ rfl, nested, ok_bind]
      simp only
      rw [write_ok (by omega), ok_bind, last _ _ _ _ rfl]
      rfl
    · rw [alike₅.1, List.length_set, size', size, alike₂.1, alike.1]
    · refine .pipe rfl rfl ?_
      rw [structs, alike₂.2, alike.2] at chained
      exact chained

theorem parseLine_chain (fresh : Nat → Contents) (after : List Char) (s : StageText)
    (later : List StageText) (spaced : (s :: later).IsChain Spaced) :
    ∃ c, parseLine fresh zeroed (['|'].intercalate ((s :: later).map StageText.text)) after = .ok c ∧
      Chained fresh 0 zeroed (s :: later) c := by
  have holds : Holds (['|'].intercalate ((s :: later).map StageText.text) ++ nul :: after) 0
      (['|'].intercalate ((s :: later).map StageText.text)) :=
    ⟨whole_line (s :: later), after, rfl⟩
  have found := words_line (s :: later) spaced
  have enough : (lineWords (s :: later)).length ≤
      (['|'].intercalate ((s :: later).map StageText.text)).length + 1 := by
    rw [← found]
    exact Nat.le_succ_of_le (length_words_le ..)
  obtain ⟨c, m, ran, -, -, chained⟩ := parseCommand_chain fresh s later
    (m := ⟨⟨_, none⟩, 0⟩) holds found enough zeroed
  refine ⟨c, ?_, chained⟩
  rw [parseLine, ran]
  rfl

/-- What `Cleared` says, along the chain. -/
def ClearedFrom (fresh : Nat → Contents) : Nat → Contents → List StageText → Prop
  | _, _, [] => True
  | _, command, [s] => s.Covers command ∧ command.next = 0
  | k, command, s :: t :: stages => s.Covers command ∧ ClearedFrom fresh (k + 1) (fresh k) (t :: stages)

theorem Chained.cleared_iff (chained : Chained fresh k command stages c) :
    (c.last = 0 ∧ List.Forall₂ (fun s stage => s.stage zeroed = stage) stages c.stages) ↔
      ClearedFrom fresh k command stages := by
  induction chained with
  | @last k command s c stage next =>
    obtain ⟨background, autoComplete, own, word⟩ := c
    obtain rfl : own = s.stage command := stage
    obtain rfl : word = .inl command.next := next
    simp only [Command.last, Command.stages, ClearedFrom, List.forall₂_cons, List.forall₂_nil_left_iff,
      and_true, eq_comm (a := s.stage zeroed), s.stage_eq_iff]
    exact and_comm
  | @pipe k stages d command s c stage next rest ih =>
    obtain ⟨background, autoComplete, own, word⟩ := c
    obtain rfl : own = s.stage command := stage
    obtain rfl : word = .inr d := next
    cases stages with
    | nil => cases rest
    | cons t stages =>
      simp only [Command.last, Command.stages, ClearedFrom, List.forall₂_cons,
        eq_comm (a := s.stage zeroed), s.stage_eq_iff, ← ih]
      exact and_left_comm

theorem clearedFrom_iff (s : StageText) (later : List StageText) :
    ClearedFrom fresh k command (s :: later) ↔
      s.Covers command ∧ (∀ i (t : StageText), later[i]? = some t → t.Covers (fresh (k + i))) ∧
        (if later = [] then command.next else (fresh (k + later.length - 1)).next) = 0 := by
  induction later generalizing k command s with
  | nil => simp [ClearedFrom]
  | cons t later ih =>
    have each : (∀ i (u : StageText), (t :: later)[i]? = some u → u.Covers (fresh (k + i))) ↔
        t.Covers (fresh k) ∧
          ∀ i (u : StageText), later[i]? = some u → u.Covers (fresh (k + 1 + i)) := by
      constructor
      · intro covers
        refine ⟨covers 0 t rfl, fun i u same => ?_⟩
        rw [Nat.add_assoc, Nat.add_comm 1]
        exact covers (i + 1) u same
      · rintro ⟨first, covers⟩ i u same
        cases i with
        | zero =>
          cases same
          exact first
        | succ i =>
          rw [Nat.add_comm i, ← Nat.add_assoc]
          exact covers i u same
    have ending : (if later = [] then (fresh k).next else (fresh (k + 1 + later.length - 1)).next) =
        (fresh (k + (t :: later).length - 1)).next := by
      split
      · next none => rw [none, List.length_singleton, Nat.add_sub_cancel]
      · rw [List.length_cons, Nat.add_right_comm, Nat.add_assoc]
    rw [ClearedFrom, ih, each, ending, if_neg (List.cons_ne_nil t later), and_assoc]

/-- A line is parsed stage by stage exactly when the fresh blocks are clear. -/
theorem pipeline_stage_by_stage (fresh : Nat → Contents) (after : List Char) (l : Line) :
    StageByStage fresh after l ↔ Cleared fresh l := by
  obtain ⟨c, line, chained⟩ := parseLine_chain fresh after l.first l.later l.spaced
  have whole : StageByStage fresh after l ↔ ClearedFrom fresh 0 zeroed (l.first :: l.later) := by
    rw [← chained.cleared_iff]
    constructor
    · rintro ⟨c', line', last, each⟩
      cases line.symm.trans line'
      refine ⟨last, each.imp ?_⟩
      rintro s stage ⟨d, ran, -, rfl⟩
      obtain ⟨d', ran', -, own⟩ := s.parseLine_stage fresh zeroed after
      cases ran.symm.trans ran'
      exact own.symm
    · rintro ⟨last, each⟩
      refine ⟨c, line, last, each.imp ?_⟩
      rintro s stage rfl
      exact s.parseLine_stage fresh zeroed after
  have clear : l.first.Covers zeroed := fun _ _ => ⟨rfl, rfl⟩
  rw [whole, clearedFrom_iff, Cleared]
  simp only [clear, true_and, Nat.zero_add]
  cases l.later with
  | nil => simp [zeroed]
  | cons t later => simp

def listing : StageText where
  text := "ls ".toList
  name := "ls".toList
  items := []
  whole := by decide
  spelled := rfl
  noBar := by decide
  short := by decide
  plain := nofun
  few := Nat.zero_le 3

def counting : StageText where
  text := " wc -l".toList
  name := "wc".toList
  items := [.argument "-l".toList]
  whole := by decide
  spelled := rfl
  noBar := by decide
  short := by decide
  plain := by simp [Item.Plain, operator]
  few := Nat.zero_le 3

/-- A block that was used before. -/
def stale : Contents := { zeroed with next := 64 }

def listingCounted : Line where
  first := listing
  later := [counting]
  spaced := .cons_cons ⟨⟨' ', by decide, rfl⟩, ' ', by decide, rfl⟩ (.singleton _)

/-- `ls | wc -l` when the block for the second node is not clear: the chain goes on
at whatever its `next` holds. -/
theorem stale_block_breaks_chain : ¬ StageByStage (fun _ => stale) [] listingCounted := by
  rintro ⟨c, ran, last, -⟩
  have word : (parseLine (fun _ => stale) zeroed listingCounted.text []).map Command.last =
      .ok 64 := rfl
  rw [ran] at word
  have same : c.last = 64 := Except.ok.inj word
  rw [last] at same
  cases same

end Comp304.Shell
