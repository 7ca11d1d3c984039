import Comp304.Psvis.Program

/-! A record of the kernel module comes back from `plot.py` exactly when the name
in it survives unescaped: no quote, no backslash, and no opening bracket with a
closing one behind it. -/
namespace Comp304.Psvis
open Library Library.Json

/-! ### Stripping brackets -/

theorem stripBrackets_nil (held : Option (List Char)) : stripBrackets held [] = held.getD [] := rfl

theorem stripBrackets_outside (c : Char) (text : List Char) : stripBrackets none (c :: text) =
    if c = '[' then stripBrackets (some [c]) text else c :: stripBrackets none text := rfl

theorem stripBrackets_inside (span : List Char) (c : Char) (text : List Char) :
    stripBrackets (some span) (c :: text) =
      if c = ']' then stripBrackets none text
      else if c = '\n' then span ++ c :: stripBrackets none text
      else stripBrackets (some (span ++ [c])) text := rfl

theorem stripBrackets_span (open_ : ']' ∉ span) (line : '\n' ∉ span) (held rest : List Char) :
    stripBrackets (some held) (span ++ ']' :: rest) = stripBrackets none rest := by
  induction span generalizing held with
  | nil => rw [List.nil_append, stripBrackets_inside, if_pos rfl]
  | cons c span ih =>
    obtain ⟨inside, open_⟩ := List.ne_and_not_mem_of_not_mem_cons open_
    obtain ⟨same, line⟩ := List.ne_and_not_mem_of_not_mem_cons line
    rw [List.cons_append, stripBrackets_inside, if_neg (Ne.symm inside), if_neg (Ne.symm same)]
    exact ih open_ line _

theorem stripBrackets_before (plain : '[' ∉ before) (rest : List Char) :
    stripBrackets none (before ++ rest) = before ++ stripBrackets none rest := by
  induction before with
  | nil => rfl
  | cons c before ih =>
    obtain ⟨first, plain⟩ := List.ne_and_not_mem_of_not_mem_cons plain
    rw [List.cons_append, stripBrackets_outside, if_neg (Ne.symm first), ih plain]
    rfl

/-- Brackets that never close stay. -/
theorem stripBrackets_open (noClose : ']' ∉ text) (held : Option (List Char)) :
    stripBrackets held text = held.getD [] ++ text := by
  induction text generalizing held with
  | nil => rw [stripBrackets_nil, List.append_nil]
  | cons c text ih =>
    obtain ⟨last, noClose⟩ := List.ne_and_not_mem_of_not_mem_cons noClose
    cases held with
    | none =>
      rw [stripBrackets_outside]
      split
      · exact ih noClose (some [c])
      · simp [ih noClose]
    | some span =>
      rw [stripBrackets_inside, if_neg (Ne.symm last)]
      split
      · simp [ih noClose]
      · simp [ih noClose]

/-- What follows a text leaves it alone when it closes no bracket. -/
theorem stripBrackets_after (noClose : ']' ∉ after) (held text) :
    stripBrackets held (text ++ after) = stripBrackets held text ++ after := by
  induction text generalizing held with
  | nil => exact stripBrackets_open noClose held
  | cons c text ih =>
    cases held with
    | none =>
      simp only [List.cons_append, stripBrackets_outside, ih]
      split
      · rfl
      · rfl
    | some span =>
      simp only [List.cons_append, stripBrackets_inside, ih]
      split
      · rfl
      split
      · simp
      · rfl

theorem stripBrackets_sublist (held text) :
    (stripBrackets held text).Sublist (held.getD [] ++ text) := by
  induction text generalizing held with
  | nil => simp [stripBrackets_nil]
  | cons c text ih =>
    cases held with
    | none =>
      rw [stripBrackets_outside]
      split
      · exact ih (some [c])
      · exact (ih none).cons_cons c
    | some span =>
      rw [stripBrackets_inside]
      split
      · exact (ih none).trans ((List.sublist_cons_self c text).trans
          (List.sublist_append_right span _))
      split
      · exact ((ih none).cons_cons c).append_left span
      · simpa using ih (some (span ++ [c]))

theorem stripBrackets_close (line : '\n' ∉ text) (close : ']' ∈ text) (span : List Char) :
    (stripBrackets (some span) text).length < span.length + text.length := by
  induction text generalizing span with
  | nil => cases close
  | cons c text ih =>
    obtain ⟨same, line⟩ := List.ne_and_not_mem_of_not_mem_cons line
    rw [stripBrackets_inside]
    split
    · have shorter := (stripBrackets_sublist none text).length_le
      simp only [Option.getD_none, List.nil_append] at shorter
      rw [List.length_cons]
      omega
    · next other =>
      rw [if_neg (Ne.symm same)]
      have shorter := ih line ((List.mem_cons.mp close).resolve_left (Ne.symm other)) (span ++ [c])
      rw [List.length_append, List.length_singleton] at shorter
      rw [List.length_cons]
      omega

/-- A pair of brackets on one line takes something away. -/
theorem stripBrackets_pair (line : '\n' ∉ text) (pair : ['[', ']'].Sublist text) :
    (stripBrackets none text).length < text.length := by
  induction text with
  | nil => cases pair
  | cons c text ih =>
    obtain ⟨same, line⟩ := List.ne_and_not_mem_of_not_mem_cons line
    rw [stripBrackets_outside]
    split
    · next first =>
      have close : ']' ∈ text := by
        cases pair with
        | cons _ later => exact later.subset (by simp)
        | cons_cons _ later => exact later.subset (by simp)
      have shorter := stripBrackets_close line close [c]
      rw [List.length_singleton, Nat.add_comm] at shorter
      exact shorter
    · next other =>
      cases pair with
      | cons _ later => exact Nat.succ_lt_succ (ih line later)
      | cons_cons _ later => exact absurd rfl other

theorem stripBrackets_unpaired (unpaired : ¬ ['[', ']'].Sublist text) :
    stripBrackets none text = text := by
  induction text with
  | nil => rfl
  | cons c text ih =>
    rw [stripBrackets_outside]
    split
    · next first =>
      have noClose : ']' ∉ text := by
        intro close
        rw [first] at unpaired
        exact unpaired ((List.singleton_sublist.mpr close).cons_cons '[')
      rw [stripBrackets_open noClose]
      rfl
    · rw [ih fun later => unpaired (later.cons c)]

/-! ### The line that is decoded -/

/-- A record between its braces. -/
def recordBody (parentPid : Int) (name : List Char) (pid startTime : Int) : List Char :=
  "\"ppid\":".toList ++ decimal parentPid ++ ",\"name\": \"".toList ++ name ++
    "\", \"pid\": ".toList ++ decimal pid ++ ", \"start_time\": ".toList ++ decimal startTime

theorem recordText_eq (parentPid : Int) (name : List Char) (pid startTime : Int) :
    recordText parentPid name pid startTime =
      '\x7b' :: (recordBody parentPid name pid startTime ++ ['\x7d', '\n']) := by
  unfold recordText recordBody
  split
  · next root =>
    have minus : decimal (-1) = ['-', '1'] := by decide
    simp [root, minus]
  · simp

theorem bracket_decimal (n : Int) : '[' ∉ decimal n ∧ ']' ∉ decimal n := by
  have digits (c : Char) (other : c.isDigit = false) : c ∉ Nat.toDigits 10 n.natAbs :=
    fun member => absurd (isDigit_of_toDigits _ c member) (by simp [other])
  unfold decimal
  split
  · simp [digits '[' rfl, digits ']' rfl]
  · exact ⟨digits '[' rfl, digits ']' rfl⟩

theorem stripBrackets_record (timestamp : Timestamp) (parentPid : Int) (name : List Char)
    (pid startTime : Int) :
    stripBrackets none (dmesgLine timestamp (recordText parentPid name pid startTime)) =
      ' ' :: recordText parentPid (stripBrackets none name) pid startTime := by
  obtain ⟨stamp, close, line⟩ := timestamp
  have before : '[' ∉ " \x7b\"ppid\":".toList ++ decimal parentPid ++ ",\"name\": \"".toList := by
    simp [(bracket_decimal parentPid).1]
  have after : ']' ∉ "\", \"pid\": ".toList ++ decimal pid ++ ", \"start_time\": ".toList ++
      decimal startTime ++ ['\x7d', '\n'] := by
    simp [(bracket_decimal pid).2, (bracket_decimal startTime).2]
  have skip := stripBrackets_span close line ['[']
    (' ' :: recordText parentPid name pid startTime)
  have start : dmesgLine stamp (recordText parentPid name pid startTime) =
      '[' :: (stamp ++ ']' :: ' ' :: recordText parentPid name pid startTime) := by
    simp [dmesgLine]
  rw [start, stripBrackets, if_pos rfl, skip, recordText_eq, recordText_eq]
  have kept := (stripBrackets_before before (name ++ _)).trans
    (congrArg _ (stripBrackets_after after none name))
  unfold recordBody
  simpa using kept

/-- A text that begins and ends with other characters is not trimmed. -/
theorem strip_kept (first : a ≠ c) (last : z ≠ c) (middle : List Char) :
    strip c (a :: (middle ++ [z])) = a :: (middle ++ [z]) := by
  rw [strip, List.dropWhile_cons_of_neg (by simpa using first), ← List.cons_append,
    List.rdropWhile_concat_neg _ _ _ (by simpa using last)]

theorem strip_record (body : List Char) :
    strip '\n' (strip ' ' (' ' :: '\x7b' :: (body ++ ['\x7d', '\n']))) =
      '\x7b' :: (body ++ ['\x7d']) := by
  have spaces : strip ' ' (' ' :: '\x7b' :: (body ++ ['\x7d', '\n'])) =
      strip ' ' ('\x7b' :: ((body ++ ['\x7d']) ++ ['\n'])) := by
    simp [strip]
  have newline : strip '\n' ('\x7b' :: ((body ++ ['\x7d']) ++ ['\n'])) =
      strip '\n' ('\x7b' :: (body ++ ['\x7d'])) := by
    have front (text : List Char) : ('\x7b' :: text).dropWhile (· = '\n') = '\x7b' :: text :=
      List.dropWhile_cons_of_neg (by simp)
    rw [strip, strip, front, front, ← List.cons_append,
      List.rdropWhile_concat_pos _ _ _ (by simp)]
  rw [spaces, strip_kept (by decide) (by decide), newline, strip_kept (by decide) (by decide)]

theorem readLine_record (timestamp : Timestamp) (parentPid : Int) (name : List Char)
    (pid startTime : Int) :
    readLine (dmesgLine timestamp (recordText parentPid name pid startTime)) =
      match loads ('\x7b' :: (recordBody parentPid (stripBrackets none name) pid startTime ++
        ['\x7d'])) with
      | some node => .ok (some node)
      | none => .error .jsonDecodeError := by
  rw [readLine, stripBrackets_record, recordText_eq, strip_record]
  rfl

/-! ### Its tokens -/

def headTokens (parentPid : Int) : List Token :=
  [.lbrace, .scalar (.str (codes "ppid".toList)), .colon, .scalar (.int parentPid), .comma,
    .scalar (.str (codes "name".toList)), .colon]

def tailTokens (pid startTime : Int) : List Token :=
  [.comma, .scalar (.str (codes "pid".toList)), .colon, .scalar (.int pid), .comma,
    .scalar (.str (codes "start_time".toList)), .colon, .scalar (.int startTime), .rbrace]

/-- What follows the name, from the quote on. -/
def recordTail (pid startTime : Int) : List Char :=
  "\", \"pid\": ".toList ++ (decimal pid ++
    ',' :: (" \"start_time\": ".toList ++ (decimal startTime ++ ['\x7d'])))

theorem lex_record (parentPid : Int) (name : List Char) (pid startTime : Int) :
    lex ('\x7b' :: (recordBody parentPid name pid startTime ++ ['\x7d'])) =
      (name.foldlM Lexer.step ⟨.string [], headTokens parentPid⟩).bind fun l =>
        ((recordTail pid startTime).foldlM Lexer.step l).bind Lexer.finish := by
  have parts : '\x7b' :: (recordBody parentPid name pid startTime ++ ['\x7d']) =
      "\x7b\"ppid\":".toList ++ (decimal parentPid ++
        ',' :: ("\"name\": \"".toList ++ (name ++ recordTail pid startTime))) := by
    unfold recordBody recordTail
    simp
  have start : "\x7b\"ppid\":".toList.foldlM Lexer.step ⟨.idle, []⟩ =
      some ⟨.idle, [.lbrace, .scalar (.str (codes "ppid".toList)), .colon]⟩ := rfl
  have key (tokens : List Token) : "\"name\": \"".toList.foldlM Lexer.step
      ⟨.idle, tokens ++ [.comma]⟩ = some ⟨.string [], tokens ++ [.comma] ++
        [.scalar (.str (codes "name".toList))] ++ [.colon]⟩ := rfl
  have comma (tokens : List Token) : startToken tokens ',' = some ⟨.idle, tokens ++ [.comma]⟩ := rfl
  rw [lex, parts, List.foldlM_append, start]
  simp only [Option.bind_eq_bind, Option.bind_some]
  rw [run_numeral parentPid ⟨rfl, rfl⟩, comma, Option.bind_some, List.foldlM_append, key]
  simp only [Option.bind_eq_bind, Option.bind_some]
  rw [List.foldlM_append]
  simp only [Option.bind_eq_bind, Option.bind_assoc]
  rfl

/-- Read from inside the name, what follows is the rest of the record. -/
theorem lex_tail (content : Codes) (tokens : List Token) (pid startTime : Int) :
    (recordTail pid startTime).foldlM Lexer.step ⟨.string content, tokens⟩ =
      some ⟨.idle, tokens ++ .scalar (.str content) :: tailTokens pid startTime⟩ := by
  have first : "\", \"pid\": ".toList.foldlM Lexer.step ⟨.string content, tokens⟩ =
      some ⟨.idle, tokens ++ [.scalar (.str content)] ++ [.comma] ++
        [.scalar (.str (codes "pid".toList))] ++ [.colon]⟩ := rfl
  have second (tokens : List Token) : " \"start_time\": ".toList.foldlM Lexer.step
      ⟨.idle, tokens⟩ = some ⟨.idle, tokens ++ [.scalar (.str (codes "start_time".toList))] ++
        [.colon]⟩ := rfl
  have comma (tokens : List Token) : startToken tokens ',' = some ⟨.idle, tokens ++ [.comma]⟩ := rfl
  have close (tokens : List Token) :
      startToken tokens '\x7d' = some ⟨.idle, tokens ++ [.rbrace]⟩ := rfl
  unfold recordTail
  rw [List.foldlM_append, first]
  simp only [Option.bind_eq_bind, Option.bind_some]
  rw [run_numeral pid ⟨rfl, rfl⟩, comma, Option.bind_some, List.foldlM_append, second]
  simp only [Option.bind_eq_bind, Option.bind_some]
  rw [run_numeral startTime ⟨rfl, rfl⟩, close, Option.bind_some]
  simp [tailTokens]

/-- The quote behind the name ends a string: otherwise it would begin or continue
one, and the next quote would end it in front of `pid`. -/
theorem tail_in_string (words : ∀ rest s, l.mode = .word rest s → '\x22' ∉ rest)
    (ran : (recordTail pid startTime).foldlM Lexer.step l = some l') :
    ∃ content, l.mode = .string content := by
  obtain ⟨mode, tokens⟩ := l
  obtain ⟨rest, same⟩ : ∃ rest, recordTail pid startTime =
      '\x22' :: ([',', ' ', '\x22', 'p'] ++ rest) := ⟨_, rfl⟩
  rw [same, List.foldlM_cons] at ran
  obtain ⟨first, ran, later⟩ := Option.bind_eq_some_iff.mp ran
  rw [List.foldlM_append] at later
  obtain ⟨between, later, -⟩ := Option.bind_eq_some_iff.mp later
  cases mode with
  | idle =>
    cases ran
    cases later
  | word rest s =>
    have quote := words rest s rfl
    simp only [Lexer.step, wordStep] at ran
    split at ran
    · cases ran
    · split at ran
      · next first => exact absurd (first ▸ List.mem_cons_self) quote
      · cases ran
    · split at ran
      · next first => exact absurd (first ▸ List.mem_cons_self) quote
      · cases ran
  | number text phase =>
    have stop : phase.next '\x22' = none := by cases phase <;> rfl
    simp only [Lexer.step, numberStep, stop] at ran
    split at ran
    · cases ran
      cases later
    · cases ran
  | string content => exact ⟨content, rfl⟩
  | escape content =>
    cases ran
    cases later
  | unicode content value more => cases ran

/-! ### Which names come back -/

/-- A node is the record of a task. -/
def Describes (node : Value) (parentPid : Int) (name : List Char) (pid startTime : Int) : Prop :=
  node.field (codes "ppid".toList) = some (.scalar (.int parentPid)) ∧
  node.field (codes "name".toList) = some (.scalar (.str (codes name))) ∧
  node.field (codes "pid".toList) = some (.scalar (.int pid)) ∧
  node.field (codes "start_time".toList) = some (.scalar (.int startTime))

/-- What `plot.py` makes of the line for a task is the record of the task. -/
def RoundTrips (timestamp : Timestamp) (parentPid : Int) (name : List Char) (pid startTime : Int) :
    Prop :=
  ∃ node, readLine (dmesgLine timestamp (recordText parentPid name pid startTime)) =
    .ok (some node) ∧ Describes node parentPid name pid startTime

/-- A name that is neither changed by stripping brackets nor by decoding. -/
def Verbatim (name : List Char) : Prop :=
  '\x22' ∉ name ∧ '\\' ∉ name ∧ ¬ ['[', ']'].Sublist name

/-- The object a record stands for. -/
def recordNode (parentPid : Int) (name : List Char) (pid startTime : Int) : Value :=
  .obj [(codes "ppid".toList, .scalar (.int parentPid)),
    (codes "name".toList, .scalar (.str (codes name))),
    (codes "pid".toList, .scalar (.int pid)),
    (codes "start_time".toList, .scalar (.int startTime))]

theorem recordNode_describes (parentPid : Int) (name : List Char) (pid startTime : Int) :
    Describes (recordNode parentPid name pid startTime) parentPid name pid startTime :=
  ⟨rfl, rfl, rfl, rfl⟩

theorem codes_injective (same : codes name = codes name') : name = name' :=
  List.map_injective_iff.mpr (fun _ _ => Char.toNat_inj.mp) same

/-- A record with a plain name is the object with its four fields. -/
theorem loads_plain (plain : ∀ c ∈ name, Plain c) (parentPid pid startTime : Int) :
    loads ('\x7b' :: (recordBody parentPid name pid startTime ++ ['\x7d'])) =
      some (recordNode parentPid name pid startTime) := by
  rw [loads, lex_record, run_plain plain, Option.bind_some, lex_tail]
  rfl

/-- Any other name decodes, if at all, to a string that is shorter or is one of
the keys. -/
theorem loads_other (other : ¬ ∀ c ∈ name, Plain c)
    (loaded : loads ('\x7b' :: (recordBody parentPid name pid startTime ++ ['\x7d'])) =
      some node)
    (found : node.field (codes "name".toList) = some (.scalar (.str s))) :
    s.length < name.length ∨
      s ∈ ["ppid", "name", "pid", "start_time"].map fun key => codes key.toList := by
  obtain ⟨tokens, lexed, parsed⟩ := Option.bind_eq_some_iff.mp loaded
  have source := parse_field parsed found
  rw [lex_record] at lexed
  obtain ⟨⟨mode, read⟩, ran, lexed⟩ := Option.bind_eq_some_iff.mp lexed
  have short := (run_string [] ran).resolve_left other
  rw [List.length_nil, Nat.zero_add] at short
  obtain ⟨last, later, finished⟩ := Option.bind_eq_some_iff.mp lexed
  obtain ⟨content, same⟩ := tail_in_string (fun rest s same => (short.words rest s same).1) later
  cases same
  rw [lex_tail] at later
  cases later
  cases finished
  have width : content.length < name.length := short.width
  obtain old | new := List.mem_append.mp source
  · refine (short.tokens s old).elim (fun known => Or.inr ?_) Or.inl
    simp [headTokens] at known
    obtain rfl | rfl := known
    · decide
    · decide
  · simp [tailTokens] at new
    obtain rfl | rfl | rfl := new
    · exact Or.inl width
    · exact Or.inr (by decide)
    · exact Or.inr (by decide)

theorem printable (name : Comm) : '\n' ∉ name.1 ∧ ∀ c ∈ name.1, 32 ≤ c.toNat := by
  obtain ⟨name, -, range⟩ := name
  refine ⟨fun member => absurd (range '\n' member).1 (by decide), fun c member => ?_⟩
  exact (range c member).1

theorem stripBrackets_mem (member : c ∈ stripBrackets none name) : c ∈ name :=
  (stripBrackets_sublist none name).subset member

/-- A stripped name with a quote or a backslash comes from one. -/
theorem stripped_plain (name : Comm) (quote : '\x22' ∉ name.1) (backslash : '\\' ∉ name.1) :
    ∀ c ∈ stripBrackets none name.1, Plain c := by
  intro c member
  have kept := stripBrackets_mem member
  refine ⟨fun same => quote (same ▸ kept), fun same => backslash (same ▸ kept), ?_⟩
  exact (printable name).2 c kept

theorem key_plain
    (key : codes name ∈ ["ppid", "name", "pid", "start_time"].map fun key => codes key.toList) :
    '\x22' ∉ name ∧ '\\' ∉ name := by
  obtain ⟨key, member, same⟩ := List.mem_map.mp key
  obtain rfl := codes_injective same
  simp only [List.mem_cons, List.not_mem_nil, or_false] at member
  obtain rfl | rfl | rfl | rfl := member
  all_goals decide

/-- A record comes back exactly when the name in it is printed as JSON prints it
and has no bracketed part. -/
theorem record_round_trips (timestamp : Timestamp) (parentPid : Int) (name : Comm)
    (pid startTime : Int) :
    RoundTrips timestamp parentPid name pid startTime ↔ Verbatim name := by
  have line := (printable name).1
  constructor
  · rintro ⟨node, read, -, named, -⟩
    rw [readLine_record] at read
    split at read
    · next loaded =>
      cases read
      by_cases plain : ∀ c ∈ stripBrackets none name.1, Plain c
      · rw [loads_plain plain] at loaded
        cases loaded
        rw [(recordNode_describes ..).2.1] at named
        have same : stripBrackets none name.1 = name.1 :=
          codes_injective (Scalar.str.inj (Value.scalar.inj (Option.some.inj named)))
        rw [same] at plain
        refine ⟨fun quote => (plain _ quote).1 rfl, fun backslash => (plain _ backslash).2.1 rfl, ?_⟩
        intro pair
        exact absurd (congrArg List.length same) (Nat.ne_of_lt (stripBrackets_pair line pair))
      · have length := (stripBrackets_sublist none name.1).length_le
        obtain shorter | key := loads_other plain loaded named
        · simp [codes] at shorter length
          omega
        · obtain ⟨clean, escape⟩ := key_plain key
          exact absurd (stripped_plain name clean escape) plain
    · cases read
  · rintro ⟨quote, backslash, unpaired⟩
    have plain := stripped_plain name quote backslash
    have same := stripBrackets_unpaired unpaired
    refine ⟨recordNode parentPid name pid startTime, ?_, recordNode_describes ..⟩
    rw [readLine_record, loads_plain plain, same]

theorem quoted_name_allowed : ("a\"b".toList).length ≤ 15 ∧
    ∀ c ∈ "a\"b".toList, ' ' ≤ c ∧ c ≤ '~' := by simp

/-- `plot.py` stops at the record of a program that calls itself `a"b`. -/
theorem quoted_name_stops_reading :
    let name : Comm := ⟨"a\"b".toList, quoted_name_allowed⟩
    ¬ RoundTrips ⟨"12.5".toList, by decide⟩ 1 name 2 3 := by
  rintro name ⟨node, read, -⟩
  have failed : lex ('\x7b' :: (recordBody 1 (stripBrackets none name) 2 3 ++ ['\x7d'])) = none := by
    decide
  rw [readLine_record, loads, failed] at read
  cases read

/-! ### The whole file -/

/-- A task as it is shown. -/
structure Entry where
  timestamp : Timestamp
  parentPid : Int
  name : Comm
  pid : Int
  startTime : Int

def Entry.line (e : Entry) : List Char :=
  dmesgLine e.timestamp (recordText e.parentPid e.name e.pid e.startTime)

def Entry.node (e : Entry) : Value := recordNode e.parentPid e.name e.pid e.startTime

theorem readLine_entry (e : Entry) (verbatim : Verbatim e.name) :
    readLine e.line = .ok (some e.node) := by
  obtain ⟨quote, backslash, unpaired⟩ := verbatim
  rw [Entry.line, readLine_record, loads_plain (stripped_plain e.name quote backslash),
    stripBrackets_unpaired unpaired]
  rfl

end Comp304.Psvis
