import Comp304.Shell.Scanning

/-! What a stage of a pipeline says: a name, arguments, and redirections written
as a lone operator in front of a file name. The parser's progress over the words
of a stage is what these items add up to. -/
namespace Comp304.Shell
open Library Library.CString Library.Budget

/-- What follows the name of a stage. Redirections 0, 1 and 2 are `<`, `>` and `>>`. -/
inductive Item where
  | argument (word : List Char)
  | redirection (kind : Fin 3) (file : List Char)
  deriving DecidableEq, Repr

def operatorText : Fin 3 → List Char
  | 0 => ['<']
  | 1 => ['>']
  | 2 => ['>', '>']

def Item.words : Item → List (List Char)
  | argument word => [word]
  | redirection kind file => [operatorText kind, file]

/-- An argument is not taken for an operator. -/
def Item.Plain : Item → Prop
  | argument word => operator word = none
  | redirection _ _ => True

/-- The arguments that are passed on: `&` is dropped and quotes are taken off. -/
def passed (items : List Item) : List Stored :=
  items.filterMap fun
    | .argument word => if word = ['&'] then none else some (unquote word)
    | .redirection _ _ => none

def arguments (items : List Item) : List (List Char) := (passed items).map Stored.text

def kinds (items : List Item) : List (Fin 3) :=
  items.filterMap fun
    | .argument _ => none
    | .redirection kind _ => some kind

/-- The files of the redirections of one kind. -/
def files (items : List Item) (kind : Fin 3) : List (List Char) :=
  items.filterMap fun
    | .argument _ => none
    | .redirection k file => if k = kind then some file else none

/-- The array that holds these arguments. It is allocated with one cell. -/
def vector (unset : Nat → Option Stored) : List Stored → List (Option Stored)
  | [] => [unset 0]
  | args => args.map some

/-- The progress of a stage that has come to these items. -/
def progressOf (command : Contents) (items : List Item) : Progress where
  args := vector command.unset (passed items)
  argIndex := (passed items).length
  unset := command.unset
  redirectIndex := none
  redirectionOrder := (kinds items).length
  redirects := fun k =>
    if k ∈ kinds items then .text ⟨1, (operatorText k).tail⟩ else .word (command.redirects k)
  redirectFiles := fun k =>
    match (files items k).getLast? with
    | some file => .text ⟨file.length, file⟩
    | none => .word (command.redirectFiles k)
  redirectIdxs := fun i =>
    match (kinds items)[i.val]? with
    | some k => k
    | none => -1
  next := .inl command.next

theorem progressOf_nil (command : Contents) : progressOf command [] = .start command := rfl

theorem mem_kinds_iff (k : Fin 3) : k ∈ kinds items ↔ files items k ≠ [] := by
  simp only [kinds, files, List.mem_filterMap, ne_eq, List.filterMap_eq_nil_iff, not_forall]
  constructor
  · rintro ⟨item, member, same⟩
    refine ⟨item, member, ?_⟩
    cases item with
    | argument word => cases same
    | redirection kind file =>
      cases same
      simp
  · rintro ⟨item, member, some⟩
    refine ⟨item, member, ?_⟩
    cases item with
    | argument word => exact absurd rfl some
    | redirection kind file =>
      by_cases same : kind = k
      · exact congrArg Option.some same
      · exact absurd (if_neg same) some

theorem kinds_append (items rest : List Item) : kinds (items ++ rest) = kinds items ++ kinds rest :=
  List.filterMap_append ..

theorem files_append (items rest : List Item) (k : Fin 3) :
    files (items ++ rest) k = files items k ++ files rest k := List.filterMap_append ..

theorem passed_append (items rest : List Item) :
    passed (items ++ rest) = passed items ++ passed rest := List.filterMap_append ..

theorem resize_vector (unset : Nat → Option Stored) (args : List Stored) :
    Cells.resize unset args.length (vector unset args) = args.map some := by
  cases args with
  | nil => rfl
  | cons arg args =>
    have size : (arg :: args).length = (vector unset (arg :: args)).length := by simp [vector]
    rw [size, Cells.resize_length]
    rfl

theorem vector_concat (unset : Nat → Option Stored) (args : List Stored) (arg : Stored) :
    vector unset (args ++ [arg]) = args.map some ++ [some arg] := by
  cases args with
  | nil => rfl
  | cons first args => simp [vector]

theorem held_progressOf (command : Contents) (items : List Item) :
    (progressOf command items).held = (passed items).map some := resize_vector ..

theorem argv_staged (command : Contents) (items : List Item) (name : List Char) :
    ((progressOf command items).staged (stored name)).argv =
      some name :: (arguments items).map some ++ [none] := by
  simp [Stage.argv, Progress.staged, held_progressOf, arguments, stored]

/-- A stage without redirections. -/
theorem passed_map (ws : List (List Char)) :
    passed (ws.map .argument) = (ws.filter (· ≠ ['&'])).map unquote := by
  rw [passed, List.filterMap_map]
  induction ws with
  | nil => rfl
  | cons w ws ih =>
    rw [List.filterMap_cons, List.filter_cons, ih]
    by_cases background : w = ['&']
    · simp [background]
    · simp [background]

theorem kinds_map (ws : List (List Char)) : kinds (ws.map .argument) = [] := by
  simp [kinds, List.filterMap_map]

theorem operator_operatorText (k : Fin 3) : operator (operatorText k) = some (k, 1) := by
  match k with
  | 0 => rfl
  | 1 => rfl
  | 2 => rfl

theorem trim_operatorText (k : Fin 3) : trim (operatorText k) = operatorText k := by
  match k with
  | 0 => rfl
  | 1 => rfl
  | 2 => rfl

theorem operatorText_other (k : Fin 3) : ¬ (operatorText k = [] ∨ operatorText k = ['&']) := by
  match k with
  | 0 => decide
  | 1 => decide
  | 2 => decide

section
variable {command : Contents} {items rest : List Item}

theorem progressOf_argument (command : Contents) (items : List Item) (word : List Char) :
    progressOf command (items ++ [.argument word]) =
      if word = ['&'] then progressOf command items
      else (progressOf command items).passed (unquote word) := by
  split
  · next background =>
    simp [progressOf, kinds, files, passed, background]
  · next other =>
    have own : passed [.argument word] = [unquote word] := by simp [passed, other]
    simp only [Progress.passed, held_progressOf]
    simp [progressOf, passed_append, own, vector_concat, kinds, files]

theorem take_argument (plain : operator word = none) (trimmed : trim word = word)
    (nonempty : word ≠ []) :
    (progressOf command items).take word =
      .ok (progressOf command (items ++ [.argument word])) := by
  rw [progressOf_argument]
  exact take_word rfl trimmed nonempty plain

theorem redirectIdxs_record (few : (kinds items).length < 3) (k : Fin 3) (file : List Char) :
    Function.update (progressOf command items).redirectIdxs ⟨(kinds items).length, few⟩ (k : Int) =
      (progressOf command (items ++ [.redirection k file])).redirectIdxs := by
  funext i
  have new : kinds [.redirection k file] = [k] := rfl
  simp only [progressOf, kinds_append, new]
  by_cases same : i = ⟨(kinds items).length, few⟩
  · subst same
    simp
  · rw [Function.update_of_ne same]
    have apart : i.val ≠ (kinds items).length := fun equal => same (Fin.ext equal)
    obtain before | behind := Nat.lt_or_gt_of_ne apart
    · rw [List.getElem?_append_left before]
    · rw [List.getElem?_eq_none (by omega), List.getElem?_eq_none (by simp; omega)]

theorem redirects_record (k : Fin 3) (file : List Char) :
    Function.update (progressOf command items).redirects k (.text ⟨1, (operatorText k).tail⟩) =
      (progressOf command (items ++ [.redirection k file])).redirects := by
  funext i
  have new : kinds [.redirection k file] = [k] := rfl
  simp only [progressOf, kinds_append, new]
  by_cases same : i = k
  · subst same
    simp
  · simp [same]

theorem redirectFiles_record (k : Fin 3) (file : List Char) :
    Function.update (progressOf command items).redirectFiles k (.text ⟨file.length, file⟩) =
      (progressOf command (items ++ [.redirection k file])).redirectFiles := by
  funext i
  simp only [progressOf, files_append]
  by_cases same : i = k
  · subst same
    simp [files]
  · simp [Function.update_of_ne same, files, Ne.symm same]

theorem take_redirection (few : (kinds items).length < 3) (k : Fin 3) (file : List Char) :
    [operatorText k, file].foldlM Progress.take (progressOf command items) =
      .ok (progressOf command (items ++ [.redirection k file])) := by
  have between : (progressOf command items).redirectIndex = none := rfl
  have order : (progressOf command items).redirectionOrder = (kinds items).length := rfl
  have inside : (progressOf command items).redirectionOrder < 3 := few
  have first : (progressOf command items).take (operatorText k) =
      (progressOf command items).redirect k 1 (operatorText k) := by
    simp only [Progress.take, between, trim_operatorText, Progress.takeArg,
      if_neg (operatorText_other k), operator_operatorText]
  have args : passed (items ++ [.redirection k file]) = passed items := by
    rw [passed_append]
    exact List.append_nil _
  have count : (kinds (items ++ [.redirection k file])).length = (kinds items).length + 1 := by
    rw [kinds_append, List.length_append]
    rfl
  rw [List.foldlM_cons, first, Progress.redirect, dif_pos inside, ok_bind, List.foldlM_cons]
  simp only [Progress.take, Progress.takeFile, ok_bind, List.foldlM_nil]
  refine congrArg Except.ok ?_
  rw [Progress.mk.injEq]
  refine ⟨congrArg (vector command.unset) args.symm, congrArg List.length args.symm, rfl, rfl,
    count.symm, redirects_record k file, redirectFiles_record k file,
    redirectIdxs_record few k file, rfl⟩

theorem take_items (plain : ∀ item ∈ rest, item.Plain)
    (trimmed : ∀ w ∈ rest.flatMap Item.words, trim w = w ∧ w ≠ [])
    (few : (kinds (items ++ rest)).length ≤ 3) :
    (rest.flatMap Item.words).foldlM Progress.take (progressOf command items) =
      .ok (progressOf command (items ++ rest)) := by
  induction rest generalizing items with
  | nil =>
    rw [List.append_nil]
    rfl
  | cons item rest ih =>
    obtain ⟨plainI, plain⟩ := List.forall_mem_cons.mp plain
    rw [List.append_cons] at few ⊢
    rw [List.flatMap_cons] at trimmed ⊢
    obtain ⟨trimmedI, trimmed⟩ := List.forall_mem_append.mp trimmed
    have step : item.words.foldlM Progress.take (progressOf command items) =
        .ok (progressOf command (items ++ [item])) := by
      cases item with
      | argument word =>
        obtain ⟨same, nonempty⟩ := trimmedI word List.mem_cons_self
        rw [Item.words, List.foldlM_cons, take_argument plainI same nonempty]
        rfl
      | redirection kind file =>
        apply take_redirection
        simp only [kinds_append, List.length_append] at few
        exact Nat.lt_of_lt_of_le (Nat.lt_succ_self _) (Nat.le_trans (Nat.le_add_right _ _) few)
    rw [List.foldlM_append, step, ok_bind]
    exact ih plain trimmed few

end

/-- The text of one stage, with what it says. -/
structure StageText where
  text : List Char
  name : List Char
  items : List Item
  whole : nul ∉ text
  spelled : words splitters text = name :: items.flatMap Item.words
  noBar : ['|'] ∉ words splitters text
  short : ∀ w ∈ words splitters text, w.length ≤ 1023
  plain : ∀ item ∈ items, item.Plain
  few : (kinds items).length ≤ 3

/-- The members that the stage gets in a struct with these contents. -/
def StageText.stage (s : StageText) (command : Contents) : Stage :=
  (progressOf command s.items).staged (stored s.name)

/-- The progress over the words of a stage. -/
theorem StageText.take_words (s : StageText) (command : Contents) :
    (s.items.flatMap Item.words).foldlM Progress.take (.start command) =
      .ok (progressOf command s.items) := by
  rw [← progressOf_nil]
  refine take_items s.plain (fun w member => ?_) s.few
  have listed : w ∈ words splitters s.text := by
    rw [s.spelled]
    exact List.mem_cons_of_mem _ member
  exact trim_of_mem s.whole listed

/-- A stage alone in a struct with any contents. -/
theorem StageText.parseLine_stage (s : StageText) (fresh : Nat → Contents) (command : Contents)
    (after : List Char) :
    ∃ c, parseLine fresh command s.text after = .ok c ∧ c.next = .inl command.next ∧
      c.stage = s.stage command := by
  have parsed := parseLine_words fresh command after s.whole
    (fun member => s.noBar (List.mem_of_mem_tail member)) s.short
  rw [s.spelled, List.tail_cons, s.take_words, ok_bind] at parsed
  exact ⟨_, parsed, rfl, rfl⟩

/-- The slots that the stage does not set are zero. -/
def StageText.Covers (s : StageText) (command : Contents) : Prop :=
  ∀ k, k ∉ kinds s.items → command.redirects k = 0 ∧ command.redirectFiles k = 0

theorem StageText.stage_eq_iff (s : StageText) (command : Contents) :
    s.stage command = s.stage zeroed ↔ s.Covers command := by
  constructor
  · intro same k unset
    have word := congrFun (congrArg Stage.redirects same) k
    have fileWord := congrFun (congrArg Stage.redirectFiles same) k
    have none : files s.items k = [] := not_not.mp fun some => unset ((mem_kinds_iff k).mpr some)
    simp only [stage, Progress.staged, progressOf, if_neg unset, none, List.getLast?_nil] at word fileWord
    exact ⟨Slot.word.inj word, Slot.word.inj fileWord⟩
  · intro covers
    have held : (progressOf command s.items).held = (progressOf zeroed s.items).held := by
      rw [held_progressOf, held_progressOf]
    simp only [stage, Progress.staged, held]
    simp only [progressOf, Stage.mk.injEq, true_and, and_true]
    constructor
    · funext k
      split
      · rfl
      · next unset => exact congrArg Slot.word (covers k unset).1
    · funext k
      cases last : (files s.items k).getLast? with
      | some file => rfl
      | none =>
        have none : files s.items k = [] := List.getLast?_eq_none_iff.mp last
        exact congrArg Slot.word (covers k fun set => (mem_kinds_iff k).mp set none).2

end Comp304.Shell
