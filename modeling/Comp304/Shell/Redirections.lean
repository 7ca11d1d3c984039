import Comp304.Shell.Stages

/-! Redirections in the two spellings. The parser takes the word behind an operator
for the file name, also when the operator's own word goes on with it, so an
attached name is lost and the next word with it. -/
namespace Comp304.Shell
open Library Library.CString Library.Budget

/-- What follows the name of a command, as it is written: a file name is attached to
its operator or a word of its own. -/
inductive Spelled where
  | argument (word : List Char)
  | redirection (attached : Bool) (kind : Fin 3) (file : List Char)
  deriving DecidableEq, Repr

def Spelled.words : Spelled → List (List Char)
  | argument word => [word]
  | redirection true kind file => [operatorText kind ++ file]
  | redirection false kind file => [operatorText kind, file]

/-- What it says. -/
def Spelled.item : Spelled → Item
  | argument word => .argument word
  | redirection _ kind file => .redirection kind file

/-- No argument and no file name is taken for an operator. -/
def Spelled.Plain : Spelled → Prop
  | argument word => operator word = none
  | redirection _ _ file => file ≠ [] ∧ operator file = none

/-- A line without bars. -/
structure RedirectedText where
  text : List Char
  items : List Spelled
  whole : nul ∉ text
  noBar : '|' ∉ text
  spelled : (words splitters text).tail = items.flatMap Spelled.words
  short : ∀ w ∈ words splitters text, w.length ≤ 1023
  plain : ∀ item ∈ items, item.Plain
  few : (kinds (items.map Spelled.item)).length ≤ 3

namespace RedirectedText

def name (s : RedirectedText) : List Char := (words splitters s.text).headD []

def said (s : RedirectedText) : List Item := s.items.map Spelled.item

/-- What the struct is to hold for the line: the last file for each kind of redirection
that is used, the kinds in order, and the other words. -/
structure Records (s : RedirectedText) (c : Command) : Prop where
  name : c.stage.name.text = s.name
  args : c.stage.argv = some s.name :: (arguments s.said).map some ++ [none]
  files : ∀ k ∈ kinds s.said, ∃ room file, (files s.said k).getLast? = some file ∧
    c.stage.redirectFiles k = .text ⟨room, file⟩
  idxs : ∀ i : Fin 3, c.stage.redirectIdxs i =
    match (kinds s.said)[i.val]? with
    | some k => k
    | none => -1

/-- The line is parsed to what it says, which is what it is parsed to when all file
names are words of their own. -/
def Recorded (s : RedirectedText) (fresh : Nat → Contents) (command : Contents)
    (after : List Char) : Prop :=
  ∃ c, parseLine fresh command s.text after = .ok c ∧ s.Records c ∧
    ∀ d : StageText, d.name = s.name → d.items = s.said →
      ∃ c', parseLine fresh command d.text after = .ok c' ∧ c'.stage = c.stage

/-- Every operator with its file name attached is followed by a lone `&`, which is taken
for the file, and later by another operator of its kind. -/
def Overridden (s : RedirectedText) : Prop :=
  ∀ before kind file after, s.items = before ++ .redirection true kind file :: after →
    (∃ rest, after = .argument ['&'] :: rest) ∧
      ∃ attached other, .redirection attached kind other ∈ after

end RedirectedText

/-! ### One word -/

section
variable {pr pr' : Progress} {w : List Char} {k : Fin 3} {file : List Char}

theorem operator_output (rest : List Char) : operator ('>' :: rest) ≠ none := by
  unfold operator
  split <;> simp_all

theorem operator_spelled (plain : operator file = none) (k : Fin 3) :
    operator (operatorText k ++ file) = some (k, file.length + 1) := by
  match k with
  | 0 => rfl
  | 1 =>
    have single : operatorText 1 ++ file = '>' :: file := rfl
    rw [single]
    unfold operator
    split
    · next same => cases same
    · next rest same =>
      obtain ⟨-, rfl⟩ := List.cons.inj same
      exact absurd plain (operator_output rest)
    · next same => rw [(List.cons.inj same).2]
    · next other => exact absurd rfl (other file)
  | 2 => rfl

theorem take_two (pr : Progress) (v w : List Char) :
    [v, w].foldlM Progress.take pr = pr.take v >>= fun pr => pr.take w := by
  simp only [List.foldlM_cons, List.foldlM_nil, bind_pure]

theorem take_one (pr : Progress) (w : List Char) : [w].foldlM Progress.take pr = pr.take w := by
  simp only [List.foldlM_cons, List.foldlM_nil, bind_pure]

/-! ### How much is recorded -/

/-- Each redirection counts twice and each argument once. -/
def Progress.weight (pr : Progress) : Nat := 2 * pr.redirectionOrder + pr.argIndex

/-- What the items are to count. -/
def due (items : List Spelled) : Nat :=
  2 * (kinds (items.map Spelled.item)).length + (passed (items.map Spelled.item)).length

/-- Every attached file name is followed by a lone `&`. -/
inductive Covered : List Spelled → Prop
  | nil : Covered []
  | argument (word : List Char) (rest : Covered items) : Covered (.argument word :: items)
  | detached (kind : Fin 3) (file : List Char) (rest : Covered items) :
      Covered (.redirection false kind file :: items)
  | attached (kind : Fin 3) (file : List Char) (rest : Covered items) :
      Covered (.redirection true kind file :: .argument ['&'] :: items)

theorem due_argument (word : List Char) (items : List Spelled) :
    due (.argument word :: items) = (if word = ['&'] then 0 else 1) + due items := by
  by_cases background : word = ['&']
  · simp [due, Spelled.item, kinds, passed, background]
  · simp only [due, List.map_cons, Spelled.item, kinds, passed, List.filterMap_cons, background,
      if_false, List.length_cons]
    omega

theorem due_redirection (attached : Bool) (k : Fin 3) (file : List Char) (items : List Spelled) :
    due (.redirection attached k file :: items) = 2 + due items := by
  simp only [due, List.map_cons, Spelled.item, kinds, passed, List.filterMap_cons, List.length_cons]
  omega

theorem redirect_ok (ran : pr.redirect k len w = .ok pr') :
    pr'.weight = pr.weight + 2 ∧ pr'.redirectIndex = some k := by
  rw [Progress.redirect] at ran
  split at ran
  · cases ran
    simp only [Progress.weight, and_true]
    omega
  · cases ran

theorem take_word_weight (between : pr.redirectIndex = none) (trimmed : trim w = w)
    (nonempty : w ≠ []) (plain : operator w = none) (ran : pr.take w = .ok pr') :
    pr'.weight = pr.weight + (if w = ['&'] then 0 else 1) ∧ pr'.redirectIndex = none := by
  rw [take_word between trimmed nonempty plain] at ran
  cases ran
  split
  · exact ⟨rfl, between⟩
  · exact ⟨rfl, between⟩

/-- An operator and the word behind it. -/
theorem take_pair (between : pr.redirectIndex = none) (trimmed : trim w = w)
    (found : Shell.operator w = some (k, len)) (v : List Char) :
    [w, v].foldlM Progress.take pr = pr.redirect k len w >>= fun pr => .ok (pr.takeFile k v) := by
  rw [take_two, take_operator between trimmed found]
  cases ran : pr.redirect k len w with
  | error stop => rfl
  | ok pr' => exact take_file (redirect_ok ran).2 v

/-- An item behind another one. -/
theorem take_item (items : List Spelled) (between : pr.redirectIndex = none) {item : Spelled}
    (plain : item.Plain)
    (trimmed : ∀ w ∈ item.words, trim w = w ∧ w ≠ [])
    (ran : item.words.foldlM Progress.take pr = .ok pr') :
    pr'.weight + due items = pr.weight + due (item :: items) ∧
      ((∃ kind file, item = .redirection true kind file ∧ pr'.redirectIndex = some kind) ∨
        pr'.redirectIndex = none ∧ ∀ items, Covered items → Covered (item :: items)) := by
  cases item with
  | argument word =>
    obtain ⟨same, nonempty⟩ := trimmed word List.mem_cons_self
    rw [Spelled.words, take_one] at ran
    obtain ⟨weight, none⟩ := take_word_weight between same nonempty plain ran
    rw [due_argument, weight]
    exact ⟨by omega, Or.inr ⟨none, fun items => .argument word⟩⟩
  | redirection attached kind file =>
    rw [due_redirection]
    cases attached with
    | true =>
      obtain ⟨same, -⟩ := trimmed _ List.mem_cons_self
      rw [Spelled.words, take_one, take_operator between same (operator_spelled plain.2 kind)] at ran
      obtain ⟨weight, pending⟩ := redirect_ok ran
      exact ⟨by omega, Or.inl ⟨kind, file, rfl, pending⟩⟩
    | false =>
      rw [Spelled.words, take_pair between (trim_operatorText kind) (operator_operatorText kind)] at ran
      obtain ⟨pr₁, first, last⟩ := bind_eq_ok.mp ran
      cases last
      obtain ⟨weight, -⟩ := redirect_ok first
      refine ⟨?_, Or.inr ⟨rfl, fun items => .detached kind file⟩⟩
      have same : (pr₁.takeFile kind file).weight = pr₁.weight := rfl
      omega

/-- An item of which the first word is taken for a file. -/
theorem take_item_pending (items : List Spelled) (pending : pr.redirectIndex = some k)
    {item : Spelled} (plain : item.Plain)
    (trimmed : ∀ w ∈ item.words, trim w = w ∧ w ≠ [])
    (ran : item.words.foldlM Progress.take pr = .ok pr') :
    pr'.redirectIndex = none ∧ (item = .argument ['&'] ∧ pr'.weight = pr.weight ∨
      pr'.weight + due items < pr.weight + due (item :: items)) := by
  have skipped (w : List Char) : (pr.takeFile k w).weight = pr.weight := rfl
  cases item with
  | argument word =>
    rw [Spelled.words, take_one, take_file pending] at ran
    cases ran
    refine ⟨rfl, ?_⟩
    by_cases background : word = ['&']
    · exact Or.inl ⟨congrArg Spelled.argument background, rfl⟩
    · rw [skipped, due_argument, if_neg background]
      exact Or.inr (by omega)
  | redirection attached kind file =>
    rw [due_redirection]
    cases attached with
    | true =>
      rw [Spelled.words, take_one, take_file pending] at ran
      cases ran
      rw [skipped]
      exact ⟨rfl, Or.inr (by omega)⟩
    | false =>
      obtain ⟨same, nonempty⟩ := trimmed file (List.mem_cons_of_mem _ List.mem_cons_self)
      rw [Spelled.words, take_two, take_file pending, ok_bind] at ran
      obtain ⟨weight, none⟩ := take_word_weight rfl same nonempty plain.2 ran
      refine ⟨none, Or.inr ?_⟩
      rw [weight, skipped]
      split <;> omega

/-- Less is recorded than is due, unless every attached file name is followed by `&`.
With an operator pending, the first word is taken for the file. -/
theorem weight_le {items : List Spelled} (plain : ∀ item ∈ items, item.Plain)
    (trimmed : ∀ w ∈ items.flatMap Spelled.words, trim w = w ∧ w ≠ [])
    (ran : (items.flatMap Spelled.words).foldlM Progress.take pr = .ok pr')
    (done : pr'.redirectIndex = none) : pr'.weight ≤ pr.weight + due items ∧
      (pr.redirectIndex = none → pr'.weight = pr.weight + due items → Covered items) ∧
      (∀ k, pr.redirectIndex = some k → pr'.weight = pr.weight + due items →
        ∃ rest, items = .argument ['&'] :: rest ∧ Covered rest) := by
  induction items generalizing pr with
  | nil =>
    cases ran
    refine ⟨Nat.le_refl _, fun _ _ => .nil, fun k pending => ?_⟩
    rw [done] at pending
    cases pending
  | cons item items ih =>
    obtain ⟨plainI, plain⟩ := List.forall_mem_cons.mp plain
    rw [List.flatMap_cons, List.forall_mem_append] at trimmed
    obtain ⟨trimmedI, trimmed⟩ := trimmed
    rw [List.flatMap_cons, List.foldlM_append] at ran
    obtain ⟨pr₁, first, ran⟩ := bind_eq_ok.mp ran
    obtain ⟨bound, free, behind⟩ := ih plain trimmed ran
    cases between : pr.redirectIndex with
    | none =>
      obtain ⟨weight, next⟩ := take_item items between plainI trimmedI first
      refine ⟨by omega, fun _ equal => ?_, nofun⟩
      obtain ⟨kind, file, rfl, pending⟩ | ⟨none, covers⟩ := next
      · obtain ⟨rest, rfl, covered⟩ := behind kind pending (by omega)
        exact .attached kind file covered
      · exact covers items (free none (by omega))
    | some k =>
      obtain ⟨none, lone | less⟩ := take_item_pending items between plainI trimmedI first
      · obtain ⟨rfl, weight⟩ := lone
        rw [due_argument, if_pos rfl]
        refine ⟨by omega, nofun, fun _ _ equal => ⟨items, rfl, free none (by omega)⟩⟩
      · exact ⟨by omega, nofun, fun _ _ equal => absurd equal (by omega)⟩

/-! ### What is recorded -/

/-- How the redirections of one kind are spelled. -/
def spellings (items : List Spelled) (k : Fin 3) : List Bool :=
  items.filterMap fun
    | .argument _ => none
    | .redirection attached kind _ => if kind = k then some attached else none

/-- The progress of the detached spelling, but for the kinds of which the last file
name was attached. -/
structure Agrees (command : Contents) (items : List Spelled) (pr : Progress) : Prop where
  args : pr.args = (progressOf command (items.map Spelled.item)).args
  argIndex : pr.argIndex = (progressOf command (items.map Spelled.item)).argIndex
  unset : pr.unset = command.unset
  between : pr.redirectIndex = none
  order : pr.redirectionOrder = (kinds (items.map Spelled.item)).length
  idxs : pr.redirectIdxs = (progressOf command (items.map Spelled.item)).redirectIdxs
  next : pr.next = .inl command.next
  detached : ∀ i, (spellings items i).getLast? ≠ some true →
    pr.redirects i = (progressOf command (items.map Spelled.item)).redirects i ∧
      pr.redirectFiles i = (progressOf command (items.map Spelled.item)).redirectFiles i
  attached : ∀ i, (spellings items i).getLast? = some true →
    ∃ stored, pr.redirects i = .text stored ∧ 2 ≤ stored.room

theorem agrees_start (command : Contents) : Agrees command [] (.start command) where
  args := rfl
  argIndex := rfl
  unset := rfl
  between := rfl
  order := rfl
  idxs := rfl
  next := rfl
  detached _ _ := ⟨rfl, rfl⟩
  attached _ := nofun

variable {command : Contents} {items : List Spelled}

theorem spellings_append (items rest : List Spelled) (k : Fin 3) :
    spellings (items ++ rest) k = spellings items k ++ spellings rest k := List.filterMap_append

theorem Agrees.word (agrees : Agrees command items pr) (trimmed : trim w = w) (nonempty : w ≠ [])
    (plain : operator w = none) :
    ∃ pr', pr.take w = .ok pr' ∧ Agrees command (items ++ [.argument w]) pr' := by
  have said : (items ++ [Spelled.argument w]).map Spelled.item =
      items.map Spelled.item ++ [.argument w] := List.map_append
  have held : pr.held = (progressOf command (items.map Spelled.item)).held := by
    rw [Progress.held, agrees.args, agrees.argIndex, agrees.unset]
    rfl
  refine ⟨_, take_word agrees.between trimmed nonempty plain, ?_⟩
  have silent (k : Fin 3) : spellings (items ++ [.argument w]) k = spellings items k := by
    rw [spellings_append]
    exact List.append_nil _
  have order : pr.redirectionOrder =
      (kinds ((items ++ [Spelled.argument w]).map Spelled.item)).length := by
    rw [said, kinds_append, agrees.order]
    exact congrArg List.length (List.append_nil _).symm
  have next := progressOf_argument command (items.map Spelled.item) w
  rw [← said] at next
  split
  · next background =>
    rw [if_pos background] at next
    exact ⟨next ▸ agrees.args, next ▸ agrees.argIndex, agrees.unset, agrees.between, order,
      next ▸ agrees.idxs, agrees.next, fun i other => next ▸ agrees.detached i (silent i ▸ other),
      fun i last => agrees.attached i (silent i ▸ last)⟩
  · next other =>
    rw [if_neg other] at next
    refine ⟨?_, ?_, agrees.unset, agrees.between, order, next ▸ agrees.idxs, agrees.next,
      fun i other => next ▸ agrees.detached i (silent i ▸ other),
      fun i last => agrees.attached i (silent i ▸ last)⟩
    · rw [next, Progress.passed, Progress.passed, held]
    · rw [next, Progress.passed, Progress.passed, agrees.argIndex]

/-- An operator with what is stored for it, and the word taken for the file. -/
theorem Agrees.operator (agrees : Agrees command items pr)
    (few : (kinds (items.map Spelled.item)).length < 3) (attached : Bool) (k : Fin 3)
    (file taken : List Char) (len : Nat)
    (exact : attached = false → (⟨len, w.tail⟩ : Stored) = ⟨1, (operatorText k).tail⟩ ∧ taken = file)
    (wide : attached = true → 2 ≤ len) :
    ∃ pr', pr.redirect k len w = .ok pr' ∧
      Agrees command (items ++ [.redirection attached k file]) (pr'.takeFile k taken) := by
  have said : (items ++ [Spelled.redirection attached k file]).map Spelled.item =
      items.map Spelled.item ++ [.redirection k file] := List.map_append
  have inside : pr.redirectionOrder < 3 := agrees.order ▸ few
  have ran : pr.redirect k len w = .ok _ := dif_pos inside
  have own : (spellings (items ++ [.redirection attached k file]) k).getLast? = some attached := by
    simp [spellings]
  have other (i : Fin 3) (differs : i ≠ k) :
      spellings (items ++ [.redirection attached k file]) i = spellings items i := by
    simp [spellings, Ne.symm differs]
  have none : passed (items.map Spelled.item ++ [.redirection k file]) =
      passed (items.map Spelled.item) := by
    rw [passed_append]
    exact List.append_nil _
  refine ⟨_, ran, ?_, ?_, agrees.unset, rfl, ?_, ?_, agrees.next, fun i last => ?_, fun i last => ?_⟩
  · rw [said, progressOf, none]
    exact agrees.args
  · rw [said, progressOf, none]
    exact agrees.argIndex
  · rw [said, kinds_append, List.length_append]
    exact congrArg (· + 1) agrees.order
  · have position : (⟨pr.redirectionOrder, inside⟩ : Fin 3) =
      ⟨(kinds (items.map Spelled.item)).length, few⟩ := Fin.ext agrees.order
    rw [said, ← redirectIdxs_record few k file, ← agrees.idxs, ← position]
    rfl
  · rw [said, ← redirects_record k file, ← redirectFiles_record k file]
    by_cases here : i = k
    · subst here
      have spelled : attached = false := by simpa [own] using last
      obtain ⟨stored, rfl⟩ := exact spelled
      simp [Progress.takeFile, stored]
    · obtain ⟨redirects, files⟩ := agrees.detached i (other i here ▸ last)
      simp [Progress.takeFile, here, redirects, files]
  · by_cases here : i = k
    · subst here
      have spelled : attached = true := by simpa [own] using last
      exact ⟨⟨len, w.tail⟩, Function.update_self .., wide spelled⟩
    · obtain ⟨stored, redirects, room⟩ := agrees.attached i (other i here ▸ last)
      exact ⟨stored, (Function.update_of_ne here ..).trans redirects, room⟩

/-- A lone `&` changes nothing. -/
theorem Agrees.background (agrees : Agrees command items pr) :
    Agrees command (items ++ [.argument ['&']]) pr := by
  have trimmed : trim ['&'] = ['&'] := by decide
  obtain ⟨pr', ran, next⟩ := agrees.word trimmed (List.cons_ne_nil _ _) rfl
  rw [take_word agrees.between trimmed (List.cons_ne_nil _ _) rfl] at ran
  cases ran
  exact next

theorem kinds_lt {rest : List Spelled} (few :
    (kinds ((items ++ Spelled.redirection attached k file :: rest).map Spelled.item)).length ≤ 3) :
    (kinds (items.map Spelled.item)).length < 3 := by
  rw [List.map_append, kinds_append, List.length_append] at few
  have one : 1 ≤ (kinds ((Spelled.redirection attached k file :: rest).map Spelled.item)).length := by
    simp [kinds, Spelled.item]
  omega

theorem Covered.run (covered : Covered rest) (agrees : Agrees command items pr)
    (plain : ∀ item ∈ rest, item.Plain)
    (trimmed : ∀ w ∈ rest.flatMap Spelled.words, trim w = w ∧ w ≠ [])
    (few : (kinds ((items ++ rest).map Spelled.item)).length ≤ 3) :
    ∃ pr', (rest.flatMap Spelled.words).foldlM Progress.take pr = .ok pr' ∧
      Agrees command (items ++ rest) pr' := by
  induction covered generalizing items pr with
  | nil =>
    rw [List.append_nil]
    exact ⟨pr, rfl, agrees⟩
  | argument word later ih =>
    obtain ⟨plainI, plain⟩ := List.forall_mem_cons.mp plain
    obtain ⟨trimmedI, trimmed⟩ := List.forall_mem_cons.mp trimmed
    obtain ⟨pr₁, first, agrees₁⟩ := agrees.word trimmedI.1 trimmedI.2 plainI
    rw [List.append_cons] at few ⊢
    obtain ⟨pr', ran, agrees'⟩ := ih agrees₁ plain trimmed few
    refine ⟨pr', ?_, agrees'⟩
    rw [List.flatMap_cons, Spelled.words, List.singleton_append, List.foldlM_cons, first, ok_bind]
    exact ran
  | detached kind file later ih =>
    obtain ⟨plainI, plain⟩ := List.forall_mem_cons.mp plain
    obtain ⟨-, trimmed⟩ := List.forall_mem_append.mp trimmed
    obtain ⟨pr₁, first, agrees₁⟩ := agrees.operator (w := operatorText kind) (kinds_lt few) false kind
      file file 1 (fun _ => ⟨rfl, rfl⟩) nofun
    rw [List.append_cons] at few ⊢
    obtain ⟨pr', ran, agrees'⟩ := ih agrees₁ plain trimmed few
    refine ⟨pr', ?_, agrees'⟩
    rw [List.flatMap_cons, List.foldlM_append, Spelled.words,
      take_pair agrees.between (trim_operatorText kind) (operator_operatorText kind), first]
    exact ran
  | @attached later kind file covered ih =>
    obtain ⟨plainI, plain⟩ := List.forall_mem_cons.mp plain
    obtain ⟨-, plain⟩ := List.forall_mem_cons.mp plain
    obtain ⟨trimmedI, trimmed⟩ := List.forall_mem_cons.mp trimmed
    obtain ⟨-, trimmed⟩ := List.forall_mem_cons.mp trimmed
    have long := List.length_pos_iff.mpr plainI.1
    obtain ⟨pr₁, first, agrees₁⟩ := agrees.operator (w := operatorText kind ++ file) (kinds_lt few)
      true kind file ['&'] (file.length + 1) nofun fun _ => Nat.succ_le_succ long
    rw [List.append_cons, List.append_cons] at few ⊢
    obtain ⟨pr', ran, agrees'⟩ := ih agrees₁.background plain trimmed few
    refine ⟨pr', ?_, agrees'⟩
    have words : (Spelled.redirection true kind file :: .argument ['&'] :: later).flatMap Spelled.words =
      [operatorText kind ++ file, ['&']] ++ later.flatMap Spelled.words := rfl
    rw [words, List.foldlM_append,
      take_pair agrees.between trimmedI.1 (operator_spelled plainI.2 kind), first]
    exact ran

/-! ### Attached file names -/

theorem Covered.tail {item : Spelled} (covered : Covered (item :: rest)) : Covered rest := by
  cases covered with
  | argument word rest => exact rest
  | detached kind file rest => exact rest
  | attached kind file rest => exact .argument ['&'] rest

theorem Covered.behind {before : List Spelled} (covered : Covered (before ++ rest)) : Covered rest := by
  induction before with
  | nil => exact covered
  | cons item before ih => exact ih covered.tail

theorem spellings_eq_nil_iff :
    spellings items k = [] ↔ ∀ attached other, .redirection attached k other ∉ items := by
  rw [spellings, List.filterMap_eq_nil_iff]
  constructor
  · intro none attached other member
    simpa using none _ member
  · intro none item member
    cases item with
    | argument word => rfl
    | redirection attached kind file =>
      by_cases same : kind = k
      · subst same
        exact absurd member (none attached file)
      · exact if_neg same

theorem last_spelling (last : (spellings items k).getLast? = some attached) :
    ∃ before file after, items = before ++ .redirection attached k file :: after ∧
      ∀ attached other, .redirection attached k other ∉ after := by
  induction items with
  | nil => cases last
  | cons item items ih =>
    have split : spellings (item :: items) k = spellings [item] k ++ spellings items k :=
      spellings_append [item] items k
    rw [split, List.getLast?_append] at last
    cases found : (spellings items k).getLast? with
    | some b =>
      rw [found] at last
      obtain ⟨before, file, after, rfl, none⟩ := ih (found.trans last)
      exact ⟨item :: before, file, after, rfl, none⟩
    | none =>
      have nothing := spellings_eq_nil_iff.mp (List.getLast?_eq_none_iff.mp found)
      rw [found, Option.none_or] at last
      cases item with
      | argument word => cases last
      | redirection spelled kind file =>
        by_cases same : kind = k
        · subst same
          have own : spelled = attached := by simpa [spellings] using last
          exact ⟨[], file, items, own ▸ rfl, nothing⟩
        · simp [spellings, same] at last

theorem covered_of_followed (followed : ∀ before kind file after,
      items = before ++ .redirection true kind file :: after → ∃ rest, after = .argument ['&'] :: rest) :
    Covered items := by
  induction length : items.length using Nat.strongRecOn generalizing items with
  | ind n ih =>
    have later (before rest : List Spelled) (split : items = before ++ rest) (some : before ≠ []) :
        Covered rest := by
      have shorter := List.length_pos_iff.mpr some
      refine ih rest.length (by rw [← length, split, List.length_append]; omega) ?_ rfl
      rintro front kind file after rfl
      exact followed (before ++ front) kind file after (split.trans (List.append_assoc ..).symm)
    match items with
    | [] => exact .nil
    | .argument word :: rest => exact .argument word (later [_] rest rfl (List.cons_ne_nil _ _))
    | .redirection false kind file :: rest =>
      exact .detached kind file (later [_] rest rfl (List.cons_ne_nil _ _))
    | .redirection true kind file :: after =>
      obtain ⟨rest, rfl⟩ := followed [] kind file after rfl
      exact .attached kind file (later [_, _] rest rfl (List.cons_ne_nil _ _))

/-- Each attached name is overridden if all are covered and the last of each kind is
detached. -/
theorem overridden_iff : (∀ before kind file after, items = before ++ .redirection true kind file :: after →
      (∃ rest, after = .argument ['&'] :: rest) ∧
        ∃ attached other, .redirection attached kind other ∈ after) ↔
    Covered items ∧ ∀ k, (spellings items k).getLast? ≠ some true := by
  constructor
  · intro overridden
    refine ⟨covered_of_followed fun before kind file after split =>
      (overridden before kind file after split).1, fun k last => ?_⟩
    obtain ⟨before, file, after, split, none⟩ := last_spelling last
    obtain ⟨-, attached, other, later⟩ := overridden before k file after split
    exact none attached other later
  · rintro ⟨covered, last⟩ before k file after rfl
    refine ⟨?_, ?_⟩
    · cases covered.behind with
      | attached kind file rest => exact ⟨_, rfl⟩
    · by_contra none
      simp only [not_exists] at none
      have own : spellings (.redirection true k file :: after) k = [true] := by
        rw [← List.singleton_append, spellings_append, spellings_eq_nil_iff.mpr none]
        simp [spellings]
      refine last k ?_
      rw [spellings_append, own, List.getLast?_concat]

/-! ### The kinds in the struct -/

/-- The entries of `redirect_idxs` that are not -1 come first. -/
def Counted (pr : Progress) : Prop :=
  pr.redirectionOrder ≤ 3 ∧ ∀ i : Fin 3, pr.redirectIdxs i = -1 ↔ pr.redirectionOrder ≤ i.val

theorem Counted.take (counted : Counted pr) (ran : pr.take w = .ok pr') : Counted pr' := by
  obtain ⟨few, entries⟩ := counted
  rw [Progress.take] at ran
  split at ran
  · cases ran
    exact ⟨few, entries⟩
  · rw [Progress.takeArg] at ran
    split at ran
    · cases ran
      exact ⟨few, entries⟩
    · split at ran
      · next k len found =>
        rw [Progress.redirect] at ran
        split at ran
        · next inside =>
          cases ran
          refine ⟨inside, fun i => ?_⟩
          by_cases here : i = ⟨pr.redirectionOrder, inside⟩
          · subst here
            have positive : (k : Int) ≠ -1 := by omega
            simp [positive]
          · have apart : i.val ≠ pr.redirectionOrder := fun same => here (Fin.ext same)
            have kept : Function.update pr.redirectIdxs ⟨pr.redirectionOrder, inside⟩ (k : Int) i =
              pr.redirectIdxs i := Function.update_of_ne here ..
            simp only [kept, entries i]
            omega
        · cases ran
      · rw [pass_eq] at ran
        cases ran
        exact ⟨few, entries⟩

theorem Counted.run {ws : List (List Char)} (counted : Counted pr)
    (ran : ws.foldlM Progress.take pr = .ok pr') : Counted pr' := by
  induction ws generalizing pr with
  | nil =>
    cases ran
    exact counted
  | cons w ws ih =>
    rw [List.foldlM_cons] at ran
    obtain ⟨pr₁, first, ran⟩ := bind_eq_ok.mp ran
    exact ih (counted.take first) ran

theorem Counted.order_eq (counted : Counted pr) {list : List (Fin 3)} (few : list.length ≤ 3)
    (same : ∀ i : Fin 3, pr.redirectIdxs i =
      match list[i.val]? with
      | some k => (k : Int)
      | none => -1) : pr.redirectionOrder = list.length := by
  obtain ⟨small, entries⟩ := counted
  have each (i : Fin 3) : pr.redirectionOrder ≤ i.val ↔ list.length ≤ i.val := by
    rw [← entries i, same i]
    cases found : list[i.val]? with
    | none => exact iff_of_true rfl (List.getElem?_eq_none_iff.mp found)
    | some k =>
      obtain ⟨inside, -⟩ := List.getElem?_eq_some_iff.mp found
      have positive : (k : Int) ≠ -1 := by omega
      exact iff_of_false positive (Nat.not_le_of_lt inside)
  have zero : pr.redirectionOrder ≤ 0 ↔ list.length ≤ 0 := each 0
  have one : pr.redirectionOrder ≤ 1 ↔ list.length ≤ 1 := each 1
  have two : pr.redirectionOrder ≤ 2 ↔ list.length ≤ 2 := each 2
  omega

/-- Agreement without an attached name at the end is the detached progress. -/
theorem Agrees.eq_progressOf (agrees : Agrees command items pr)
    (last : ∀ k, (spellings items k).getLast? ≠ some true) :
    pr = progressOf command (items.map Spelled.item) := by
  rw [Progress.mk.injEq]
  exact ⟨agrees.args, agrees.argIndex, agrees.unset, agrees.between, agrees.order, funext fun k => (agrees.detached k (last k)).1,
    funext fun k => (agrees.detached k (last k)).2, agrees.idxs, agrees.next⟩

end

/-- A word of a line without bars. -/
structure Token (w : List Char) : Prop where
  nonempty : w ≠ []
  short : w.length ≤ 1023
  plain : ∀ c ∈ w, c ∉ splitters ∧ c ≠ nul ∧ c ≠ '|'

theorem token_operatorText (k : Fin 3) : Token (operatorText k) := by
  match k with
  | 0 => exact ⟨by decide, by decide, by simp [operatorText, splitters, nul]⟩
  | 1 => exact ⟨by decide, by decide, by simp [operatorText, splitters, nul]⟩
  | 2 => exact ⟨by decide, by decide, by simp [operatorText, splitters, nul]⟩

/-- The words of the detached spelling are words as well. -/
theorem token_item {item : Spelled} (plain : item.Plain) (tokens : ∀ w ∈ item.words, Token w) :
    ∀ w ∈ item.item.words, Token w := by
  cases item with
  | argument word => exact tokens
  | redirection attached kind file =>
    have token : Token file := by
      cases attached with
      | false => exact tokens file (List.mem_cons_of_mem _ List.mem_cons_self)
      | true =>
        obtain ⟨-, short, chars⟩ := tokens _ List.mem_cons_self
        rw [List.length_append] at short
        exact ⟨plain.1, by omega, fun c inside => chars c (List.mem_append_right _ inside)⟩
    exact List.forall_mem_cons.mpr ⟨token_operatorText kind, List.forall_mem_singleton.mpr token⟩

namespace RedirectedText
variable (s : RedirectedText)

theorem trimmed : ∀ w ∈ s.items.flatMap Spelled.words, trim w = w ∧ w ≠ [] := by
  intro w member
  rw [← s.spelled] at member
  exact trim_of_mem s.whole (List.mem_of_mem_tail member)

theorem parseLine_eq (fresh : Nat → Contents) (command : Contents) (after : List Char) :
    parseLine fresh command s.text after =
      (s.items.flatMap Spelled.words).foldlM Progress.take (.start command) >>= fun pr =>
        if pr.redirectIndex = none then
          .ok ⟨command.background || (trim s.text).getLast? = some '&',
            command.autoComplete || (trim s.text).getLast? = some '?', pr.staged (stored s.name), pr.next⟩
        else .error .null := by
  have noBar : ['|'] ∉ words splitters s.text := fun member =>
    s.noBar ((words_mem member).2 '|' List.mem_cons_self).2
  rw [parseLine_words fresh command after s.whole (fun member => noBar (List.mem_of_mem_tail member))
    s.short, s.spelled]
  rfl

theorem token_words : ∀ w ∈ words splitters s.text, Token w := by
  intro w member
  obtain ⟨nonempty, inside⟩ := words_mem member
  refine ⟨nonempty, s.short w member, fun c listed => ?_⟩
  obtain ⟨plain, whole⟩ := inside c listed
  exact ⟨plain, fun zero => s.whole (zero ▸ whole), fun bar => s.noBar (bar ▸ whole)⟩

/-- The line in the detached spelling. -/
theorem exists_detached (filled : s.items ≠ []) : ∃ d : StageText, d.name = s.name ∧ d.items = s.said := by
  have listed : ∀ item ∈ s.items, ∀ w ∈ item.words, w ∈ words splitters s.text := by
    intro item member w inside
    refine List.mem_of_mem_tail ?_
    rw [s.spelled]
    exact List.mem_flatMap.mpr ⟨item, member, inside⟩
  have tokens : ∀ w ∈ s.name :: s.said.flatMap Item.words, Token w := by
    refine List.forall_mem_cons.mpr ⟨?_, fun w member => ?_⟩
    · obtain ⟨item, items, same⟩ := List.exists_cons_of_ne_nil filled
      have some : ∃ w, w ∈ item.words := by
        match item with
        | .argument word => exact ⟨_, List.mem_cons_self⟩
        | .redirection true kind file => exact ⟨_, List.mem_cons_self⟩
        | .redirection false kind file => exact ⟨_, List.mem_cons_self⟩
      obtain ⟨w, inside⟩ := some
      have nonempty := List.ne_nil_of_mem (listed item (same ▸ List.mem_cons_self) w inside)
      obtain ⟨first, rest, split⟩ := List.exists_cons_of_ne_nil nonempty
      rw [name, split]
      exact s.token_words first (split ▸ List.mem_cons_self)
    · obtain ⟨_, mapped, written⟩ := List.mem_flatMap.mp member
      obtain ⟨item, inside, rfl⟩ := List.mem_map.mp mapped
      have tokens : ∀ v ∈ item.words, Token v := fun v member =>
        s.token_words v (listed item inside v member)
      exact token_item (s.plain item inside) tokens w written
  have plain : ∀ w ∈ s.name :: s.said.flatMap Item.words, w ≠ [] ∧ ∀ c ∈ w, c ∉ splitters :=
    fun w member => ⟨(tokens w member).nonempty, fun c inside => ((tokens w member).plain c inside).1⟩
  have blank : ' ' ∈ splitters := by decide
  have spelled := words_joined blank plain
  refine ⟨⟨[' '].intercalate (s.name :: s.said.flatMap Item.words), s.name, s.said, ?_, spelled, ?_,
    ?_, ?_, s.few⟩, rfl, rfl⟩
  · refine not_mem_intercalate (by decide) fun w member zero => ?_
    exact ((tokens w member).plain nul zero).2.1 rfl
  · rw [spelled]
    intro member
    exact ((tokens _ member).plain '|' List.mem_cons_self).2.2 rfl
  · rw [spelled]
    exact fun w member => (tokens w member).short
  · intro item member
    obtain ⟨spelling, inside, rfl⟩ := List.mem_map.mp member
    cases spelling with
    | argument word => exact s.plain _ inside
    | redirection attached kind file => exact True.intro

theorem records_said {c : Command} (command : Contents)
    (stage : c.stage = (progressOf command s.said).staged (stored s.name)) : s.Records c := by
  refine ⟨by rw [stage]; rfl, by rw [stage, argv_staged], fun k used => ?_, fun i => by rw [stage]; rfl⟩
  cases last : (files s.said k).getLast? with
  | none => exact absurd (List.getLast?_eq_none_iff.mp last) ((mem_kinds_iff k).mp used)
  | some file =>
    refine ⟨file.length, file, rfl, ?_⟩
    rw [stage]
    simp only [Progress.staged, progressOf, last]

theorem recorded_of_covered (covered : Covered s.items)
    (last : ∀ k, (spellings s.items k).getLast? ≠ some true) (fresh : Nat → Contents)
    (command : Contents) (after : List Char) : s.Recorded fresh command after := by
  obtain ⟨pr, ran, agrees⟩ := covered.run (agrees_start command) s.plain s.trimmed s.few
  have same : pr = progressOf command s.said := agrees.eq_progressOf last
  subst same
  refine ⟨_, (s.parseLine_eq fresh command after).trans (congrArg (· >>= _) ran), ?_, ?_⟩
  · exact s.records_said command rfl
  · intro d name items
    obtain ⟨c', parsed, -, stage⟩ := d.parseLine_stage fresh command after
    refine ⟨c', parsed, ?_⟩
    rw [stage, StageText.stage, name, items]

/-- What is recorded counts what is due. -/
theorem covered_of_recorded {pr : Progress}
    (ran : (s.items.flatMap Spelled.words).foldlM Progress.take (.start command) = .ok pr)
    (between : pr.redirectIndex = none) {c : Command}
    (stage : c.stage = pr.staged (stored s.name))
    (records : s.Records c) : Covered s.items := by
  have start : Counted (.start command) := ⟨Nat.zero_le 3, fun i => iff_of_true rfl (Nat.zero_le _)⟩
  have order : pr.redirectionOrder = (kinds s.said).length := by
    refine (start.run ran).order_eq s.few fun i => ?_
    have idxs := records.idxs i
    rw [stage] at idxs
    exact idxs
  have args : pr.argIndex = (passed s.said).length := by
    have same := records.args
    rw [stage] at same
    simpa [Stage.argv, Progress.staged, arguments] using congrArg List.length same
  obtain ⟨-, covered, -⟩ := weight_le s.plain s.trimmed ran between
  refine covered rfl ?_
  rw [Progress.weight, order, args]
  exact (Nat.zero_add _).symm

/-- A line is recorded as it is spelled exactly if every attached file name is overridden
by a later redirection, in particular if none is attached. -/
theorem recorded_iff (fresh : Nat → Contents) (command : Contents) (after : List Char) :
    s.Recorded fresh command after ↔ s.Overridden := by
  rw [Overridden, overridden_iff]
  constructor
  · rintro ⟨c, parsed, records, same⟩
    rw [parseLine_eq] at parsed
    obtain ⟨pr, ran, parsed⟩ := bind_eq_ok.mp parsed
    split at parsed
    · next between =>
      cases parsed
      have covered := s.covered_of_recorded ran between rfl records
      refine ⟨covered, fun k last => ?_⟩
      obtain ⟨pr', ran', agrees⟩ := covered.run (agrees_start command) s.plain s.trimmed s.few
      cases ran.symm.trans ran'
      obtain ⟨operator, redirects, room⟩ := agrees.attached k last
      obtain ⟨before, file, behind, split, -⟩ := last_spelling last
      obtain ⟨d, name, items⟩ := s.exists_detached (by rw [split]; simp)
      obtain ⟨c', parsed', equal⟩ := same d name items
      obtain ⟨c'', parsed'', -, stage⟩ := d.parseLine_stage fresh command after
      cases parsed'.symm.trans parsed''
      have used : k ∈ kinds s.said := by
        rw [said, split, List.map_append, kinds_append]
        exact List.mem_append_right _ (by simp [kinds, Spelled.item])
      have lone : d.stage command = pr.staged (stored s.name) := stage.symm.trans equal
      have slot := congrFun (congrArg Stage.redirects lone) k
      simp only [StageText.stage, Progress.staged, progressOf, items, if_pos used, redirects,
        Slot.text.injEq] at slot
      rw [← slot] at room
      exact Nat.not_succ_le_self 1 room
    · cases parsed
  · rintro ⟨covered, last⟩
    exact s.recorded_of_covered covered last fresh command after

theorem output_kind : 1 < 3 := by decide

/-- `echo hi >out` -/
def attachedOutput : RedirectedText where
  text := "echo hi >out".toList
  items := [.argument "hi".toList, .redirection true ⟨1, output_kind⟩ "out".toList]
  whole := by decide
  noBar := by decide
  spelled := rfl
  short := by decide
  plain := by simp [Spelled.Plain, operator]
  few := by decide

/-- There is no word behind `>out` that could be the file name. -/
theorem attached_name_is_lost : ¬ attachedOutput.Recorded (fun _ => zeroed) zeroed [] := by
  rintro ⟨c, parsed, -⟩
  have stopped : parseLine (fun _ => zeroed) zeroed attachedOutput.text [] = .error .null := by
    rw [parseLine_eq]
    rfl
  cases stopped.symm.trans parsed

end RedirectedText

end Comp304.Shell
