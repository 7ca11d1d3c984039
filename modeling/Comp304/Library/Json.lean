import Mathlib.Data.List.Basic

/-! JSON texts. The lexer reads one character at a time and the parser one token
at a time, with a stack of the arrays and objects that are still open. Strings
are code points, since an escape can name one that is no character; the last of
several fields with one key counts. -/
namespace Comp304.Library.Json

abbrev Codes := List Nat

def codes (text : List Char) : Codes := text.map Char.toNat

inductive Scalar where
  | null
  | bool (b : Bool)
  | int (n : Int)
  | float (text : List Char)
  | str (content : Codes)
  deriving DecidableEq, Repr

inductive Value where
  | scalar (s : Scalar)
  | arr (items : List Value)
  | obj (fields : List (Codes × Value))

/-- The value of a key, if the value is an object that has it. -/
def Value.field (key : Codes) : Value → Option Value
  | .obj fields => (fields.reverse.find? fun f => f.1 = key).map (·.2)
  | _ => none

inductive Token where
  | lbrace
  | rbrace
  | lbracket
  | rbracket
  | colon
  | comma
  | scalar (s : Scalar)
  deriving DecidableEq, Repr

/-! ### The lexer -/

/-- How far a number has come. -/
inductive Phase where
  | minus
  | zero
  | digits
  | point
  | fraction
  | mark
  | sign
  | exponent
  deriving DecidableEq, Repr

/-- A number may end here. -/
def Phase.complete : Phase → Bool
  | .zero | .digits | .fraction | .exponent => true
  | _ => false

/-- How a number goes on with one more character, if it does. -/
def Phase.next (phase : Phase) (c : Char) : Option Phase :=
  match phase with
  | .minus => if c = '0' then some .zero else if c.isDigit then some .digits else none
  | .zero => if c = '.' then some .point else if c = 'e' ∨ c = 'E' then some .mark else none
  | .digits =>
    if c.isDigit then some .digits else if c = '.' then some .point
    else if c = 'e' ∨ c = 'E' then some .mark else none
  | .point => if c.isDigit then some .fraction else none
  | .fraction =>
    if c.isDigit then some .fraction else if c = 'e' ∨ c = 'E' then some .mark else none
  | .mark =>
    if c.isDigit then some .exponent else if c = '+' ∨ c = '-' then some .sign else none
  | .sign | .exponent => if c.isDigit then some .exponent else none

/-- What the lexer is in the middle of. -/
inductive Mode where
  | idle
  | word (rest : List Char) (s : Scalar)
  | number (text : List Char) (phase : Phase)
  | string (content : Codes)
  | escape (content : Codes)
  | unicode (content : Codes) (value more : Nat)

structure Lexer where
  mode : Mode
  tokens : List Token

def intOf : List Char → Int
  | '-' :: digits => -(Nat.ofDigitChars 10 digits 0)
  | digits => Nat.ofDigitChars 10 digits 0

/-- The number a complete text stands for. -/
def numberOf (text : List Char) (phase : Phase) : Scalar :=
  if phase = .zero ∨ phase = .digits then .int (intOf text) else .float text

/-- The character after a backslash, except `u`. -/
def escaped (c : Char) : Option Nat :=
  if c = '\x22' ∨ c = '\\' ∨ c = '/' then some c.toNat
  else if c = 'b' then some 8 else if c = 'f' then some 12 else if c = 'n' then some 10
  else if c = 'r' then some 13 else if c = 't' then some 9 else none

def hexDigit (c : Char) : Option Nat :=
  if c.isDigit then some (c.toNat - 48)
  else if 'a' ≤ c ∧ c ≤ 'f' then some (c.toNat - 87)
  else if 'A' ≤ c ∧ c ≤ 'F' then some (c.toNat - 55) else none

/-- Add a unit given by an escape: the second of a surrogate pair joins the first. -/
def addUnit (content : Codes) (unit : Nat) : Codes :=
  match content.getLast? with
  | some high =>
    if 0xD800 ≤ high ∧ high < 0xDC00 ∧ 0xDC00 ≤ unit ∧ unit < 0xE000 then
      content.dropLast ++ [0x10000 + (high - 0xD800) * 0x400 + (unit - 0xDC00)]
    else content ++ [unit]
  | none => content ++ [unit]

def punctuation (c : Char) : Option Token :=
  if c = '\x7b' then some .lbrace
  else if c = '\x7d' then some .rbrace
  else if c = '[' then some .lbracket
  else if c = ']' then some .rbracket
  else if c = ':' then some .colon
  else if c = ',' then some .comma else none

/-- The literal that begins with the character, and the rest of its spelling. -/
def literal (c : Char) : Option (List Char × Scalar) :=
  if c = 'n' then some (['u', 'l', 'l'], .null)
  else if c = 't' then some (['r', 'u', 'e'], .bool true)
  else if c = 'f' then some (['a', 'l', 's', 'e'], .bool false) else none

def startNumber (c : Char) : Option Phase :=
  if c = '-' then some .minus else Phase.minus.next c

/-- The first character of a token, or white space. -/
def startToken (tokens : List Token) (c : Char) : Option Lexer :=
  if c = ' ' ∨ c = '\t' ∨ c = '\n' ∨ c = '\r' then some ⟨.idle, tokens⟩
  else if c = '\x22' then some ⟨.string [], tokens⟩
  else match punctuation c with
    | some t => some ⟨.idle, tokens ++ [t]⟩
    | none => match literal c with
      | some word => some ⟨.word word.1 word.2, tokens⟩
      | none => (startNumber c).map fun phase => ⟨.number [c] phase, tokens⟩

/-- One character of a string: control characters must be escaped. -/
def stringStep (content : Codes) (tokens : List Token) (c : Char) : Option Lexer :=
  if c = '\x22' then some ⟨.idle, tokens ++ [.scalar (.str content)]⟩
  else if c = '\\' then some ⟨.escape content, tokens⟩
  else if c.toNat < 32 then none else some ⟨.string (content ++ [c.toNat]), tokens⟩

def escapeStep (content : Codes) (tokens : List Token) (c : Char) : Option Lexer :=
  if c = 'u' then some ⟨.unicode content 0 3, tokens⟩
  else (escaped c).map fun unit => ⟨.string (content ++ [unit]), tokens⟩

/-- One of four hexadecimal digits, with so many still to come. -/
def unicodeStep (content : Codes) (value more : Nat) (tokens : List Token) (c : Char) :
    Option Lexer :=
  (hexDigit c).map fun digit =>
    match more with
    | 0 => ⟨.string (addUnit content (value * 16 + digit)), tokens⟩
    | more + 1 => ⟨.unicode content (value * 16 + digit) more, tokens⟩

/-- One character of a number, or the first one behind it. -/
def numberStep (text : List Char) (phase : Phase) (tokens : List Token) (c : Char) :
    Option Lexer :=
  match phase.next c with
  | some phase => some ⟨.number (text ++ [c]) phase, tokens⟩
  | none =>
    if phase.complete then startToken (tokens ++ [.scalar (numberOf text phase)]) c else none

def wordStep (rest : List Char) (s : Scalar) (tokens : List Token) (c : Char) : Option Lexer :=
  match rest with
  | [] => none
  | [last] => if c = last then some ⟨.idle, tokens ++ [.scalar s]⟩ else none
  | next :: rest => if c = next then some ⟨.word rest s, tokens⟩ else none

def Lexer.step (l : Lexer) (c : Char) : Option Lexer :=
  match l.mode with
  | .idle => startToken l.tokens c
  | .word rest s => wordStep rest s l.tokens c
  | .number text phase => numberStep text phase l.tokens c
  | .string content => stringStep content l.tokens c
  | .escape content => escapeStep content l.tokens c
  | .unicode content value more => unicodeStep content value more l.tokens c

/-- The tokens, when the text may end here. -/
def Lexer.finish (l : Lexer) : Option (List Token) :=
  match l.mode with
  | .idle => some l.tokens
  | .number text phase =>
    if phase.complete then some (l.tokens ++ [.scalar (numberOf text phase)]) else none
  | _ => none

def lex (text : List Char) : Option (List Token) :=
  (text.foldlM Lexer.step ⟨.idle, []⟩).bind Lexer.finish

/-! ### The parser -/

/-- An array or object around the value that is being read. -/
inductive Frame where
  | array (items : List Value)
  | object (fields : List (Codes × Value)) (key : Codes)

/-- What has to come next. -/
inductive Need where
  | value
  | firstItem
  | moreItems (items : List Value)
  | firstKey
  | key (fields : List (Codes × Value))
  | colon (fields : List (Codes × Value)) (key : Codes)
  | moreFields (fields : List (Codes × Value))
  | nothing (v : Value)

structure Parser where
  stack : List Frame
  need : Need

/-- A value is complete. -/
def settle (stack : List Frame) (v : Value) : Parser :=
  match stack with
  | [] => ⟨[], .nothing v⟩
  | .array items :: stack => ⟨stack, .moreItems (items ++ [v])⟩
  | .object fields key :: stack => ⟨stack, .moreFields (fields ++ [(key, v)])⟩

/-- The first token of a value. -/
def startValue (stack : List Frame) : Token → Option Parser
  | .scalar s => some (settle stack (.scalar s))
  | .lbracket => some ⟨stack, .firstItem⟩
  | .lbrace => some ⟨stack, .firstKey⟩
  | _ => none

def Parser.step (p : Parser) (t : Token) : Option Parser :=
  match p.need, t with
  | .value, t => startValue p.stack t
  | .firstItem, .rbracket => some (settle p.stack (.arr []))
  | .firstItem, t => startValue (.array [] :: p.stack) t
  | .moreItems items, .comma => some ⟨.array items :: p.stack, .value⟩
  | .moreItems items, .rbracket => some (settle p.stack (.arr items))
  | .firstKey, .rbrace => some (settle p.stack (.obj []))
  | .firstKey, .scalar (.str key) => some ⟨p.stack, .colon [] key⟩
  | .key fields, .scalar (.str key) => some ⟨p.stack, .colon fields key⟩
  | .colon fields key, .colon => some ⟨.object fields key :: p.stack, .value⟩
  | .moreFields fields, .comma => some ⟨p.stack, .key fields⟩
  | .moreFields fields, .rbrace => some (settle p.stack (.obj fields))
  | _, _ => none

def parse (tokens : List Token) : Option Value :=
  (tokens.foldlM Parser.step ⟨[], .value⟩).bind fun p =>
    match p.need with
    | .nothing v => some v
    | _ => none

/-- The value a text stands for. -/
def loads (text : List Char) : Option Value := (lex text).bind parse

/-! ### Reading strings -/

/-- A character that stands for itself in a string. -/
def Plain (c : Char) : Prop := c ≠ '\x22' ∧ c ≠ '\\' ∧ 32 ≤ c.toNat

theorem step_plain (plain : Plain c) (content : Codes) (tokens : List Token) :
    Lexer.step ⟨.string content, tokens⟩ c = some ⟨.string (content ++ [c.toNat]), tokens⟩ := by
  obtain ⟨quote, backslash, visible⟩ := plain
  simp only [Lexer.step, stringStep, if_neg quote, if_neg backslash,
    if_neg (Nat.not_lt_of_le visible)]

/-- How much of a string the lexer has read, in code points. -/
def Mode.width : Mode → Nat
  | .string content | .escape content | .unicode content _ _ => content.length
  | _ => 0

/-- All strings among the tokens that are new, and the one being read, are shorter
than the bound; a literal word has no quote in it and is no string. -/
structure Short (known : List Token) (bound : Nat) (l : Lexer) : Prop where
  width : l.mode.width < bound
  tokens : ∀ s, .scalar (.str s) ∈ l.tokens → .scalar (.str s) ∈ known ∨ s.length < bound
  words : ∀ rest s, l.mode = .word rest s → '\x22' ∉ rest ∧ ∀ content, s ≠ .str content

theorem length_addUnit (content : Codes) (unit : Nat) :
    (addUnit content unit).length ≤ content.length + 1 := by
  unfold addUnit
  split
  · split
    · simp
    · simp
  · simp

theorem punctuation_not_string (read : punctuation c = some t) (s : Codes) :
    t ≠ .scalar (.str s) := by
  unfold punctuation at read
  repeat' split at read
  all_goals first | contradiction | (cases read; simp)

theorem literal_no_quote (read : literal c = some word) :
    '\x22' ∉ word.1 ∧ ∀ content, word.2 ≠ .str content := by
  unfold literal at read
  repeat' split at read
  all_goals first | contradiction | (cases read; exact ⟨by decide, nofun⟩)

theorem numberOf_ne_str (text : List Char) (phase : Phase) (content : Codes) :
    numberOf text phase ≠ .str content := by
  unfold numberOf
  split
  · nofun
  · nofun

section
variable {known tokens : List Token} {bound : Nat} {l l' : Lexer} {text : List Char}

theorem Short.push (short : ∀ s, .scalar (.str s) ∈ tokens → .scalar (.str s) ∈ known ∨ s.length < bound)
    (other : ∀ s, t = .scalar (.str s) → s.length < bound) :
    ∀ s, .scalar (.str s) ∈ tokens ++ [t] → .scalar (.str s) ∈ known ∨ s.length < bound := by
  intro s member
  cases List.mem_append.mp member with
  | inl old => exact short s old
  | inr new => exact Or.inr (other s (List.mem_singleton.mp new).symm)

theorem Short.start (positive : 0 < bound)
    (short : ∀ s, .scalar (.str s) ∈ tokens → .scalar (.str s) ∈ known ∨ s.length < bound)
    (ran : startToken tokens c = some l) : Short known bound l := by
  unfold startToken at ran
  split at ran
  · cases ran
    exact ⟨positive, short, nofun⟩
  split at ran
  · cases ran
    exact ⟨positive, short, nofun⟩
  split at ran
  · next t read =>
    cases ran
    exact ⟨positive, Short.push short fun s same => absurd same (punctuation_not_string read s), nofun⟩
  split at ran
  · next word read =>
    cases ran
    refine ⟨positive, short, fun rest s same => ?_⟩
    cases same
    exact literal_no_quote read
  · obtain ⟨phase, -, rfl⟩ := Option.map_eq_some_iff.mp ran
    exact ⟨positive, short, nofun⟩

/-- One more character makes a string longer by at most one code point. -/
theorem Short.step (short : Short known bound l) (ran : l.step c = some l') :
    Short known (bound + 1) l' := by
  obtain ⟨mode, tokens⟩ := l
  obtain ⟨width, strings, words⟩ := short
  have strings' : ∀ s, .scalar (.str s) ∈ tokens → .scalar (.str s) ∈ known ∨ s.length < bound + 1 :=
    fun s member => (strings s member).imp_right Nat.lt_succ_of_lt
  cases mode with
  | idle => exact Short.start (Nat.succ_pos bound) strings' ran
  | word rest s =>
    obtain ⟨quote, other⟩ := words rest s rfl
    simp only [Lexer.step, wordStep] at ran
    split at ran
    · cases ran
    · split at ran
      · cases ran
        refine ⟨Nat.succ_pos bound, Short.push strings' fun content same => ?_, nofun⟩
        cases same
        exact absurd rfl (other content)
      · cases ran
    · split at ran
      · cases ran
        refine ⟨Nat.succ_pos bound, strings', fun rest' s' same => ?_⟩
        cases same
        exact ⟨fun member => quote (List.mem_cons_of_mem _ member), other⟩
      · cases ran
  | number text phase =>
    simp only [Lexer.step, numberStep] at ran
    split at ran
    · cases ran
      exact ⟨Nat.succ_pos bound, strings', nofun⟩
    · split at ran
      · refine Short.start (Nat.succ_pos bound) (Short.push strings' fun s same => ?_) ran
        exact absurd (Token.scalar.inj same) (numberOf_ne_str text phase s)
      · cases ran
  | string content =>
    simp only [Lexer.step, stringStep] at ran
    split at ran
    · cases ran
      refine ⟨Nat.succ_pos bound, Short.push strings' fun s same => ?_, nofun⟩
      cases same
      exact Nat.lt_succ_of_lt width
    · split at ran
      · cases ran
        exact ⟨Nat.lt_succ_of_lt width, strings', nofun⟩
      · split at ran
        · cases ran
        · cases ran
          exact ⟨by simpa [Mode.width] using width, strings', nofun⟩
  | escape content =>
    simp only [Lexer.step, escapeStep] at ran
    split at ran
    · cases ran
      exact ⟨Nat.lt_succ_of_lt width, strings', nofun⟩
    · obtain ⟨unit, -, rfl⟩ := Option.map_eq_some_iff.mp ran
      exact ⟨by simpa [Mode.width] using width, strings', nofun⟩
  | unicode content value more =>
    simp only [Lexer.step, unicodeStep] at ran
    obtain ⟨digit, -, rfl⟩ := Option.map_eq_some_iff.mp ran
    cases more with
    | zero =>
      have longer := length_addUnit content (value * 16 + digit)
      simp only [Mode.width] at width
      exact ⟨by simp only [Mode.width]; omega, strings', nofun⟩
    | succ more => exact ⟨Nat.lt_succ_of_lt width, strings', nofun⟩

theorem Short.run (short : Short known bound l) (ran : text.foldlM Lexer.step l = some l') :
    Short known (bound + text.length) l' := by
  induction text generalizing bound l with
  | nil =>
    cases ran
    exact short
  | cons c text ih =>
    obtain ⟨between, first, rest⟩ := Option.bind_eq_some_iff.mp ran
    rw [List.length_cons, Nat.add_comm text.length, ← Nat.add_assoc]
    exact ih (Short.step short first) rest

theorem run_plain (plain : ∀ c ∈ text, Plain c) (content : Codes) :
    text.foldlM Lexer.step ⟨.string content, tokens⟩ =
      some ⟨.string (content ++ codes text), tokens⟩ := by
  induction text generalizing content with
  | nil => simp [codes]
  | cons c text ih =>
    rw [List.foldlM_cons, step_plain (plain c List.mem_cons_self) content tokens]
    refine (ih (fun c member => plain c (List.mem_cons_of_mem _ member)) _).trans ?_
    simp [codes]

/-- A text read from inside a string is all of it that string's content, or all
the strings it completes are shorter than it. -/
theorem run_string (content : Codes)
    (ran : text.foldlM Lexer.step ⟨.string content, tokens⟩ = some l) :
    (∀ c ∈ text, Plain c) ∨ Short tokens (content.length + text.length) l := by
  induction text generalizing content with
  | nil => exact Or.inl nofun
  | cons c text ih =>
    obtain ⟨between, first, rest⟩ := Option.bind_eq_some_iff.mp ran
    rw [List.length_cons, Nat.add_comm text.length, ← Nat.add_assoc]
    by_cases plain : Plain c
    · rw [step_plain plain] at first
      cases first
      refine (ih _ rest).imp (fun plains => List.forall_mem_cons.mpr ⟨plain, plains⟩) fun short => ?_
      simpa using short
    refine Or.inr (Short.run ?_ rest)
    have known : ∀ s, .scalar (.str s) ∈ tokens →
        .scalar (.str s) ∈ tokens ∨ s.length < content.length + 1 := fun s member => Or.inl member
    simp only [Lexer.step, stringStep] at first
    split at first
    · cases first
      refine ⟨Nat.succ_pos _, Short.push known fun s same => ?_, nofun⟩
      cases same
      exact Nat.lt_succ_self _
    split at first
    · cases first
      exact ⟨Nat.lt_succ_self _, known, nofun⟩
    split at first
    · cases first
    · next quote backslash visible => exact absurd ⟨quote, backslash, Nat.le_of_not_lt visible⟩ plain

end

/-! ### Reading numerals -/

/-- The decimal numeral of an integer. -/
def decimal (n : Int) : List Char :=
  if n < 0 then '-' :: Nat.toDigits 10 n.natAbs else Nat.toDigits 10 n.natAbs

theorem intOf_decimal (n : Int) : intOf (decimal n) = n := by
  unfold decimal
  split
  · next negative =>
    simp only [intOf, Nat.ofDigitChars_ten_toDigits]
    omega
  · next natural =>
    have value : (Nat.ofDigitChars 10 (Nat.toDigits 10 n.natAbs) 0 : Int) = n := by
      rw [Nat.ofDigitChars_ten_toDigits]
      omega
    unfold intOf
    split
    · next digits same =>
      have minus : '-' ∈ Nat.toDigits 10 n.natAbs := same ▸ List.mem_cons_self
      exact absurd (Nat.isDigit_of_mem_toDigits (by decide) (by decide) minus) (by decide)
    · exact value

/-- No numeral of a positive number begins with a zero. -/
theorem toDigits_leading (n : Nat) (positive : 0 < n) :
    ∃ first rest, Nat.toDigits 10 n = first :: rest ∧ first ≠ '0' := by
  induction n using Nat.strongRecOn with
  | ind n ih =>
    rw [Nat.toDigits_eq_if (by decide)]
    split
    · refine ⟨_, _, rfl, fun same => ?_⟩
      exact absurd (Nat.digitChar_eq_zero.mp same) (Nat.pos_iff_ne_zero.mp positive)
    · next large =>
      obtain ⟨first, rest, same, leading⟩ := ih (n / 10) (by omega) (by omega)
      exact ⟨first, rest ++ [(n % 10).digitChar], by rw [same]; rfl, leading⟩

section
variable {tokens : List Token} {c : Char}

theorem run_digits {rest : List Char} (digits : ∀ c ∈ rest, c.isDigit) (text : List Char) :
    rest.foldlM Lexer.step ⟨.number text .digits, tokens⟩ =
      some ⟨.number (text ++ rest) .digits, tokens⟩ := by
  induction rest generalizing text with
  | nil => simp
  | cons c rest ih =>
    have step : Lexer.step ⟨.number text .digits, tokens⟩ c =
        some ⟨.number (text ++ [c]) .digits, tokens⟩ := by
      simp [Lexer.step, numberStep, Phase.next, digits c List.mem_cons_self]
    rw [List.foldlM_cons, step]
    refine (ih (fun c member => digits c (List.mem_cons_of_mem _ member)) _).trans ?_
    simp

theorem isDigit_of_toDigits (n : Nat) : ∀ c ∈ Nat.toDigits 10 n, c.isDigit :=
  fun _ member => Nat.isDigit_of_mem_toDigits (by decide) (by decide) member

theorem next_minus (digit : c.isDigit) :
    Phase.minus.next c = some (if c = '0' then .zero else .digits) := by
  simp only [Phase.next, digit, if_true]
  split
  · rfl
  · rfl

theorem startToken_digit (digit : c.isDigit) :
    startToken tokens c = some ⟨.number [c] (if c = '0' then .zero else .digits), tokens⟩ := by
  have other (d : Char) (not : d.isDigit = false) : c ≠ d := by
    rintro rfl
    exact absurd digit (by simp [not])
  have start : startNumber c = some (if c = '0' then .zero else .digits) := by
    rw [startNumber, if_neg (other '-' rfl), next_minus digit]
  simp only [startToken, punctuation, literal, other ' ' rfl, other '\t' rfl, other '\n' rfl,
    other '\r' rfl, other '\x22' rfl, other '\x7b' rfl, other '\x7d' rfl, other '[' rfl,
    other ']' rfl, other ':' rfl, other ',' rfl, other 'n' rfl, other 't' rfl, other 'f' rfl,
    or_self, if_false, start, Option.map_some]

/-- The digits of a natural number, from their first one on. -/
theorem run_toDigits (n : Nat) (l : Lexer) (text : List Char)
    (start : ∀ c, c.isDigit → l.step c =
      some ⟨.number (text ++ [c]) (if c = '0' then .zero else .digits), tokens⟩) :
    ∃ phase, (phase = .zero ∨ phase = .digits) ∧ (Nat.toDigits 10 n).foldlM Lexer.step l =
      some ⟨.number (text ++ Nat.toDigits 10 n) phase, tokens⟩ := by
  have digits := isDigit_of_toDigits n
  by_cases zero : n = 0
  · subst zero
    refine ⟨.zero, Or.inl rfl, ?_⟩
    rw [Nat.toDigits_zero, List.foldlM_cons, start '0' rfl]
    rfl
  · obtain ⟨first, rest, same, leading⟩ := toDigits_leading n (Nat.pos_of_ne_zero zero)
    rw [same] at digits ⊢
    refine ⟨.digits, Or.inr rfl, ?_⟩
    rw [List.foldlM_cons, start first (digits first List.mem_cons_self), if_neg leading]
    refine (run_digits (fun c member => digits c (List.mem_cons_of_mem _ member)) _).trans ?_
    simp

theorem run_decimal (tokens : List Token) (n : Int) :
    ∃ phase, (phase = .zero ∨ phase = .digits) ∧
      (decimal n).foldlM Lexer.step ⟨.idle, tokens⟩ = some ⟨.number (decimal n) phase, tokens⟩ := by
  unfold decimal
  split
  · refine run_toDigits n.natAbs ⟨.number ['-'] .minus, tokens⟩ ['-'] fun c digit => ?_
    simp only [Lexer.step, numberStep, next_minus digit]
  · exact run_toDigits n.natAbs ⟨.idle, tokens⟩ [] fun c digit => startToken_digit digit

/-- A numeral is one token when what is behind it cannot belong to a number. -/
theorem run_numeral (n : Int) (stops : Phase.zero.next c = none ∧ Phase.digits.next c = none)
    (rest : List Char) :
    (decimal n ++ c :: rest).foldlM Lexer.step ⟨.idle, tokens⟩ =
      (startToken (tokens ++ [.scalar (.int n)]) c).bind (rest.foldlM Lexer.step) := by
  obtain ⟨phase, kind, ran⟩ := run_decimal tokens n
  have stop : phase.next c = none := by
    obtain rfl | rfl := kind
    · exact stops.1
    · exact stops.2
  have complete : phase.complete = true := by
    obtain rfl | rfl := kind
    · rfl
    · rfl
  rw [List.foldlM_append, ran]
  simp only [Option.bind_eq_bind, Option.bind_some, List.foldlM_cons, Lexer.step, numberStep, stop,
    complete, if_true, numberOf, if_pos kind, intOf_decimal]

end

/-! ### Where the fields of an object come from -/

/-- Every scalar among the fields is a token. -/
def Listed (tokens : List Token) (fields : List (Codes × Value)) : Prop :=
  ∀ f ∈ fields, ∀ s, f.2 = .scalar s → .scalar s ∈ tokens

def Sourced (tokens : List Token) : Value → Prop
  | .scalar s => .scalar s ∈ tokens
  | .arr _ => True
  | .obj fields => Listed tokens fields

def Frame.Sourced (tokens : List Token) : Frame → Prop
  | .array _ => True
  | .object fields _ => Listed tokens fields

def Need.Sourced (tokens : List Token) : Need → Prop
  | .key fields | .colon fields _ | .moreFields fields => Listed tokens fields
  | .nothing v => Json.Sourced tokens v
  | _ => True

structure Parser.Sourced (tokens : List Token) (p : Parser) : Prop where
  stack : ∀ f ∈ p.stack, f.Sourced tokens
  need : p.need.Sourced tokens

section
variable {tokens rest : List Token} {stack : List Frame} {p p' : Parser} {v : Value}

theorem Listed.nil : Listed tokens [] := nofun

theorem settle_sourced (frames : ∀ f ∈ stack, f.Sourced tokens) (value : Sourced tokens v) :
    (settle stack v).Sourced tokens := by
  match stack with
  | [] => exact ⟨nofun, value⟩
  | .array items :: stack =>
    exact ⟨fun f member => frames f (List.mem_cons_of_mem _ member), trivial⟩
  | .object fields key :: stack =>
    refine ⟨fun f member => frames f (List.mem_cons_of_mem _ member), fun f member s same => ?_⟩
    cases List.mem_append.mp member with
    | inl old => exact frames _ List.mem_cons_self f old s same
    | inr new =>
      obtain rfl := List.mem_singleton.mp new
      cases same
      exact value

theorem startValue_sourced (frames : ∀ f ∈ stack, f.Sourced tokens) (member : t ∈ tokens)
    (started : startValue stack t = some p) : p.Sourced tokens := by
  unfold startValue at started
  split at started
  · cases started
    exact settle_sourced frames member
  · cases started
    exact ⟨frames, trivial⟩
  · cases started
    exact ⟨frames, trivial⟩
  · cases started

theorem step_sourced (sourced : Parser.Sourced tokens p) (member : t ∈ tokens)
    (ran : p.step t = some p') : p'.Sourced tokens := by
  obtain ⟨stack, need⟩ := p
  obtain ⟨frames, needed⟩ := sourced
  unfold Parser.step at ran
  split at ran
  · exact startValue_sourced frames member ran
  · cases ran
    exact settle_sourced frames trivial
  · refine startValue_sourced (List.forall_mem_cons.mpr ⟨?_, frames⟩) member ran
    exact trivial
  · cases ran
    exact ⟨List.forall_mem_cons.mpr ⟨trivial, frames⟩, trivial⟩
  · cases ran
    exact settle_sourced frames trivial
  · cases ran
    exact settle_sourced frames Listed.nil
  · cases ran
    exact ⟨frames, Listed.nil⟩
  · next same =>
    cases ran
    simp only at same
    subst same
    exact ⟨frames, needed⟩
  · next same =>
    cases ran
    simp only at same
    subst same
    exact ⟨List.forall_mem_cons.mpr ⟨needed, frames⟩, trivial⟩
  · next same =>
    cases ran
    simp only at same
    subst same
    exact ⟨frames, needed⟩
  · next same =>
    cases ran
    simp only at same
    subst same
    exact settle_sourced frames needed
  · cases ran

theorem run_sourced (sourced : Parser.Sourced tokens p) (members : ∀ t ∈ rest, t ∈ tokens)
    (ran : rest.foldlM Parser.step p = some p') : p'.Sourced tokens := by
  induction rest generalizing p with
  | nil =>
    cases ran
    exact sourced
  | cons t rest ih =>
    obtain ⟨between, first, later⟩ := Option.bind_eq_some_iff.mp ran
    exact ih (step_sourced sourced (members t List.mem_cons_self) first)
      (fun t member => members t (List.mem_cons_of_mem _ member)) later

/-- A field that is a scalar was a token of the text. -/
theorem parse_field (parsed : parse tokens = some v) (found : v.field key = some (.scalar s)) :
    .scalar s ∈ tokens := by
  obtain ⟨p, ran, last⟩ := Option.bind_eq_some_iff.mp parsed
  have start : Parser.Sourced tokens ⟨[], .value⟩ := ⟨nofun, trivial⟩
  have sourced : p.Sourced tokens := run_sourced start (fun t member => member) ran
  split at last
  · next v' same =>
    cases last
    have value : Sourced tokens v := by
      have needed := sourced.need
      rw [same] at needed
      exact needed
    unfold Value.field at found
    split at found
    · obtain ⟨f, first, same⟩ := Option.map_eq_some_iff.mp found
      exact value f (List.mem_reverse.mp (List.mem_of_find?_eq_some first)) s same
    · cases found
  · cases last

end

end Comp304.Library.Json
