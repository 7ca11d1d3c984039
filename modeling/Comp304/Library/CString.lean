import Comp304.Library.Budget
import Mathlib.Data.List.TakeWhile

/-! C strings in an array of bytes, and `strtok`. The array is a list of
characters and a pointer into it a position; the position behind the last
character is outside, and to read or write there is a fault. -/
namespace Comp304.Library.CString
open Budget

/-- Why a run stops: an access outside of an array, one through the null pointer,
or a budget of rounds that is spent. -/
inductive Fault where
  | outside
  | null
  | spent
  deriving DecidableEq, Repr

abbrev nul : Char := '\x00'

/-- The string at the beginning of an array. -/
def untilNul : List Char → Except Fault (List Char)
  | [] => .error .outside
  | c :: rest => if c = nul then .ok [] else (untilNul rest).map (c :: ·)

def textAt (bytes : List Char) (p : Nat) : Except Fault (List Char) := untilNul (bytes.drop p)

def read (bytes : List Char) (p : Nat) : Except Fault Char :=
  match bytes[p]? with
  | some c => .ok c
  | none => .error .outside

def write (bytes : List Char) (p : Nat) (c : Char) : Except Fault (List Char) :=
  if p < bytes.length then .ok (bytes.set p c) else .error .outside

/-- `strcpy(dest + p, text)` -/
def strcpy (dest : List Char) (p : Nat) (text : List Char) : Except Fault (List Char) :=
  if p + text.length < dest.length then
    .ok (dest.take p ++ text ++ nul :: dest.drop (p + text.length + 1))
  else .error .outside

def strcat (dest text : List Char) : Except Fault (List Char) := do
  let old ← textAt dest 0
  strcpy dest old.length text

/-- `strcat(bytes + p, text)` -/
def strcatAt (bytes : List Char) (p : Nat) (text : List Char) : Except Fault (List Char) := do
  let old ← textAt bytes p
  strcpy bytes (p + old.length) text

/-- `strncpy(dest, text, n)`, which writes a terminator only if there is room. -/
def strncpy (dest text : List Char) (n : Nat) : Except Fault (List Char) :=
  if n ≤ dest.length then
    .ok (text.take n ++ List.replicate (n - text.length) nul ++ dest.drop n)
  else .error .outside

/-- Where a string begins in another one for the first time. -/
def strstr (text part : List Char) : Option Nat :=
  match text with
  | [] => if part = [] then some 0 else none
  | c :: rest => if part.isPrefixOf (c :: rest) then some 0 else (strstr rest part).map (· + 1)

/-- The array that is scanned and the pointer that `strtok` keeps. -/
structure Tokenizer where
  bytes : List Char
  save : Option Nat

/-- The next token, from the given pointer or else from the one that was kept. Its
end is overwritten unless it is the end of the string. -/
def strtok (delims : List Char) (s : Option Nat) (t : Tokenizer) :
    Except Fault (Option Nat × Tokenizer) := do
  let start ← match s.or t.save with
    | some p => .ok p
    | none => .error .null
  let text ← textAt t.bytes start
  let first := start + (text.takeWhile (· ∈ delims)).length
  let rest := text.dropWhile (· ∈ delims)
  let last := first + (rest.takeWhile (· ∉ delims)).length
  if rest = [] then
    return (none, ⟨t.bytes, some first⟩)
  else if rest.dropWhile (· ∉ delims) = [] then
    return (some first, ⟨t.bytes, some last⟩)
  else
    let bytes ← write t.bytes last nul
    return (some first, ⟨bytes, some (last + 1)⟩)

/-- The maximal runs of other characters than the delimiters. -/
def words (delims text : List Char) : List (List Char) :=
  (text.splitOnP (· ∈ delims)).filter (· ≠ [])

/-! ### Words -/

section
variable {delims : List Char}

theorem words_nil : words delims [] = [] := rfl

theorem words_append (first : List Char) (delim : c ∈ delims) (rest : List Char) :
    words delims (first ++ c :: rest) = words delims first ++ words delims rest := by
  rw [words, List.splitOnP_append_cons _ _ (by simpa using delim), List.filter_append]
  rfl

theorem words_cons (delim : c ∈ delims) (rest : List Char) :
    words delims (c :: rest) = words delims rest := words_append [] delim rest

theorem words_single (token : ∀ c ∈ text, c ∉ delims) (nonempty : text ≠ []) :
    words delims text = [text] := by
  rw [words, List.splitOnP_eq_singleton (by simpa using token)]
  simp [nonempty]

theorem words_blank (blank : ∀ c ∈ text, c ∈ delims) (rest : List Char) :
    words delims (text ++ rest) = words delims rest := by
  induction text with
  | nil => rfl
  | cons c text ih =>
    obtain ⟨first, blank⟩ := List.forall_mem_cons.mp blank
    exact (words_cons first _).trans (ih blank)

/-- Blanks at the end make no word. -/
theorem words_trailing (blank : ∀ c ∈ text, c ∈ delims) (front : List Char) :
    words delims (front ++ text) = words delims front := by
  cases text with
  | nil => rw [List.append_nil]
  | cons c text =>
    obtain ⟨first, blank⟩ := List.forall_mem_cons.mp blank
    have rest := words_blank blank []
    rw [List.append_nil] at rest
    rw [words_append front first, rest, words_nil, List.append_nil]

/-- Words with one blank between them. -/
theorem words_joined (delim : c ∈ delims) {ws : List (List Char)}
    (tokens : ∀ w ∈ ws, w ≠ [] ∧ ∀ d ∈ w, d ∉ delims) : words delims ([c].intercalate ws) = ws := by
  induction ws with
  | nil => rfl
  | cons w ws ih =>
    obtain ⟨⟨nonempty, token⟩, tokens⟩ := List.forall_mem_cons.mp tokens
    cases ws with
    | nil => simpa using words_single token nonempty
    | cons v ws =>
      rw [List.intercalate_cons_cons, List.append_assoc, List.singleton_append, words_append w delim,
        words_single token nonempty, ih tokens]
      rfl

theorem not_mem_intercalate (other : d ≠ c) {ws : List (List Char)} (none : ∀ w ∈ ws, d ∉ w) :
    d ∉ [c].intercalate ws := by
  induction ws with
  | nil => exact List.not_mem_nil
  | cons w ws ih =>
    obtain ⟨first, none⟩ := List.forall_mem_cons.mp none
    cases ws with
    | nil => simpa using first
    | cons v ws =>
      rw [List.intercalate_cons_cons, List.append_assoc, List.mem_append, List.mem_append, not_or,
        not_or, List.mem_singleton]
      exact ⟨first, other, ih none⟩

theorem words_dropWhile (text : List Char) :
    words delims (text.dropWhile (· ∈ delims)) = words delims text := by
  have split := List.takeWhile_append_dropWhile (p := (· ∈ delims)) (l := text)
  have blank : ∀ c ∈ text.takeWhile (· ∈ delims), c ∈ delims := fun c member => by
    simpa using List.mem_takeWhile_imp member
  conv_rhs => rw [← split, words_blank blank]

/-- A word ends at the end of the text or at a delimiter. -/
theorem words_token (token : ∀ c ∈ w, c ∉ delims) (nonempty : w ≠ [])
    (stops : ∀ c, rest.head? = some c → c ∈ delims) :
    words delims (w ++ rest) = w :: words delims rest.tail := by
  cases rest with
  | nil =>
    rw [List.append_nil, words_single token nonempty]
    rfl
  | cons c rest =>
    rw [words_append w (stops c rfl), words_single token nonempty]
    rfl

/-- What is behind the leading blanks is nothing or begins with the first word. -/
theorem words_dropWhile_cases (delims text : List Char) :
    (text.dropWhile (· ∈ delims) = [] ∧ words delims text = []) ∨
    (text.dropWhile (· ∈ delims) ≠ [] ∧
      words delims text = (text.dropWhile (· ∈ delims)).takeWhile (· ∉ delims) ::
        words delims ((text.dropWhile (· ∈ delims)).dropWhile (· ∉ delims)).tail) := by
  rw [← words_dropWhile text]
  cases found : text.dropWhile (· ∈ delims) with
  | nil => exact Or.inl ⟨rfl, rfl⟩
  | cons c rest =>
    have front : c ∉ delims := by
      have stop := List.head?_dropWhile_not (· ∈ delims) text
      rw [found] at stop
      simpa using stop
    have token : ∀ d ∈ (c :: rest).takeWhile (· ∉ delims), d ∉ delims := fun d member => by
      simpa using List.mem_takeWhile_imp member
    have stops : ∀ d, ((c :: rest).dropWhile (· ∉ delims)).head? = some d → d ∈ delims := by
      intro d same
      have stop := List.head?_dropWhile_not (· ∉ delims) (c :: rest)
      rw [same] at stop
      simpa using stop
    refine Or.inr ⟨nofun, ?_⟩
    rw [← words_token token (by simp [front]) stops, List.takeWhile_append_dropWhile]

theorem words_eq_nil (none : words delims text = []) : ∀ c ∈ text, c ∈ delims := by
  obtain ⟨blank, -⟩ | ⟨-, word⟩ := words_dropWhile_cases delims text
  · simpa using List.dropWhile_eq_nil_iff.mp blank
  · rw [word] at none
    cases none

theorem splitOnP_mem {p : Char → Bool} {text : List Char} (piece : w ∈ text.splitOnP p) :
    ∀ c ∈ w, p c = false ∧ c ∈ text := by
  induction text generalizing w with
  | nil =>
    rw [List.splitOnP_nil, List.mem_singleton] at piece
    subst piece
    exact nofun
  | cons x text ih =>
    rw [List.splitOnP_cons_eq_if_modifyHead] at piece
    split at piece
    · cases List.mem_cons.mp piece with
      | inl same =>
        subst same
        exact nofun
      | inr later =>
        exact fun c inside => (ih later c inside).imp_right (List.mem_cons_of_mem x)
    · next other =>
      obtain ⟨first, rest, same⟩ := List.exists_cons_of_ne_nil (List.splitOnP_ne_nil p text)
      rw [same, List.modifyHead_cons] at piece
      intro c inside
      cases List.mem_cons.mp piece with
      | inl here =>
        subst here
        cases List.mem_cons.mp inside with
        | inl head => exact ⟨by simpa [head] using other, head ▸ List.mem_cons_self⟩
        | inr tail =>
          exact (ih (same ▸ List.mem_cons_self) c tail).imp_right (List.mem_cons_of_mem x)
      | inr later =>
        refine (ih ?_ c inside).imp_right (List.mem_cons_of_mem x)
        rw [same]
        exact List.mem_cons_of_mem first later

theorem words_mem (member : w ∈ words delims text) :
    w ≠ [] ∧ ∀ c ∈ w, c ∉ delims ∧ c ∈ text := by
  obtain ⟨piece, nonempty⟩ := List.mem_filter.mp member
  refine ⟨by simpa using nonempty, fun c inside => ?_⟩
  simpa using splitOnP_mem piece c inside

theorem length_words_le (delims text : List Char) : (words delims text).length ≤ text.length := by
  induction length : text.length using Nat.strongRecOn generalizing text with
  | ind n ih =>
    obtain ⟨-, none⟩ | ⟨nonempty, word⟩ := words_dropWhile_cases delims text
    · rw [none]
      exact Nat.zero_le _
    · have whole := congrArg List.length
        (List.takeWhile_append_dropWhile (p := (· ∈ delims)) (l := text))
      have front := congrArg List.length (List.takeWhile_append_dropWhile (p := (· ∉ delims))
        (l := text.dropWhile (· ∈ delims)))
      have token := List.length_pos_iff.mpr (words_mem (word ▸ List.mem_cons_self)).1
      rw [List.length_append] at whole front
      have shorter := ih _ (by rw [List.length_tail]; omega)
        ((text.dropWhile (· ∈ delims)).dropWhile (· ∉ delims)).tail rfl
      rw [word, List.length_cons]
      rw [List.length_tail] at shorter
      omega

end

/-! ### Strings in the array -/

/-- The string at a position. -/
def Holds (bytes : List Char) (p : Nat) (text : List Char) : Prop :=
  nul ∉ text ∧ ∃ after, bytes.drop p = text ++ nul :: after

/-- The string at a position, and what is behind its terminator. -/
def Spans (bytes : List Char) (p : Nat) (text behind : List Char) : Prop :=
  nul ∉ text ∧ bytes.drop p = text ++ nul :: behind

section
variable {bytes behind : List Char} {p : Nat}

theorem Spans.holds (spans : Spans bytes p text behind) : Holds bytes p text :=
  ⟨spans.1, behind, spans.2⟩

theorem Holds.spans (holds : Holds bytes p text) : ∃ behind, Spans bytes p text behind := by
  obtain ⟨whole, behind, same⟩ := holds
  exact ⟨behind, whole, same⟩

theorem untilNul_eq_ok : untilNul bytes = .ok text ↔
    nul ∉ text ∧ ∃ behind, bytes = text ++ nul :: behind := by
  constructor
  · intro found
    induction bytes generalizing text with
    | nil => cases found
    | cons c bytes ih =>
      rw [untilNul] at found
      split at found
      · next ending =>
        cases found
        exact ⟨List.not_mem_nil, bytes, by rw [ending]; rfl⟩
      · next other =>
        cases rest : untilNul bytes with
        | error stop =>
          rw [rest] at found
          cases found
        | ok text =>
          rw [rest] at found
          cases found
          obtain ⟨whole, behind, rfl⟩ := ih rest
          exact ⟨List.not_mem_cons_of_ne_of_not_mem (Ne.symm other) whole, behind, rfl⟩
  · rintro ⟨whole, behind, rfl⟩
    induction text with
    | nil => rfl
    | cons c text ih =>
      obtain ⟨first, whole⟩ := List.ne_and_not_mem_of_not_mem_cons whole
      rw [List.cons_append, untilNul, if_neg (Ne.symm first), ih whole]
      rfl

theorem textAt_eq_ok : textAt bytes p = .ok text ↔ Holds bytes p text := untilNul_eq_ok

theorem Holds.textAt (holds : Holds bytes p text) : textAt bytes p = .ok text :=
  textAt_eq_ok.mpr holds

theorem Holds.unique (holds : Holds bytes p text) (other : Holds bytes p text') : text = text' :=
  Except.ok.inj (holds.textAt.symm.trans other.textAt)

theorem Holds.inside (holds : Holds bytes p text) : p + text.length < bytes.length := by
  obtain ⟨-, after, same⟩ := holds
  have length := congrArg List.length same
  simp only [List.length_drop, List.length_append, List.length_cons] at length
  omega

theorem Spans.skip (first : List Char) (spans : Spans bytes p (first ++ text) behind) :
    Spans bytes (p + first.length) text behind := by
  obtain ⟨whole, same⟩ := spans
  refine ⟨fun member => whole (List.mem_append_right _ member), ?_⟩
  rw [← List.drop_drop, same, List.append_assoc, List.drop_left]

theorem Holds.skip (first : List Char) (holds : Holds bytes p (first ++ text)) :
    Holds bytes (p + first.length) text := by
  obtain ⟨behind, spans⟩ := holds.spans
  exact (spans.skip first).holds

/-- At the terminator there is the empty string. -/
theorem Spans.ending (spans : Spans bytes p text behind) :
    Spans bytes (p + text.length) [] behind := by
  rw [← List.append_nil text] at spans
  exact spans.skip text

theorem Holds.read_head (holds : Holds bytes p (c :: text)) : read bytes p = .ok c := by
  obtain ⟨-, after, same⟩ := holds
  have head : bytes[p]? = some c := by
    rw [← List.head?_drop, same]
    rfl
  rw [read, head]

/-- To end a string early leaves two. -/
theorem Spans.cut (first : List Char) (spans : Spans bytes p (first ++ c :: rest) behind) :
    Spans (bytes.set (p + first.length) nul) p first (rest ++ nul :: behind) ∧
      Spans (bytes.set (p + first.length) nul) (p + first.length + 1) rest behind := by
  obtain ⟨whole, same⟩ := spans
  have changed : (bytes.set (p + first.length) nul).drop p =
      first ++ nul :: (rest ++ nul :: behind) := by
    rw [List.drop_set, if_neg (by omega), same]
    simp
  refine ⟨⟨fun member => whole (List.mem_append_left _ member), changed⟩, ?_, ?_⟩
  · exact fun member => whole (List.mem_append_right _ (List.mem_cons_of_mem _ member))
  · rw [Nat.add_assoc, ← List.drop_drop, changed]
    simp

theorem Holds.cut (first : List Char) (holds : Holds bytes p (first ++ c :: rest)) :
    Holds (bytes.set (p + first.length) nul) p first ∧
      Holds (bytes.set (p + first.length) nul) (p + first.length + 1) rest := by
  obtain ⟨behind, spans⟩ := holds.spans
  exact ⟨(spans.cut first).1.holds, (spans.cut first).2.holds⟩

theorem write_ok (inside : p < bytes.length) (c : Char) :
    write bytes p c = .ok (bytes.set p c) := if_pos inside

end

/-- A string without an end runs out of the array. -/
theorem untilNul_unended (whole : nul ∉ bytes) : untilNul bytes = .error .outside := by
  induction bytes with
  | nil => rfl
  | cons c bytes ih =>
    obtain ⟨first, whole⟩ := List.ne_and_not_mem_of_not_mem_cons whole
    rw [untilNul, if_neg (Ne.symm first), ih whole]
    rfl

/-! ### What `strtok` returns -/

section
variable {delims bytes : List Char} {p : Nat} {s save : Option Nat}

theorem strtok_none (at_ : s.or save = some p) (holds : Holds bytes p text)
    (empty : words delims text = []) :
    strtok delims s ⟨bytes, save⟩ = .ok (none, ⟨bytes, some (p + text.length)⟩) := by
  obtain ⟨nothing, -⟩ | ⟨-, word⟩ := words_dropWhile_cases delims text
  · have blank : text.takeWhile (· ∈ delims) = text :=
      List.takeWhile_eq_self_iff.mpr (List.dropWhile_eq_nil_iff.mp nothing)
    simp only [strtok, at_, holds.textAt, bind, Except.bind, nothing, if_true, blank]
    rfl
  · rw [word] at empty
    cases empty

/-- The first word, ended in place, and where the scan goes on: at the end, if the
text ends with the word, and else behind the delimiter. -/
theorem strtok_spans {behind : List Char} (at_ : s.or save = some p)
    (spans : Spans bytes p text behind) (found : words delims text = w :: ws) :
    ∃ first bytes' next rest, strtok delims s ⟨bytes, save⟩ = .ok (some first, ⟨bytes', some next⟩) ∧
      bytes'.length = bytes.length ∧ Holds bytes' first w ∧ Spans bytes' next rest behind ∧
      words delims rest = ws ∧ rest <:+ text ∧ (next = first + w.length ∧ rest = [] ∨
        next = first + w.length + 1 ∧ ∃ d ∈ delims, d :: rest <:+ text) := by
  obtain ⟨-, none⟩ | ⟨nonempty, word⟩ := words_dropWhile_cases delims text
  · rw [none] at found
    cases found
  rw [word] at found
  obtain ⟨rfl, rfl⟩ := List.cons.inj found
  have front := List.takeWhile_append_dropWhile (p := (· ∈ delims)) (l := text)
  have after := List.takeWhile_append_dropWhile (p := (· ∉ delims))
    (l := text.dropWhile (· ∈ delims))
  have token := spans
  rw [← front, ← after] at token
  replace token := token.skip
  simp only [strtok, at_, spans.holds.textAt, bind, Except.bind, if_neg nonempty]
  cases found : (text.dropWhile (· ∈ delims)).dropWhile (· ∉ delims) with
  | nil =>
    rw [found] at token
    refine ⟨_, bytes, _, [], rfl, rfl, ?_, token.skip, rfl, List.nil_suffix, Or.inl ⟨rfl, rfl⟩⟩
    simpa using token.holds
  | cons d rest =>
    have stop : d ∈ delims := by
      have stop := List.head?_dropWhile_not (· ∉ delims) (text.dropWhile (· ∈ delims))
      rw [found] at stop
      simpa using stop
    have ending : d :: rest <:+ text := by
      rw [← found]
      exact (List.dropWhile_suffix _).trans (List.dropWhile_suffix _)
    rw [found] at token
    have inside := token.holds.inside
    rw [List.length_append, List.length_cons] at inside
    obtain ⟨ended, later⟩ := token.cut
    refine ⟨_, _, _, rest, ?_, List.length_set .., ended.holds, later, rfl,
      (List.suffix_cons d rest).trans ending, Or.inr ⟨rfl, d, stop, ending⟩⟩
    rw [if_neg (List.cons_ne_nil d rest), write_ok (by omega)]
    rfl

theorem strtok_some (at_ : s.or save = some p) (holds : Holds bytes p text)
    (found : words delims text = w :: ws) :
    ∃ first bytes' next rest, strtok delims s ⟨bytes, save⟩ = .ok (some first, ⟨bytes', some next⟩) ∧
      Holds bytes' first w ∧ Holds bytes' next rest ∧ words delims rest = ws := by
  obtain ⟨behind, spans⟩ := holds.spans
  obtain ⟨first, bytes', next, rest, ran, -, token, later, left, -⟩ :=
    strtok_spans at_ spans found
  exact ⟨first, bytes', next, rest, ran, token, later.holds, left⟩

/-- When there is no word more, the scan is at the end. -/
theorem strtok_exhausted (ran : strtok delims s t = .ok (none, t')) :
    ∃ p, t'.save = some p ∧ Holds t'.bytes p [] := by
  cases at_ : s.or t.save with
  | none =>
    simp only [strtok, at_] at ran
    cases ran
  | some start =>
  simp only [strtok, at_, ok_bind] at ran
  obtain ⟨text, found, ran⟩ := bind_eq_ok.mp ran
  obtain ⟨behind, spans⟩ := (textAt_eq_ok.mp found).spans
  split at ran
  · next none =>
    cases ran
    have blank : text.takeWhile (· ∈ delims) = text :=
      List.takeWhile_eq_self_iff.mpr (List.dropWhile_eq_nil_iff.mp none)
    refine ⟨_, rfl, ?_⟩
    rw [blank]
    exact spans.ending.holds
  · split at ran
    · cases ran
    · obtain ⟨bytes, -, ran⟩ := bind_eq_ok.mp ran
      cases ran

/-- Some delimiters between two positions have been overwritten. -/
structure Ended (delims : List Char) (p q : Nat) (bytes bytes' : List Char) : Prop where
  length : bytes'.length = bytes.length
  byte : ∀ i, bytes'[i]? = bytes[i]? ∨
    (p ≤ i ∧ i < q) ∧ (∃ d ∈ delims, bytes[i]? = some d) ∧ bytes'[i]? = some nul

theorem Ended.refl (bytes : List Char) : Ended delims p q bytes bytes := ⟨rfl, fun _ => Or.inl rfl⟩

theorem Ended.trans (first : Ended delims p q bytes bytes') (second : Ended delims p q bytes' bytes'') :
    Ended delims p q bytes bytes'' where
  length := second.length.trans first.length
  byte i := by
    obtain same | ended := second.byte i
    · rw [same]
      exact first.byte i
    · obtain ⟨between, delim, ending⟩ := ended
      obtain same | ⟨-, delim', -⟩ := first.byte i
      · exact Or.inr ⟨between, same ▸ delim, ending⟩
      · exact Or.inr ⟨between, delim', ending⟩

theorem Ended.weaken (ended : Ended delims p' q' bytes bytes') (left : p ≤ p') (right : q' ≤ q) :
    Ended delims p q bytes bytes' where
  length := ended.length
  byte i := (ended.byte i).imp_right fun ⟨⟨low, high⟩, delim⟩ => ⟨⟨by omega, by omega⟩, delim⟩

/-- A string with its terminator is not touched by what happens elsewhere. -/
theorem Holds.unchanged (holds : Holds bytes p text)
    (same : ∀ i, p ≤ i → i ≤ p + text.length → bytes'[i]? = bytes[i]?) : Holds bytes' p text := by
  obtain ⟨whole, after, split⟩ := holds
  have front : (bytes'.drop p).take (text.length + 1) = text ++ [nul] := by
    have own : (bytes.drop p).take (text.length + 1) = text ++ [nul] := by
      rw [split, List.append_cons, List.take_left' (by simp)]
    rw [← own]
    apply List.ext_getElem?
    intro i
    rw [List.getElem?_take, List.getElem?_take]
    split
    · rw [List.getElem?_drop, List.getElem?_drop, same (p + i) (by omega) (by omega)]
    · rfl
  refine ⟨whole, (bytes'.drop p).drop (text.length + 1), ?_⟩
  rw [List.append_cons, ← front, List.take_append_drop]

/-- One write of the terminator over a delimiter. -/
theorem ended_set (inside : p ≤ i ∧ i < q) (delim : d ∈ delims) (there : bytes[i]? = some d) :
    Ended delims p q bytes (bytes.set i nul) where
  length := List.length_set ..
  byte j := by
    by_cases same : i = j
    · subst same
      obtain ⟨low, -⟩ := List.getElem?_eq_some_iff.mp there
      exact Or.inr ⟨inside, ⟨d, delim, there⟩, List.getElem?_set_self low⟩
    · exact Or.inl (List.getElem?_set_ne same)

/-- The first word and where the scan goes on. The string at the pointer is now that
word with the delimiters in front of it. -/
theorem strtok_ended (at_ : s.or save = some p) (spans : Spans bytes p text behind)
    (found : words delims text = w :: ws) :
    ∃ first bytes' next rest, strtok delims s ⟨bytes, save⟩ = .ok (some first, ⟨bytes', some next⟩) ∧
      Ended delims p (p + text.length) bytes bytes' ∧ Holds bytes' first w ∧
      Spans bytes' next rest behind ∧ words delims rest = ws ∧ next + rest.length = p + text.length ∧
      Holds bytes' p (text.takeWhile (· ∈ delims) ++ w) ∧
      (rest = [] ∨ p + (text.takeWhile (· ∈ delims) ++ w).length < next) := by
  obtain ⟨-, none⟩ | ⟨nonempty, word⟩ := words_dropWhile_cases delims text
  · rw [none] at found
    cases found
  rw [word] at found
  obtain ⟨rfl, rfl⟩ := List.cons.inj found
  have front := List.takeWhile_append_dropWhile (p := (· ∈ delims)) (l := text)
  have after := List.takeWhile_append_dropWhile (p := (· ∉ delims))
    (l := text.dropWhile (· ∈ delims))
  simp only [strtok, at_, spans.holds.textAt, bind, Except.bind, if_neg nonempty]
  generalize text.takeWhile (· ∈ delims) = lead at *
  generalize (text.dropWhile (· ∈ delims)).takeWhile (· ∉ delims) = w at *
  cases ending : (text.dropWhile (· ∈ delims)).dropWhile (· ∉ delims) with
  | nil =>
    rw [ending, List.append_nil] at after
    rw [← after] at front
    subst front
    refine ⟨_, bytes, _, [], rfl, .refl bytes, spans.holds.skip lead, ?_, rfl, ?_, spans.holds, Or.inl rfl⟩
    · rw [Nat.add_assoc, ← List.length_append]
      exact spans.ending
    · rw [List.length_nil, List.length_append, Nat.add_zero, Nat.add_assoc]
  | cons d rest =>
    have stop : d ∈ delims := by
      have stop := List.head?_dropWhile_not (· ∉ delims) (text.dropWhile (· ∈ delims))
      rw [ending] at stop
      simpa using stop
    rw [ending] at after
    rw [← after, ← List.append_assoc] at front
    subst front
    obtain ⟨ended, later⟩ := spans.cut (lead ++ w)
    have inside := spans.holds.inside
    simp only [List.length_append, List.length_cons, ← Nat.add_assoc] at ended later inside ⊢
    have there : bytes[p + lead.length + w.length]? = some d := by
      rw [Nat.add_assoc, ← List.getElem?_drop, spans.2, ← List.length_append]
      simp
    refine ⟨p + lead.length, _, p + lead.length + w.length + 1, rest, ?_,
      ended_set (by omega) stop there, ended.holds.skip lead, later, rfl, by omega, ended.holds,
      Or.inr (by omega)⟩
    rw [if_neg (List.cons_ne_nil d rest), write_ok (by omega)]
    rfl

/-- What a token pointer and the tokenizer say about the words still to come. -/
def At (delims : List Char) (pch : Option Nat) (t : Tokenizer) : List (List Char) → Prop
  | [] => pch = none
  | w :: ws => ∃ first next rest, pch = some first ∧ Holds t.bytes first w ∧ t.save = some next ∧
      Holds t.bytes next rest ∧ words delims rest = ws

/-- One call goes on to the next word. -/
theorem strtok_at (delims : List Char) (at_ : s.or save = some p) (holds : Holds bytes p text) :
    ∃ pch t, strtok delims s ⟨bytes, save⟩ = .ok (pch, t) ∧ At delims pch t (words delims text) := by
  cases found : words delims text with
  | nil => exact ⟨_, _, strtok_none at_ holds found, rfl⟩
  | cons w ws =>
    obtain ⟨first, bytes', next, rest, ran, token, later, same⟩ := strtok_some at_ holds found
    exact ⟨_, _, ran, first, next, rest, rfl, token, rfl, later, same⟩

end

/-! ### Copying -/

section
variable {dest rest text old : List Char}

theorem holds_front (whole : nul ∉ text) (rest : List Char) : Holds (text ++ nul :: rest) 0 text :=
  ⟨whole, rest, rfl⟩

theorem strcpy_front (inside : text.length < dest.length) :
    strcpy dest 0 text = .ok (text ++ nul :: dest.drop (text.length + 1)) := by
  rw [strcpy, if_pos (by omega)]
  simp

theorem strcpy_behind (old : List Char) (room : text.length ≤ rest.length) :
    strcpy (old ++ nul :: rest) old.length text =
      .ok (old ++ text ++ nul :: rest.drop text.length) := by
  have length : (old ++ nul :: rest).length = old.length + (rest.length + 1) := by simp
  have behind : (old ++ nul :: rest).drop (old.length + text.length + 1) = rest.drop text.length := by
    rw [Nat.add_assoc, List.drop_append]
    simp [List.drop_eq_nil_of_le]
  rw [strcpy, if_pos (by omega), behind, List.take_left]

theorem strcat_front (whole : nul ∉ old) (text : List Char) (room : text.length ≤ rest.length) :
    strcat (old ++ nul :: rest) text = .ok (old ++ text ++ nul :: rest.drop text.length) := by
  rw [strcat, (holds_front whole rest).textAt, ok_bind, strcpy_behind old room]

/-- What is appended goes over what is behind the string. -/
theorem Spans.strcatAt {bytes behind : List Char} {p : Nat} (spans : Spans bytes p old behind)
    (whole : nul ∉ text) (room : text.length ≤ behind.length) :
    ∃ bytes', strcatAt bytes p text = .ok bytes' ∧
      Spans bytes' p (old ++ text) (behind.drop text.length) ∧ bytes'.length = bytes.length ∧
      ∀ i, i < p ∨ p + (old ++ text).length < i → bytes'[i]? = bytes[i]? := by
  have size := congrArg List.length spans.2
  simp only [List.length_drop, List.length_append, List.length_cons] at size
  have front : (bytes.take p).length = p := List.length_take_of_le (by omega)
  have split : bytes = (bytes.take p ++ old) ++ nul :: behind := by
    rw [List.append_assoc, ← spans.2, List.take_append_drop]
  have copied := strcpy_behind (bytes.take p ++ old) room
  rw [← split, List.length_append, front, List.append_assoc (bytes.take p),
    List.append_assoc (bytes.take p)] at copied
  refine ⟨bytes.take p ++ ((old ++ text) ++ nul :: behind.drop text.length), ?_,
    ⟨fun member => (List.mem_append.mp member).elim spans.1 whole, List.drop_left' front⟩, ?_, ?_⟩
  · rw [CString.strcatAt, spans.holds.textAt, ok_bind]
    exact copied
  · simp only [List.length_append, List.length_cons, List.length_drop, front]
    omega
  · rintro i (before | later)
    · rw [List.getElem?_append_left (by omega), List.getElem?_take_of_lt before]
    · rw [List.length_append] at later
      obtain ⟨j, rfl⟩ := Nat.exists_eq_add_of_lt later
      have place : p + (old.length + text.length) + j + 1 = p + (old.length + (text.length + j + 1)) := by
        omega
      rw [place, ← List.getElem?_drop, ← List.getElem?_drop (i := p), spans.2,
        List.drop_left' front, List.append_assoc]
      simp only [Nat.add_assoc, List.getElem?_append_right (Nat.le_add_right _ _),
        Nat.add_sub_cancel_left]
      simp [← Nat.add_assoc]

/-- What `strcpy` returns when it stays within its array. -/
theorem strcpy_holds (whole : nul ∉ text) (ran : strcpy dest 0 text = .ok dest') :
    Holds dest' 0 text := by
  by_cases inside : text.length < dest.length
  · rw [strcpy_front inside] at ran
    cases ran
    exact holds_front whole _
  · rw [strcpy, Nat.zero_add, if_neg inside] at ran
    cases ran

/-- What `strcat` returns when it stays within its array. -/
theorem strcat_holds (whole : nul ∉ text) (ran : strcat dest text = .ok dest') :
    ∃ old, Holds dest 0 old ∧ Holds dest' 0 (old ++ text) := by
  obtain ⟨old, found, copied⟩ := bind_eq_ok.mp ran
  obtain ⟨wholeOld, rest, same⟩ := textAt_eq_ok.mp found
  refine ⟨old, ⟨wholeOld, rest, same⟩, ?_⟩
  rw [List.drop_zero] at same
  subst same
  have room : text.length ≤ rest.length := by
    rw [strcpy] at copied
    split at copied
    · next inside =>
      simp only [List.length_append, List.length_cons] at inside
      omega
    · cases copied
  rw [strcpy_behind old room] at copied
  cases copied
  refine holds_front (fun member => ?_) _
  obtain front | back := List.mem_append.mp member
  · exact wholeOld front
  · exact whole back

/-- A copy of exactly the characters of the source ends in no terminator. -/
theorem strncpy_exact (dest first rest : List Char) (inside : first.length ≤ dest.length) :
    strncpy dest (first ++ rest) first.length = .ok (first ++ dest.drop first.length) := by
  rw [strncpy, if_pos inside]
  simp

/-! ### Finding -/

theorem strstr_some (found : strstr text part = some loc) :
    ∃ before behind, text = before ++ part ++ behind ∧ before.length = loc := by
  induction text generalizing loc with
  | nil =>
    rw [strstr] at found
    split at found
    · next empty =>
      cases found
      exact ⟨[], [], by simp [empty], rfl⟩
    · cases found
  | cons c text ih =>
    rw [strstr] at found
    split at found
    · next front =>
      cases found
      obtain ⟨behind, same⟩ := List.isPrefixOf_iff_prefix.mp front
      exact ⟨[], behind, same.symm, rfl⟩
    · obtain ⟨i, later, rfl⟩ := Option.map_eq_some_iff.mp found
      obtain ⟨before, behind, rfl, rfl⟩ := ih later
      exact ⟨c :: before, behind, rfl, rfl⟩

theorem strstr_eq_none_iff : strstr text part = none ↔ ∀ i, ¬ part <+: text.drop i := by
  induction text with
  | nil =>
    rw [strstr]
    split
    · next empty => simp [empty]
    · next nonempty => simpa using nonempty
  | cons c text ih =>
    rw [strstr]
    split
    · next front =>
      have here := List.isPrefixOf_iff_prefix.mp front
      refine ⟨nofun, fun absent => absurd here (absent 0)⟩
    · next other =>
      rw [Option.map_eq_none_iff, ih]
      constructor
      · rintro absent (_ | i)
        · exact fun here => other (List.isPrefixOf_iff_prefix.mpr here)
        · exact absent i
      · exact fun absent i => absent (i + 1)

/-- The first place is found. -/
theorem strstr_eq_some_iff : strstr text part = some loc ↔
    part <+: text.drop loc ∧ ∀ i < loc, ¬ part <+: text.drop i := by
  induction text generalizing loc with
  | nil =>
    rw [strstr]
    split
    · next empty =>
      subst empty
      simp only [Option.some.injEq, List.nil_prefix, not_true_eq_false, true_and]
      exact ⟨fun same i before => by omega, fun none => not_not.mp fun other => none 0 (by omega)⟩
    · next nonempty => simp [nonempty]
  | cons c text ih =>
    rw [strstr]
    split
    · next front =>
      have here := List.isPrefixOf_iff_prefix.mp front
      constructor
      · rintro ⟨⟩
        exact ⟨here, nofun⟩
      · rintro ⟨-, none⟩
        cases loc with
        | zero => rfl
        | succ loc => exact absurd here (none 0 loc.succ_pos)
    · next other =>
      have absent : ¬ part <+: (c :: text).drop 0 :=
        fun here => other (List.isPrefixOf_iff_prefix.mpr here)
      cases loc with
      | zero => simpa using absent
      | succ loc =>
        rw [Option.map_eq_some_iff]
        simp only [Nat.add_right_cancel_iff, exists_eq_right, ih, List.drop_succ_cons]
        refine and_congr_right fun _ => ⟨fun none i before => ?_, fun none i before => ?_⟩
        · cases i with
          | zero => exact absent
          | succ i => exact none i (Nat.lt_of_succ_lt_succ before)
        · exact none (i + 1) (Nat.succ_lt_succ before)

theorem strstr_front (nonempty : part ≠ []) (behind : List Char) :
    strstr (part ++ behind) part = some 0 := by
  cases part with
  | nil => exact absurd rfl nonempty
  | cons c part =>
    rw [List.cons_append, strstr, if_pos]
    exact List.isPrefixOf_iff_prefix.mpr ⟨behind, rfl⟩

end

end Comp304.Library.CString
