import Comp304.Shell.Repl

/-! The two functions on texts that the commands share. `read_from_file` appends to
a block it has not cleared, so what it returns depends on the first byte there.
`replace` writes over the text it reads, and still a chain of calls computes what
the same substitutions on lists do. -/
namespace Comp304.Shell
open Library Library.CString Library.Budget

/-! ### Reading a file -/

/-- A file that fits `str` and has no zero byte, and what the two blocks hold. -/
structure Reading where
  line : List Char
  str : List Char
  text : List Char
  line_size : line.length = lineSize
  str_size : str.length = 40000
  whole : nul ∉ text
  fits : text.length < 40000

namespace Reading

/-- No write is outside the blocks, and the text of the file is returned. -/
def Faithful (r : Reading) : Prop :=
  ∃ block, readFromFile r.line r.str (some r.text) = .ok (some block) ∧ Holds block 0 r.text

end Reading

/-- What is read comes behind what `str` held. -/
theorem readLoop_behind (whole : nul ∉ text) (ran : readLoop rounds line str text = .ok block)
    (holds : Holds block 0 all) : ∃ old, Holds str 0 old ∧ all = old ++ text := by
  induction rounds generalizing line str text with
  | zero => cases ran
  | succ rounds ih =>
    cases text with
    | nil =>
      cases ran
      exact ⟨all, holds, (List.append_nil all).symm⟩
    | cons c text =>
      obtain ⟨chunk, left, read, parts, -, -⟩ := fgets_append c text
      rw [parts, List.mem_append, not_or] at whole
      rw [readLoop, read] at ran
      obtain ⟨line', copied, ran⟩ := bind_eq_ok.mp ran
      obtain ⟨text', found, ran⟩ := bind_eq_ok.mp ran
      obtain ⟨str', joined, ran⟩ := bind_eq_ok.mp ran
      obtain ⟨old', holds', rfl⟩ := ih whole.2 ran
      have chunkRead : chunk = text' := (strcpy_holds whole.1 copied).unique (textAt_eq_ok.mp found)
      subst chunkRead
      obtain ⟨old, before, after⟩ := strcat_holds whole.1 joined
      refine ⟨old, before, ?_⟩
      rw [parts, ← List.append_assoc, holds'.unique after]

namespace Reading

theorem clear_of_faithful {r : Reading} (faithful : r.Faithful) : r.str.head? = some nul := by
  obtain ⟨block, ran, holds⟩ := faithful
  rw [readFromFile] at ran
  cases looped : readLoop (r.text.length + 1) r.line r.str r.text with
  | error stop =>
    rw [looped] at ran
    cases ran
  | ok block' =>
    rw [looped] at ran
    cases ran
    obtain ⟨old, before, same⟩ := readLoop_behind r.whole looped holds
    obtain rfl : old = [] := List.self_eq_append_left.mp same
    obtain ⟨-, after, same⟩ := before
    rw [List.drop_zero] at same
    rw [same]
    rfl

/-- `read_from_file` is faithful exactly when the block it appends to begins with a zero. -/
theorem faithful_iff (r : Reading) : r.Faithful ↔ r.str.head? = some nul :=
  ⟨clear_of_faithful, fun clear => readFromFile_text r.line_size r.str_size r.whole clear r.fits⟩

/-- A file with the line `l;ls`, and a block with an `x` in front. -/
def uncleared : Reading where
  line := .replicate 2000 nul
  str := 'x' :: .replicate 39999 nul
  text := "l;ls\n".toList
  line_size := List.length_replicate
  str_size := by rw [List.length_cons, List.length_replicate]
  whole := by decide
  fits := by decide

theorem uncleared_is_not_faithful : ¬ uncleared.Faithful := by
  intro faithful
  cases clear_of_faithful faithful

end Reading

/-! ### Chains of replacements -/

/-- A word, what is put in for it, and where in a text, if anywhere. -/
structure Rewriter where
  orig : List Char
  rep : List Char
  loc : List Char → Option Nat
  nonempty : orig ≠ []
  rep_plain : nul ∉ rep
  occurs : ∀ text i, loc text = some i → orig <+: text.drop i

namespace Rewriter

/-- The substitution on a list. -/
def rewrite (r : Rewriter) (text : List Char) : List Char :=
  match r.loc text with
  | none => text
  | some i => text.take i ++ r.rep ++ text.drop (i + r.orig.length)

/-- The call of `replace` for the line at a place. -/
def call (r : Rewriter) (statics : Statics) (str : Place) : Except Fault (Statics × Place) := do
  let text ← textAt (str.bytes statics.buffer) 0
  match r.loc text with
  | none => return (statics, str)
  | some i => do
    let statics ← replace statics str r.orig r.rep i
    return (statics, .buffer)

/-- What is put in leaves the text within its array. -/
def Fits (r : Rewriter) (text : List Char) : Prop :=
  r.loc text ≠ none → (r.rewrite text).length < 4096

theorem split (r : Rewriter) (found : r.loc text = some i) :
    ∃ before behind, text = before ++ r.orig ++ behind ∧ i = before.length ∧
      r.rewrite text = before ++ r.rep ++ behind := by
  have here := r.occurs text i found
  have positive := List.length_pos_iff.mpr r.nonempty
  have inside := here.length_le
  rw [List.length_drop] at inside
  obtain ⟨behind, same⟩ := here
  refine ⟨text.take i, behind, ?_, ?_, ?_⟩
  · rw [List.append_assoc, same, List.take_append_drop]
  · rw [List.length_take]
    omega
  · simp only [rewrite, found]
    rw [← List.drop_drop, ← same, List.drop_left]

end Rewriter

/-- The calls one after another. -/
def chain : List Rewriter → Statics → Place → Except Fault (Statics × Place)
  | [], statics, str => .ok (statics, str)
  | r :: rs, statics, str => do
    let (statics, str) ← r.call statics str
    chain rs statics str

def rewriteAll (rs : List Rewriter) (text : List Char) : List Char :=
  rs.foldl (fun text r => r.rewrite text) text

/-- Every text on the way stays within its array. -/
def ChainFits : List Rewriter → List Char → Prop
  | [], _ => True
  | r :: rs, text => r.Fits text ∧ ChainFits rs (r.rewrite text)

def Statics.Sized (statics : Statics) : Prop :=
  statics.buffer.length = 4096 ∧ statics.buffer2.length = 4096

section
variable {statics : Statics} {str : Place} {r : Rewriter} {rs : List Rewriter}

/-- `replace` returns only a text that fits. -/
theorem replace_fits (holds : Holds (str.bytes statics.buffer) 0 (before ++ orig ++ behind))
    (nonempty : orig ≠ []) (size : statics.buffer.length = 4096)
    (ran : replace statics str orig rep before.length = .ok statics') :
    (before ++ rep ++ behind).length < 4096 := by
  have later := holds_behind holds nonempty
  rw [List.append_assoc] at holds
  rw [replace, holds.textAt, ok_bind] at ran
  obtain ⟨copy, copied, ran⟩ := bind_eq_ok.mp ran
  obtain ⟨buffer, ended, ran⟩ := bind_eq_ok.mp ran
  have inside : before.length ≤ statics.buffer.length := by
    rw [strncpy] at copied
    split at copied
    · assumption
    · cases copied
  rw [strncpy_exact _ _ _ inside] at copied
  cases copied
  have room : before.length < statics.buffer.length := by
    rw [write] at ended
    split at ended
    · next room =>
      simp only [List.length_append, List.length_drop] at room
      omega
    · cases ended
  rw [write_ok (by simp; omega), set_behind _ room] at ended
  cases ended
  rw [later.textAt, ok_bind] at ran
  obtain ⟨buffer2, saved, ran⟩ := bind_eq_ok.mp ran
  rw [(strcpy_holds later.1 saved).textAt, ok_bind] at ran
  obtain ⟨buffer', joined, -⟩ := bind_eq_ok.mp ran
  rw [strcpy] at joined
  split at joined
  · next inside =>
    simp only [List.length_append, List.length_cons, List.length_drop] at inside ⊢
    omega
  · cases joined

/-- One call computes the substitution. -/
theorem Rewriter.call_text (sized : statics.Sized) (holds : Holds (str.bytes statics.buffer) 0 text)
    (fits : r.Fits text) :
    ∃ statics' str', r.call statics str = .ok (statics', str') ∧ statics'.Sized ∧
      Holds (str'.bytes statics'.buffer) 0 (r.rewrite text) := by
  rw [call, holds.textAt, ok_bind]
  cases found : r.loc text with
  | none =>
    refine ⟨statics, str, rfl, sized, ?_⟩
    simp only [rewrite, found]
    exact holds
  | some i =>
    have short := fits (by rw [found]; exact Option.some_ne_none i)
    obtain ⟨before, behind, rfl, rfl, same⟩ := r.split found
    rw [same] at short ⊢
    obtain ⟨statics', ran, holds', size, size2⟩ :=
      replace_text holds r.nonempty r.rep_plain sized.1 sized.2 short
    refine ⟨statics', .buffer, ?_, ⟨size, size2⟩, holds'⟩
    simp only [ran, ok_bind]
    rfl

theorem Rewriter.call_fits (sized : statics.Sized)
    (holds : Holds (str.bytes statics.buffer) 0 text) (ran : r.call statics str = .ok result) :
    r.Fits text := by
  intro present
  rw [call, holds.textAt, ok_bind] at ran
  cases found : r.loc text with
  | none => exact absurd found present
  | some i =>
    simp only [found] at ran
    obtain ⟨statics', replaced, -⟩ := bind_eq_ok.mp ran
    obtain ⟨before, behind, rfl, rfl, same⟩ := r.split found
    rw [same]
    exact replace_fits holds r.nonempty sized.1 replaced

theorem chain_text (sized : statics.Sized) (holds : Holds (str.bytes statics.buffer) 0 text)
    (fits : ChainFits rs text) :
    ∃ statics' str', chain rs statics str = .ok (statics', str') ∧
      Holds (str'.bytes statics'.buffer) 0 (rewriteAll rs text) := by
  induction rs generalizing statics str text with
  | nil => exact ⟨statics, str, rfl, holds⟩
  | cons r rs ih =>
    obtain ⟨statics', str', ran, sized', holds'⟩ := Rewriter.call_text sized holds fits.1
    obtain ⟨statics'', str'', looped, holds''⟩ := ih sized' holds' fits.2
    refine ⟨statics'', str'', ?_, holds''⟩
    rw [chain, ran, ok_bind]
    exact looped

theorem chain_fits (sized : statics.Sized) (holds : Holds (str.bytes statics.buffer) 0 text)
    (ran : chain rs statics str = .ok result) : ChainFits rs text := by
  induction rs generalizing statics str text with
  | nil => exact True.intro
  | cons r rs ih =>
    obtain ⟨next, called, ran⟩ := bind_eq_ok.mp ran
    have fits := Rewriter.call_fits sized holds called
    obtain ⟨statics', str', same, sized', holds'⟩ := Rewriter.call_text sized holds fits
    cases same.symm.trans called
    exact ⟨fits, ih sized' holds' ran⟩

/-- A chain that returns has computed the substitutions. -/
theorem chain_returns (sized : statics.Sized) (holds : Holds (str.bytes statics.buffer) 0 text)
    (ran : chain rs statics str = .ok (statics', str')) :
    Holds (str'.bytes statics'.buffer) 0 (rewriteAll rs text) := by
  obtain ⟨_, _, same, holds'⟩ := chain_text sized holds (chain_fits sized holds ran)
  cases same.symm.trans ran
  exact holds'

end

/-! ### The loops of the shell as chains -/

/-- What `repl` looks for in each round. -/
def WordPair.rewriter (p : WordPair) : Rewriter where
  orig := p.orig
  rep := p.rep
  loc text := strstr text p.orig
  nonempty := p.nonempty
  rep_plain := p.rep_plain
  occurs _ _ found := (strstr_eq_some_iff.mp found).1

theorem replLoop_chain {p : WordPair} (ran : replLoop p.orig p.rep rounds statics str = .ok result) :
    chain (List.replicate rounds p.rewriter) statics str = .ok result := by
  induction rounds generalizing statics str with
  | zero => cases ran
  | succ rounds ih =>
    rw [replLoop] at ran
    obtain ⟨current, read, ran⟩ := bind_eq_ok.mp ran
    cases found : strstr current p.orig with
    | none =>
      simp only [found] at ran
      cases ran
      -- nothing is found in the remaining rounds either
      have stays : p.rewriter.call statics str = .ok (statics, str) := by
        rw [Rewriter.call, read, ok_bind]
        simp only [WordPair.rewriter, found]
        rfl
      have all (n : Nat) : chain (List.replicate n p.rewriter) statics str = .ok (statics, str) := by
        induction n with
        | zero => rfl
        | succ n ih =>
          rw [List.replicate_succ, chain, stays, ok_bind]
          exact ih
      exact all _
    | some loc =>
      simp only [found] at ran
      obtain ⟨statics', replaced, ran⟩ := bind_eq_ok.mp ran
      have called : p.rewriter.call statics str = .ok (statics', .buffer) := by
        rw [Rewriter.call, read, ok_bind]
        simp only [WordPair.rewriter, found, replaced, ok_bind]
        rfl
      rw [List.replicate_succ, chain, called, ok_bind]
      exact ih ran

/-- Where `check_for_aliases` replaces. -/
def wordAt (orig text : List Char) : Option Nat :=
  match strstr text orig with
  | some loc => if loc = 0 ∨ text[loc - 1]? = some ' ' then some loc else none
  | none => none

theorem wordAt_found (found : strstr text orig = some loc) :
    wordAt orig text = if loc = 0 ∨ text[loc - 1]? = some ' ' then some loc else none := by
  rw [wordAt, found]

theorem wordAt_absent (absent : strstr text orig = none) : wordAt orig text = none := by
  rw [wordAt, absent]

theorem wordAt_occurs (found : wordAt orig text = some i) : orig <+: text.drop i := by
  cases there : strstr text orig with
  | none => cases (wordAt_absent there).symm.trans found
  | some loc =>
    rw [wordAt_found there] at found
    split at found
    · cases found
      exact (strstr_eq_some_iff.mp there).1
    · cases found

/-- One pair of `check_for_aliases`, for what its arrays hold then. -/
theorem Expansion.step_call {e e' : Expansion} (ran : e.step token = .ok e') :
    ∃ r : Rewriter, r.loc = wordAt r.orig ∧ Holds e'.aliasName 0 r.orig ∧ Holds e'.comm 0 r.rep ∧
      r.call e.statics e.tempBuf = .ok (e'.statics, e'.tempBuf) := by
  rw [Expansion.step] at ran
  obtain ⟨index, separator⟩ : ∃ index, token.idxOf? ';' = some index := by
    cases separator : token.idxOf? ';' with
    | none =>
      rw [separator] at ran
      cases ran
    | some index => exact ⟨index, rfl⟩
  simp only [separator, ok_bind] at ran
  obtain ⟨copy, -, ran⟩ := bind_eq_ok.mp ran
  obtain ⟨commCopy, -, ran⟩ := bind_eq_ok.mp ran
  obtain ⟨comm, commJoined, ran⟩ := bind_eq_ok.mp ran
  obtain ⟨aliasName, joined, ran⟩ := bind_eq_ok.mp ran
  obtain ⟨orig, named, ran⟩ := bind_eq_ok.mp ran
  obtain ⟨text, read, ran⟩ := bind_eq_ok.mp ran
  have blank : nul ∉ [' '] := by decide
  obtain ⟨_, -, commHolds⟩ := strcat_holds blank commJoined
  obtain ⟨old, -, nameHolds⟩ := strcat_holds blank joined
  obtain rfl : orig = old ++ [' '] := (textAt_eq_ok.mp named).unique nameHolds
  refine ⟨⟨_, _, wordAt (old ++ [' ']), by simp, commHolds.1, fun _ _ => wordAt_occurs⟩, rfl, ?_⟩
  rw [Rewriter.call, ← Expansion.bytes, read, ok_bind]
  cases found : strstr text (old ++ [' ']) with
  | none =>
    simp only [found] at ran
    cases ran
    simp only [wordAt_absent found]
    exact ⟨nameHolds, commHolds, rfl⟩
  | some loc =>
    simp only [found] at ran
    simp only [wordAt_found found]
    by_cases word : loc = 0 ∨ text[loc - 1]? = some ' '
    · rw [if_pos word] at ran ⊢
      obtain ⟨rep, put, ran⟩ := bind_eq_ok.mp ran
      obtain ⟨statics, replaced, ran⟩ := bind_eq_ok.mp ran
      cases ran
      obtain rfl := (textAt_eq_ok.mp put).unique commHolds
      refine ⟨nameHolds, commHolds, ?_⟩
      simp only [replaced, ok_bind]
      rfl
    · rw [if_neg word] at ran ⊢
      cases ran
      exact ⟨nameHolds, commHolds, rfl⟩

/-- The loop has gone through the pairs from `pch` on, with one rewriter for each: it
looks for what `alias` holds after this pair and puts in what `comm` holds. -/
inductive Walked : Option Nat → Tokenizer → Expansion → List Rewriter → Expansion → Prop
  | done : Walked none t e [] e
  | pair (read : textAt t.bytes pch = .ok token) (stepped : e.step token = .ok next)
      (word : r.loc = wordAt r.orig) (orig : Holds next.aliasName 0 r.orig)
      (rep : Holds next.comm 0 r.rep) (scanned : strtok ['\n'] none t = .ok (pch', t'))
      (rest : Walked pch' t' next rs e') : Walked (some pch) t e (r :: rs) e'

theorem expandLoop_chain {e e' : Expansion} (ran : expandLoop rounds pch t e = .ok e') :
    ∃ rs : List Rewriter, Walked pch t e rs e' ∧
      chain rs e.statics e.tempBuf = .ok (e'.statics, e'.tempBuf) := by
  induction rounds generalizing pch t e with
  | zero => cases ran
  | succ rounds ih =>
    cases pch with
    | none =>
      cases ran
      exact ⟨[], .done, rfl⟩
    | some pch =>
      obtain ⟨token, read, ran⟩ := bind_eq_ok.mp ran
      obtain ⟨next, stepped, ran⟩ := bind_eq_ok.mp ran
      obtain ⟨⟨pch', t'⟩, scanned, ran⟩ := bind_eq_ok.mp ran
      obtain ⟨r, word, orig, rep, called⟩ := Expansion.step_call stepped
      obtain ⟨rs, walked, looped⟩ := ih ran
      refine ⟨r :: rs, .pair read stepped word orig rep scanned walked, ?_⟩
      rw [chain, called, ok_bind]
      exact looped

/-! ### `replace` is correct -/

/-- A call replaces the word and leaves arrays for another one, a chain of calls computes
the substitutions, and so do the loops of `repl` and `check_for_aliases`. -/
structure ReplaceCorrect (statics : Statics) : Prop where
  call : ∀ (str : Place) (before orig behind rep : List Char),
    Holds (str.bytes statics.buffer) 0 (before ++ orig ++ behind) → orig ≠ [] → nul ∉ rep →
      (before ++ rep ++ behind).length < 4096 →
        ∃ statics', replace statics str orig rep before.length = .ok statics' ∧
          Holds statics'.buffer 0 (before ++ rep ++ behind) ∧ statics'.Sized
  chained : ∀ (rs : List Rewriter) (str : Place) (text : List Char),
    Holds (str.bytes statics.buffer) 0 text → ChainFits rs text →
      ∃ statics' str', chain rs statics str = .ok (statics', str') ∧
        Holds (str'.bytes statics'.buffer) 0 (rewriteAll rs text)
  repl : ∀ (p : WordPair) (rounds : Nat) (str : Place) (text : List Char) (statics' : Statics)
    (str' : Place), Holds (str.bytes statics.buffer) 0 text →
      replLoop p.orig p.rep rounds statics str = .ok (statics', str') →
        Holds (str'.bytes statics'.buffer) 0
          (rewriteAll (List.replicate rounds p.rewriter) text)
  aliases : ∀ (e e' : Expansion) (rounds : Nat) (pch : Option Nat) (t : Tokenizer)
    (text : List Char), e.statics = statics → Holds e.bytes 0 text →
      expandLoop rounds pch t e = .ok e' →
        ∃ rs : List Rewriter, Walked pch t e rs e' ∧
          chain rs statics e.tempBuf = .ok (e'.statics, e'.tempBuf) ∧
            Holds e'.bytes 0 (rewriteAll rs text)

theorem replace_correct (size : statics.buffer.length = 4096)
    (size2 : statics.buffer2.length = 4096) : ReplaceCorrect statics where
  call str before orig behind rep holds nonempty whole fits := by
    obtain ⟨statics', ran, holds', sized⟩ := replace_text holds nonempty whole size size2 fits
    exact ⟨statics', ran, holds', sized⟩
  chained rs str text holds fits := chain_text ⟨size, size2⟩ holds fits
  repl p rounds str text statics' str' holds ran :=
    chain_returns ⟨size, size2⟩ holds (replLoop_chain ran)
  aliases e e' rounds pch t text same holds ran := by
    subst same
    obtain ⟨rs, walked, chained⟩ := expandLoop_chain ran
    exact ⟨rs, walked, chained, chain_returns ⟨size, size2⟩ holds chained⟩

/-- The word `ll` in a block of its own, and then `x` in the text that this call has left
in the buffer. -/
theorem replace_correct_two_words : ∃ statics' statics'',
    replace ⟨.replicate 4096 nul, .replicate 4096 nul⟩ (.block "ll x y\x00".toList) "ll".toList
      "ls -l".toList 0 = .ok statics' ∧ Holds statics'.buffer 0 "ls -l x y".toList ∧
    replace statics' .buffer "x".toList "src".toList 6 = .ok statics'' ∧
      Holds statics''.buffer 0 "ls -l src y".toList := by
  have correct : ReplaceCorrect ⟨.replicate 4096 nul, .replicate 4096 nul⟩ :=
    replace_correct List.length_replicate List.length_replicate
  obtain ⟨statics', first, holds, size, size2⟩ := correct.call (.block "ll x y\x00".toList) []
    "ll".toList " x y".toList "ls -l".toList ⟨by decide, [], rfl⟩ (by decide) (by decide) (by decide)
  obtain ⟨statics'', second, holds', -⟩ := (replace_correct size size2).call .buffer
    "ls -l ".toList "x".toList " y".toList "src".toList holds (by decide) (by decide) (by decide)
  exact ⟨statics', statics'', first, holds, second, holds'⟩

end Comp304.Shell
