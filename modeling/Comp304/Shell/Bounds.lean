import Comp304.Shell.Pipelines

/-! Which lines are parsed within bounds. Every redirection makes `parse_command`
write a byte too many or follow the null pointer, a long word overruns `temp_buf`,
and behind a bar that ends the line it looks behind the terminator. Nothing else goes
wrong, in a nested call neither. -/
namespace Comp304.Shell
open Library Library.CString Library.Budget

/-- The string is in its block with its terminator. -/
def Stored.Fits (s : Stored) : Prop := s.text.length < s.room

def Slot.Fits : Slot → Prop
  | .word _ => True
  | .text s => s.Fits

/-- Every string that a stage points to is within its block. -/
structure Stage.Fits (s : Stage) : Prop where
  name : s.name.Fits
  args : ∀ arg, some arg ∈ s.args → arg.Fits
  redirects : ∀ k, (s.redirects k).Fits
  redirectFiles : ∀ k, (s.redirectFiles k).Fits

def Command.Fits (c : Command) : Prop := ∀ s ∈ c.stages, s.Fits

/-- The line is parsed without a fault, whatever is behind its terminator and also if
the buffer ends there, and all strings fit. -/
def ParsedInBounds (fresh : Nat → Contents) (command : Contents) (line : List Char) : Prop :=
  ∀ after, ∃ c, parseLine fresh command line after = .ok c ∧ c.Fits

/-- The words behind a name, in a line that may end in white space. None is taken for
an operator or too long, and behind each bar there is another name or white space. -/
inductive Harmless (ended : Prop) : List (List Char) → Prop
  | nil : Harmless ended []
  | argument (plain : operator w = none) (short : w.length ≤ 1023) (other : w ≠ ['|'])
      (rest : Harmless ended ws) : Harmless ended (w :: ws)
  | bar (behind : ws ≠ [] ∨ ended) (rest : Harmless ended ws.tail) :
      Harmless ended (['|'] :: ws)

theorem Harmless.imp (harmless : Harmless ended ws) (weaker : ws ≠ [] → ended → ended') :
    Harmless ended' ws := by
  induction harmless with
  | nil => exact .nil
  | argument plain short other rest ih =>
    exact .argument plain short other (ih fun _ => weaker (List.cons_ne_nil _ _))
  | bar behind rest ih =>
    exact .bar (behind.imp_right (weaker (List.cons_ne_nil _ _)))
      (ih fun _ => weaker (List.cons_ne_nil _ _))

/-! ### What fits -/

/-- What has been stored up to now fits. -/
structure Progress.Fits (pr : Progress) : Prop where
  args : ∀ arg, some arg ∈ pr.held → arg.Fits
  redirects : ∀ k, (pr.redirects k).Fits
  redirectFiles : ∀ k, (pr.redirectFiles k).Fits
  next : ∀ c, pr.next = .inr c → c.Fits

theorem fits_stored (text : List Char) : (stored text).Fits := Nat.lt_succ_self _

/-- An argument fits, with a byte to spare when quotes are taken off. -/
theorem fits_unquote (arg : List Char) : (unquote arg).Fits := by
  rw [unquote]
  split
  · next quotes =>
    simp only [Stored.Fits, List.length_dropLast, List.length_tail]
    omega
  · exact fits_stored arg

theorem fits_start (command : Contents) : (Progress.start command).Fits where
  args _ listed := by cases listed
  redirects _ := trivial
  redirectFiles _ := trivial
  next := nofun

theorem Progress.Fits.passed {pr : Progress} (fits : pr.Fits) (arg : List Char) :
    (pr.passed (unquote arg)).Fits where
  args other listed := by
    rw [held_passed, List.mem_append] at listed
    obtain before | last := listed
    · exact fits.args other before
    · cases List.mem_singleton.mp last
      exact fits_unquote arg
  redirects := fits.redirects
  redirectFiles := fits.redirectFiles
  next := fits.next

theorem fits_staged (pr : Progress) (name : List Char) : (pr.staged (stored name)).Fits ↔
    (∀ arg, some arg ∈ pr.held → arg.Fits) ∧ (∀ k, (pr.redirects k).Fits) ∧
      ∀ k, (pr.redirectFiles k).Fits := by
  constructor
  · rintro ⟨-, args, redirects, redirectFiles⟩
    refine ⟨fun arg listed => args arg ?_, redirects, redirectFiles⟩
    exact List.mem_append_left _ (List.mem_cons_of_mem _ listed)
  · rintro ⟨args, redirects, redirectFiles⟩
    refine ⟨fits_stored name, fun arg listed => ?_, redirects, redirectFiles⟩
    simp only [Progress.staged, List.cons_append, List.mem_cons, List.mem_append] at listed
    obtain first | held | last := listed
    · cases first
      exact fits_stored name
    · exact args arg held
    · simp at last

theorem fits_iff (background autoComplete : Bool) (pr : Progress) (name : List Char) :
    Command.Fits ⟨background, autoComplete, pr.staged (stored name), pr.next⟩ ↔ pr.Fits := by
  have parts : pr.Fits ↔ (pr.staged (stored name)).Fits ∧ ∀ c, pr.next = .inr c → c.Fits := by
    rw [fits_staged]
    exact ⟨fun ⟨args, redirects, files, next⟩ => ⟨⟨args, redirects, files⟩, next⟩,
      fun ⟨⟨args, redirects, files⟩, next⟩ => ⟨args, redirects, files, next⟩⟩
  rw [Command.Fits, parts]
  cases pr.next with
  | inl word => simp [Command.stages]
  | inr c => simp [Command.stages, Command.Fits]

section
variable {pr pr' : Progress} {m m' : Machine} {fresh : Nat → Contents}
variable {nested : Nat → Contents → Machine → Except Fault (Command × Machine)}

/-- What every round preserves holds at the end. No operator waits for its file there,
and the scan is done. -/
theorem tokenLoop_preserves (Inv : Progress → Prop)
    (file : ∀ pr i w, Inv pr → pr.redirectIndex = some i → Inv (pr.takeFile i w))
    (arg : ∀ pr w pr', Inv pr → pr.takeArg w = .ok pr' → Inv pr')
    (bar : ∀ pr c, Inv pr → Inv { pr with next := .inr c })
    (ran : tokenLoop fresh nested rounds pr m = .ok (pr', m')) (inv : Inv pr) :
    Inv pr' ∧ pr'.redirectIndex = none ∧ m'.Done := by
  induction rounds generalizing pr m with
  | zero => cases ran
  | succ rounds ih =>
    rw [tokenLoop] at ran
    obtain ⟨⟨pch, t⟩, next, ran⟩ := bind_eq_ok.mp ran
    simp only at ran
    split at ran
    · cases ran
    · next i q pending =>
      obtain ⟨word, -, ran⟩ := bind_eq_ok.mp ran
      exact ih ran (file pr i word inv pending)
    · next between =>
      cases ran
      exact ⟨inv, between, strtok_exhausted next⟩
    · next q between =>
      obtain ⟨token, -, ran⟩ := bind_eq_ok.mp ran
      split at ran
      · cases ran
      split at ran
      · obtain ⟨⟨c, m₁⟩, -, ran⟩ := bind_eq_ok.mp ran
        exact ih ran (bar pr c inv)
      · obtain ⟨pr₁, taken, ran⟩ := bind_eq_ok.mp ran
        exact ih ran (arg pr _ pr₁ inv taken)

theorem tokenLoop_done (ran : tokenLoop fresh nested rounds pr m = .ok (pr', m')) : m'.Done :=
  (tokenLoop_preserves (fun _ => True) (fun _ _ _ _ _ => trivial) (fun _ _ _ _ _ => trivial)
    (fun _ _ _ => trivial) ran trivial).2.2

theorem takeArg_files (taken : pr.takeArg w = .ok pr') : pr'.redirectFiles = pr.redirectFiles ∧
    (pr.redirectIndex ≠ none → pr'.redirectIndex ≠ none) := by
  rw [Progress.takeArg] at taken
  split at taken
  · cases taken
    exact ⟨rfl, id⟩
  split at taken
  · rw [Progress.redirect] at taken
    split at taken
    · cases taken
      refine ⟨rfl, fun _ missing => ?_⟩
      cases missing
    · cases taken
  · rw [pass_eq] at taken
    cases taken
    exact ⟨rfl, id⟩

/-- After an operator a file name does not fit. -/
theorem tokenLoop_spoiled (ran : tokenLoop fresh nested rounds pr m = .ok (pr', m'))
    (pending : pr.redirectIndex ≠ none) : ¬ pr'.Fits := by
  let Spoiled (pr : Progress) : Prop :=
    pr.redirectIndex ≠ none ∨ ∃ k, ¬ (pr.redirectFiles k).Fits
  obtain ⟨spoiled, between, -⟩ := tokenLoop_preserves Spoiled
    (fun pr i w _ _ => Or.inr ⟨i, by simp [Progress.takeFile, Slot.Fits, Stored.Fits]⟩)
    (fun pr w pr' spoiled taken => by
      obtain ⟨files, later⟩ := takeArg_files taken
      exact spoiled.imp later (Exists.imp fun k beyond => files ▸ beyond))
    (fun pr c spoiled => spoiled) ran (Or.inl pending)
  obtain other | ⟨k, spoiled⟩ := spoiled
  · exact absurd between other
  · exact fun fits => spoiled (fits.redirectFiles k)

end

/-! ### White space at the end -/

section
variable {text : List Char}

theorem trimmed_trim (whole : nul ∉ text) : Trimmed (trim text) := by
  intro c last
  obtain ⟨nonempty, rfl⟩ := List.mem_getLast?_eq_getLast last
  have other := List.rdropWhile_last_not inSplitters (text.dropWhile inSplitters) nonempty
  have listed : (trim text).getLast nonempty ∈ text :=
    (List.dropWhile_suffix _).subset ((List.rdropWhile_prefix _ _).subset (List.getLast_mem nonempty))
  exact fun delim => other ((inSplitters_iff fun same => whole (same ▸ listed)).mpr delim)

theorem rtakeWhile_trimmed (whole : nul ∉ text) (trimmed : Trimmed text) :
    (text.dropWhile inSplitters).rtakeWhile inSplitters = [] := by
  have ending := List.dropWhile_suffix inSplitters (l := text)
  refine List.rtakeWhile_eq_nil_iff.mpr fun nonempty blank => ?_
  have other := trimmed.suffix ending _ (List.getLast?_eq_getLast_of_ne_nil nonempty)
  have listed := ending.subset (List.getLast_mem nonempty)
  exact other ((inSplitters_iff fun same => whole (same ▸ listed)).mp blank)

theorem rtakeWhile_untrimmed (whole : nul ∉ text) (untrimmed : ¬ Trimmed text)
    (found : words splitters text ≠ []) :
    (text.dropWhile inSplitters).rtakeWhile inSplitters ≠ [] := by
  intro none
  have nonempty : text.dropWhile inSplitters ≠ [] := by
    intro blank
    have delims : ∀ c ∈ text, c ∈ splitters := fun c member =>
      (inSplitters_iff fun same => whole (same ▸ member)).mp (List.dropWhile_eq_nil_iff.mp blank c member)
    have nothing := words_blank delims []
    rw [List.append_nil] at nothing
    exact found nothing
  refine untrimmed fun c last delim => ?_
  have other := List.rtakeWhile_eq_nil_iff.mp none nonempty
  rw [← List.takeWhile_append_dropWhile (p := inSplitters) (l := text), List.getLast?_append,
    List.getLast?_eq_getLast_of_ne_nil nonempty, Option.some_or] at last
  rw [Option.some.inj last] at other
  exact other (by simp [inSplitters, delim])

end

/-! ### The nested call -/

section
variable {m : Machine} {text behind : List Char} {ws : List (List Char)}

/-- With nothing behind the line, a bar at its end is fatal. -/
theorem tokenLoop_open (reads : m.Reads text []) (found : words splitters text = [['|']])
    (trimmed : Trimmed text) (between : pr.redirectIndex = none) (fresh : Nat → Contents)
    (nested : Nat → Contents → Machine → Except Fault (Command × Machine)) (rounds : Nat) :
    tokenLoop fresh nested (rounds + 1) pr m = .error .outside := by
  obtain ⟨q, m', tail, ended, -, place, run⟩ := tokenLoop_bar reads found
  obtain ⟨rfl, -⟩ | ⟨d, rest, -, -, none, delim, ending⟩ := place
  · rw [run fresh nested rounds pr between, pipe_outside ended]
    rfl
  · -- the bar would not be the last character of a trimmed line
    obtain ⟨c, last⟩ : ∃ c, (d :: rest).getLast? = some c := ⟨_, List.getLast?_cons⟩
    have listed : c ∈ d :: rest := List.mem_of_getLast? last
    refine absurd ?_ (trimmed.suffix ending c last)
    obtain rfl | member := List.mem_cons.mp listed
    · exact delim
    · exact words_eq_nil none c member

/-- Otherwise the nested call goes through the words behind it, with the same bytes
behind the line, and then the loop is done. -/
theorem tokenLoop_nested (reads : m.Reads text behind) (found : words splitters text = ['|'] :: ws)
    (trimmed : Trimmed text) (more : ws ≠ [] ∨ behind.head? = some nul) (fresh : Nat → Contents) :
    ∃ (m' : Machine) (rest behind' : List Char) (q : Nat) (made : Progress → Command),
      m'.Reads rest behind' ∧ words splitters rest = ws.tail ∧ Trimmed rest ∧
      (ws = [] ∨ behind' = behind) ∧ m'.bytes.length = m.bytes.length ∧ q < m.bytes.length ∧
      (∀ pr, (made pr).Fits ↔ pr.Fits) ∧
      ∀ budget rounds pr, pr.redirectIndex = none →
        tokenLoop fresh (parseCommand fresh (budget + 1)) (rounds + 1) pr m =
          tokenLoop fresh (parseCommand fresh budget) (budget + 1) (.start (fresh m.structs)) m' >>=
            fun (pr', m) => write m.bytes q nul >>= fun bytes =>
              tokenLoop fresh (parseCommand fresh (budget + 1)) rounds
                { pr with next := .inr (made pr') } ⟨⟨bytes, m.save⟩, m.structs⟩ := by
  obtain ⟨q, m₁, tail, ended, alike, place, run⟩ := tokenLoop_bar reads found
  obtain ⟨front, behind', rfl, whole, left, trimmed', same⟩ : ∃ front behind', tail = front ++ nul :: behind' ∧
      nul ∉ front ∧ words splitters front = ws ∧ Trimmed front ∧ (ws = [] ∨ behind' = behind) := by
    obtain ⟨rfl, rfl⟩ | ⟨d, rest, rfl, whole, left, -, ending⟩ := place
    · cases tail with
      | nil => simp at more
      | cons c behind' =>
        obtain rfl : c = nul := by simpa using more
        exact ⟨[], behind', rfl, List.not_mem_nil, rfl, nofun, Or.inl rfl⟩
    · exact ⟨rest, behind, rfl, whole, left,
        trimmed.suffix ((List.suffix_cons d rest).trans ending), Or.inr rfl⟩
  obtain ⟨buf, m₂, text₂, spans, words₂, ending, size, inside, structs, piped⟩ := pipe_eq ended whole
  have trimmed₂ := trimmed'.suffix ending
  obtain ⟨m', rest, reads', left', ending', alike', start⟩ := parseCommand_reads spans
  rw [rtakeWhile_trimmed spans.1 trimmed₂] at reads'
  rw [words₂, left] at left'
  rw [alike.1] at size inside
  let made (pr : Progress) : Command :=
    ⟨(fresh m.structs).background || (trim text₂).getLast? = some '&',
      (fresh m.structs).autoComplete || (trim text₂).getLast? = some '?',
      pr.staged (stored ((words splitters text₂).headD [])), pr.next⟩
  refine ⟨m', rest, behind', q + 1, made, reads', left', (trimmed_trim spans.1).suffix ending', same,
    alike'.1.trans size, inside, fun pr => fits_iff _ _ pr _, fun budget rounds pr between => ?_⟩
  rw [run _ _ _ _ between, piped, start, alike.2]
  simp only [bind_assoc, ok_bind]
  rfl

end

/-! ### The loop -/

section
variable {pr : Progress} {m : Machine} {text behind : List Char} {ws : List (List Char)}
variable (fresh : Nat → Contents)

theorem take_plain (between : pr.redirectIndex = none) (trimmed : trim w = w) (nonempty : w ≠ [])
    (plain : operator w = none) :
    ∃ pr', pr.take w = .ok pr' ∧ pr'.redirectIndex = none ∧ (pr.Fits → pr'.Fits) := by
  refine ⟨_, take_word between trimmed nonempty plain, ?_⟩
  split
  · exact ⟨between, id⟩
  · exact ⟨between, fun fits => fits.passed w⟩

/-- Harmless words are gone through. -/
theorem tokenLoop_harmless (harmless : Harmless ended ws)
    (ending : ws ≠ [] → ended → behind.head? = some nul) (reads : m.Reads text behind)
    (found : words splitters text = ws) (trimmed : Trimmed text) (enough : ws.length ≤ rounds)
    (deep : ws.length ≤ budget) (between : pr.redirectIndex = none) (fits : pr.Fits) :
    ∃ pr' m', tokenLoop fresh (parseCommand fresh budget) (rounds + 1) pr m = .ok (pr', m') ∧
      pr'.Fits ∧ m'.Done ∧ m'.bytes.length = m.bytes.length := by
  induction harmless generalizing m text behind rounds budget pr with
  | nil =>
    obtain ⟨m', done, alike, run⟩ := tokenLoop_end (found ▸ reads.scans)
    exact ⟨pr, m', run _ _ _ _ between, fits, done, alike.1⟩
  | @argument w ws plain short other rest ih =>
    obtain ⟨m₁, text₁, reads₁, left, suffix, alike, run⟩ := tokenLoop_reads reads found
    obtain ⟨rounds, rfl⟩ : ∃ fewer, rounds = fewer + 1 := ⟨rounds - 1, by simp at enough; omega⟩
    obtain ⟨same, nonempty⟩ := trim_of_mem reads.whole (found ▸ List.mem_cons_self)
    obtain ⟨pr₁, taken, free, keeps⟩ := take_plain between same nonempty plain
    have fewer : ws.length ≤ rounds := by simp at enough; omega
    have shallower : ws.length ≤ budget := by simp at deep; omega
    obtain ⟨pr', m', ran, fits', done, size⟩ := ih (fun _ => ending (List.cons_ne_nil _ _)) reads₁ left
      (trimmed.suffix suffix) fewer shallower free (keeps fits)
    refine ⟨pr', m', ?_, fits', done, size.trans alike.1⟩
    rw [run _ _ _ _ fun _ => ⟨Nat.lt_succ_of_le short, other⟩, taken]
    exact ran
  | @bar ws more rest ih =>
    obtain ⟨m₁, text₁, behind', q, made, reads₁, left, trimmed₁, same, size, inside, fitsMade, run⟩ :=
      tokenLoop_nested reads found trimmed (more.imp_right (ending (List.cons_ne_nil _ _))) fresh
    obtain ⟨rounds, rfl⟩ : ∃ fewer, rounds = fewer + 1 := ⟨rounds - 1, by simp at enough; omega⟩
    obtain ⟨budget, rfl⟩ : ∃ fewer, budget = fewer + 1 := ⟨budget - 1, by simp at deep; omega⟩
    have fewer : ws.tail.length ≤ budget := by simp at deep ⊢; omega
    have ending₁ : ws.tail ≠ [] → ended → behind'.head? = some nul := by
      intro more ends
      obtain rfl | rfl := same
      · exact absurd rfl more
      · exact ending (List.cons_ne_nil _ _) ends
    obtain ⟨pr₁, m₂, nested, fits₁, done, size₁⟩ := ih ending₁ reads₁ left trimmed₁ fewer fewer rfl
      (fits_start (fresh m.structs))
    obtain ⟨m₃, done₃, alike, last⟩ := tokenLoop_end (done.write q m₂.structs).scans
    refine ⟨{ pr with next := .inr (made pr₁) }, m₃, ?_, ⟨fits.args, fits.redirects, fits.redirectFiles, ?_⟩,
      done₃, ?_⟩
    · rw [run _ _ _ between, nested, ok_bind]
      simp only
      rw [write_ok (by omega), ok_bind]
      exact last _ _ _ _ between
    · intro c same
      cases same
      exact (fitsMade pr₁).mpr fits₁
    · rw [alike.1, List.length_set, size₁, size]

theorem redirect_cases (pr : Progress) (k : Fin 3) (len : Nat) (w : List Char) :
    (∃ pr', pr.redirect k len w = .ok pr' ∧ pr'.redirectIndex = some k) ∨
      pr.redirect k len w = .error .outside := by
  rw [Progress.redirect]
  split
  · exact Or.inl ⟨_, rfl, rfl⟩
  · exact Or.inr rfl

/-- What a word does that is no operator's file and no pipe. -/
theorem take_cases (between : pr.redirectIndex = none) (trimmed : trim w = w) (nonempty : w ≠ []) :
    (operator w = none ∧ ∃ pr', pr.take w = .ok pr' ∧ pr'.redirectIndex = none) ∨
      (∃ pr', pr.take w = .ok pr' ∧ pr'.redirectIndex ≠ none) ∨
        pr.take w = .error .outside := by
  cases plain : operator w with
  | none =>
    obtain ⟨pr', taken, free, -⟩ := take_plain between trimmed nonempty plain
    exact Or.inl ⟨rfl, pr', taken, free⟩
  | some found =>
    obtain ⟨k, len⟩ := found
    rw [take_operator between trimmed plain]
    obtain ⟨pr', ran, pending⟩ | stop := redirect_cases pr k len w
    · exact Or.inr (Or.inl ⟨pr', ran, pending ▸ nofun⟩)
    · exact Or.inr (Or.inr stop)

/-- A word that does not fit into `temp_buf`. -/
theorem tokenLoop_long (reads : m.Reads text behind) (found : words splitters text = w :: ws)
    (long : 1024 ≤ w.length) (between : pr.redirectIndex = none)
    (nested : Nat → Contents → Machine → Except Fault (Command × Machine)) (rounds : Nat) :
    tokenLoop fresh nested (rounds + 1) pr m = .error .outside := by
  obtain ⟨q, next, bytes, rest, ran, -, token, -⟩ := reads.token found
  rw [tokenLoop, ran]
  simp only [ok_bind, between, token.textAt]
  rw [if_pos long]

/-- A run is within its budget, and returns what fits only if the verdict holds. -/
def Judged (run : Except Fault (Progress × Machine)) (verdict : Prop) : Prop :=
  Ends .spent run ∧ ∀ pr m, run = .ok (pr, m) → pr.Fits → verdict

theorem judged_error {stop : Fault} (other : stop ≠ .spent) : Judged (.error stop) verdict :=
  ⟨fun same => other (Except.error.inj same), fun _ _ => nofun⟩

theorem judged_ok (fair : pr.Fits → verdict) : Judged (.ok (pr, m)) verdict :=
  ⟨Ends.ok _, fun _ _ same => by cases same; exact fair⟩

/-- The round on a bar, when the nested call is judged. -/
theorem judged_bar (reads : m.Reads text behind) (found : words splitters text = ['|'] :: ws)
    (trimmed : Trimmed text) (ending : behind = [] ∨ behind.head? = some nul)
    (between : pr.redirectIndex = none)
    (nested : ∀ m' rest behind', Machine.Reads m' rest behind' → words splitters rest = ws.tail →
      Trimmed rest → (ws = [] ∨ behind' = behind) →
        Judged (tokenLoop fresh (parseCommand fresh budget) (budget + 1) (.start (fresh m.structs)) m')
          (Harmless (behind.head? = some nul) ws.tail)) :
    Judged (tokenLoop fresh (parseCommand fresh (budget + 1)) (rounds + 1 + 1) pr m)
      (Harmless (behind.head? = some nul) (['|'] :: ws)) := by
  by_cases closed : ws = [] ∧ behind = []
  · obtain ⟨rfl, rfl⟩ := closed
    rw [tokenLoop_open reads found trimmed between]
    exact judged_error nofun
  have more : ws ≠ [] ∨ behind.head? = some nul := by
    obtain none | zero := ending
    · exact Or.inl fun last => closed ⟨last, none⟩
    · exact Or.inr zero
  obtain ⟨m₁, rest, behind', q, made, reads₁, left, trimmed₁, same, -, -, fitsMade, run⟩ :=
    tokenLoop_nested reads found trimmed more fresh
  obtain ⟨ends, judged⟩ := nested m₁ rest behind' reads₁ left trimmed₁ same
  rw [run _ _ _ between]
  cases inner : tokenLoop fresh (parseCommand fresh budget) (budget + 1) (.start (fresh m.structs)) m₁ with
  | error stop =>
    rw [inner] at ends
    exact judged_error fun same => ends (congrArg Except.error same)
  | ok value =>
    obtain ⟨pr₁, m₂⟩ := value
    rw [ok_bind]
    simp only
    by_cases inside : q < m₂.bytes.length
    · obtain ⟨m₃, -, -, last⟩ := tokenLoop_end ((tokenLoop_done inner).write q m₂.structs).scans
      rw [write_ok inside, ok_bind, last fresh _ _ { pr with next := .inr (made pr₁) } between]
      exact judged_ok fun fits =>
        .bar more (judged pr₁ m₂ inner ((fitsMade pr₁).mp (fits.next _ rfl)))
    · rw [write, if_neg inside]
      exact judged_error nofun

/-- In a buffer that ends with the line, a run returns what fits only if the words are
harmless. -/
theorem tokenLoop_judged (ending : ws ≠ [] → behind = [] ∨ behind.head? = some nul)
    (reads : m.Reads text behind) (found : words splitters text = ws) (trimmed : Trimmed text)
    (enough : ws.length < rounds) (deep : ws.length ≤ budget) :
    Judged (tokenLoop fresh (parseCommand fresh budget) rounds pr m)
      (pr.redirectIndex = none → Harmless (behind.head? = some nul) ws) := by
  induction size : ws.length using Nat.strongRecOn
    generalizing ws m text behind rounds budget pr with
  | ind n ih =>
  obtain ⟨rounds, rfl⟩ : ∃ fewer, rounds = fewer + 1 := ⟨rounds - 1, by omega⟩
  cases ws with
  | nil =>
    cases between : pr.redirectIndex with
    | none =>
      obtain ⟨m', -, -, run⟩ := tokenLoop_end (found ▸ reads.scans)
      rw [run _ _ _ _ between]
      exact judged_ok fun _ _ => .nil
    | some k =>
      rw [tokenLoop_pending (found ▸ reads.scans) between]
      exact judged_error nofun
  | cons w ws =>
    rw [List.length_cons] at size enough deep
    have stops := ending (List.cons_ne_nil w ws)
    obtain ⟨same, nonempty⟩ := trim_of_mem reads.whole (found ▸ List.mem_cons_self)
    by_cases bar : pr.redirectIndex = none ∧ w = ['|']
    · obtain ⟨between, rfl⟩ := bar
      obtain ⟨budget, rfl⟩ : ∃ fewer, budget = fewer + 1 := ⟨budget - 1, by omega⟩
      obtain ⟨rounds, rfl⟩ : ∃ fewer, rounds = fewer + 1 := ⟨rounds - 1, by omega⟩
      have fewer : ws.tail.length < budget + 1 := by simp; omega
      have shallower : ws.tail.length ≤ budget := Nat.le_of_lt_succ fewer
      have judged : Judged (tokenLoop fresh (parseCommand fresh (budget + 1)) (rounds + 1 + 1) pr m)
          (Harmless (behind.head? = some nul) (['|'] :: ws)) := by
        refine judged_bar fresh reads found trimmed stops between ?_
        intro m' rest behind' reads' left trimmed' same
        have stops' : ws.tail ≠ [] → behind' = [] ∨ behind'.head? = some nul := by
          intro more
          obtain rfl | rfl := same
          · exact absurd rfl more
          · exact stops
        have less : ws.tail.length < n := by simp; omega
        obtain ⟨ends, inner⟩ := ih ws.tail.length less stops' reads' left trimmed' fewer shallower rfl
        refine ⟨ends, fun pr' m₁ ran fits => (inner pr' m₁ ran fits rfl).imp fun more zero => ?_⟩
        obtain rfl | rfl := same
        · exact absurd rfl more
        · exact zero
      exact ⟨judged.1, fun pr' m' ran fits _ => judged.2 pr' m' ran fits⟩
    by_cases long : pr.redirectIndex = none ∧ 1024 ≤ w.length
    · rw [tokenLoop_long fresh reads found long.2 long.1]
      exact judged_error nofun
    obtain ⟨m₁, text₁, reads₁, left, suffix, -, run⟩ := tokenLoop_reads reads found
    rw [run _ _ _ _ fun between =>
      ⟨Nat.lt_of_not_le fun beyond => long ⟨between, beyond⟩, fun same => bar ⟨between, same⟩⟩]
    have fewer : ws.length < rounds := Nat.lt_of_succ_lt_succ enough
    have shallower : ws.length ≤ budget := Nat.le_of_succ_le deep
    have later (pr₁ : Progress) :
        Judged (tokenLoop fresh (parseCommand fresh budget) rounds pr₁ m₁)
          (pr₁.redirectIndex = none → Harmless (behind.head? = some nul) ws) :=
      ih ws.length (by omega) (fun _ => stops) reads₁ left (trimmed.suffix suffix) fewer shallower rfl
    cases between : pr.redirectIndex with
    | some k =>
      rw [take_file between, ok_bind]
      exact ⟨(later _).1, fun _ _ _ _ => nofun⟩
    | none =>
      obtain ⟨plain, pr₁, taken, free⟩ | ⟨pr₁, taken, pending⟩ | stop :=
        take_cases between same nonempty
      · rw [taken, ok_bind]
        refine ⟨(later pr₁).1, fun pr' m' ran fits _ => ?_⟩
        refine .argument plain (Nat.le_of_lt_succ (Nat.lt_of_not_le fun beyond => long ⟨between, beyond⟩))
          (fun same => bar ⟨between, same⟩) ((later pr₁).2 pr' m' ran fits free)
      · rw [taken, ok_bind]
        exact ⟨(later pr₁).1, fun pr' m' ran fits => absurd fits (tokenLoop_spoiled ran pending)⟩
      · rw [stop]
        exact judged_error nofun

/-! ### The line -/

/-- The loop for a whole line. White space at its end is terminators by then. -/
theorem parseLine_reads (command : Contents) (whole : nul ∉ text) (after : List Char) :
    ∃ (m : Machine) (rest : List Char) (blanks : Nat) (made : Progress → Command),
      m.Reads rest (List.replicate blanks nul ++ after) ∧
      words splitters rest = (words splitters text).tail ∧ Trimmed rest ∧
      (Trimmed text → blanks = 0) ∧ (¬ Trimmed text → words splitters text ≠ [] → blanks ≠ 0) ∧
      (∀ pr, (made pr).Fits ↔ pr.Fits) ∧ parseLine fresh command text after =
        (tokenLoop fresh (parseCommand fresh (text.length + 1)) (text.length + 1 + 1) (.start command)
          m).map fun (pr, _) => made pr := by
  have spans : Spans (text ++ nul :: after) 0 text after := ⟨whole, rfl⟩
  obtain ⟨m, rest, reads, left, ending, -, start⟩ :=
    parseCommand_reads (m := ⟨⟨text ++ nul :: after, none⟩, 0⟩) spans
  let made (pr : Progress) : Command :=
    ⟨command.background || (trim text).getLast? = some '&',
      command.autoComplete || (trim text).getLast? = some '?',
      pr.staged (stored ((words splitters text).headD [])), pr.next⟩
  refine ⟨m, rest, _, made, reads, left, (trimmed_trim whole).suffix ending, fun trimmed => ?_,
    fun untrimmed found => ?_, fun pr => fits_iff _ _ pr _, ?_⟩
  · rw [rtakeWhile_trimmed whole trimmed]
    rfl
  · exact fun none => rtakeWhile_untrimmed whole untrimmed found (List.eq_nil_of_length_eq_zero none)
  · rw [parseLine, start]
    cases tokenLoop fresh (parseCommand fresh (text.length + 1)) (text.length + 1 + 1)
      (.start command) m <;> rfl

theorem judged_line (command : Contents) (whole : nul ∉ text) :
    Ends .spent (parseLine fresh command text []) ∧
      ∀ c, parseLine fresh command text [] = .ok c → c.Fits →
        Harmless (¬ Trimmed text) (words splitters text).tail := by
  obtain ⟨m, rest, blanks, made, reads, left, trimmed, none, -, same, line⟩ :=
    parseLine_reads fresh command whole []
  have few := length_words_le splitters text
  rw [List.append_nil] at reads
  have ending : List.replicate blanks nul = [] ∨ (List.replicate blanks nul).head? = some nul := by
    cases blanks with
    | zero => exact Or.inl rfl
    | succ blanks => exact Or.inr rfl
  have deep : (words splitters text).tail.length ≤ text.length + 1 := by simp; omega
  have judged : Judged (tokenLoop fresh (parseCommand fresh (text.length + 1)) (text.length + 1 + 1)
      (.start command) m) _ :=
    tokenLoop_judged fresh (fun _ => ending) reads left trimmed (Nat.lt_succ_of_le deep) deep
  obtain ⟨ends, judged⟩ := judged
  rw [line]
  cases ran : tokenLoop fresh (parseCommand fresh (text.length + 1)) (text.length + 1 + 1)
    (.start command) m with
  | error stop =>
    rw [ran] at ends
    exact ⟨fun same => ends (congrArg Except.error (Except.error.inj same)), fun _ => nofun⟩
  | ok value =>
    obtain ⟨pr, m'⟩ := value
    refine ⟨Ends.ok _, fun c made => ?_⟩
    cases made
    refine fun fits => (judged pr m' ran ((same pr).mp fits) rfl).imp fun _ zero trimmed => ?_
    rw [none trimmed] at zero
    cases zero

end

/-- On a line alone the parser ends. -/
theorem parseLine_ends (fresh : Nat → Contents) (command : Contents)
    (line : { line : List Char // nul ∉ line }) : Ends .spent (parseLine fresh command line []) :=
  (judged_line fresh command line.2).1

/-- A line is parsed within bounds exactly if it is harmless. -/
theorem parsedInBounds_iff (fresh : Nat → Contents) (command : Contents)
    (line : { line : List Char // nul ∉ line }) : ParsedInBounds fresh command line ↔
      Harmless (¬ Trimmed line) (words splitters line).tail := by
  obtain ⟨text, whole⟩ := line
  constructor
  · intro bounded
    obtain ⟨c, ran, fits⟩ := bounded []
    exact (judged_line fresh command whole).2 c ran fits
  · intro harmless after
    obtain ⟨m, rest, blanks, made, reads, left, trimmed, -, some, same, line⟩ :=
      parseLine_reads fresh command whole after
    have few := length_words_le splitters text
    have ending : (words splitters text).tail ≠ [] → ¬ Trimmed text →
        (List.replicate blanks nul ++ after).head? = .some nul := by
      intro more untrimmed
      have found : words splitters text ≠ [] := fun none => more (by rw [none]; rfl)
      obtain ⟨blanks, rfl⟩ := Nat.exists_eq_succ_of_ne_zero (some untrimmed found)
      rfl
    have deep : (words splitters text).tail.length ≤ text.length + 1 := by simp; omega
    obtain ⟨pr, m', ran, fits, -⟩ := tokenLoop_harmless fresh harmless ending reads left trimmed deep
      deep rfl (fits_start command)
    refine ⟨made pr, ?_, (same pr).mpr fits⟩
    rw [line, ran]
    rfl

/-- `cat < f`: the block for `f` has one byte, and its terminator is written behind it. -/
theorem file_name_overflows : ¬ ParsedInBounds (fun _ => zeroed) zeroed "cat < f".toList := by
  intro bounded
  obtain ⟨c, ran, fits⟩ := bounded []
  have stored : (parseLine (fun _ => zeroed) zeroed "cat < f".toList []).map
      (fun c => c.stages.map fun s => s.redirectFiles 0) = .ok [.text ⟨1, ['f']⟩] := rfl
  rw [ran] at stored
  obtain ⟨s, listed, file⟩ := List.map_eq_singleton_iff.mp (Except.ok.inj stored)
  have fit := (fits s (listed ▸ List.mem_singleton_self s)).redirectFiles 0
  rw [file] at fit
  exact Nat.lt_irrefl 1 fit

example : parseLine (fun _ => zeroed) zeroed "ls |".toList [] = .error .outside := rfl

end Comp304.Shell
