import Comp304.Library.Substitution
import Comp304.Shell.Expansion

/-! The command `repl`. Its loop looks for the word from the beginning of the
rewritten text each time, so a replacement that is part of an occurrence is
rewritten again. -/
namespace Comp304.Shell
open Library Library.CString Library.Budget Library.Substitution

/-- The loop over the occurrences. -/
def replLoop (orig rep : List Char) : Nat → Statics → Place → Except Fault (Statics × Place)
  | 0, _, _ => .error .spent
  | rounds + 1, statics, text => do
    let current ← textAt (text.bytes statics.buffer) 0
    match strstr current orig with
    | none => return (statics, text)
    | some loc =>
      let statics ← replace statics text orig rep loc
      replLoop orig rep rounds statics .buffer

/-- What `repl` writes for the text that was read to a block. -/
def replText (orig rep : List Char) (rounds : Nat) (statics : Statics) (block : List Char) :
    Except Fault (List Char) := do
  let (statics, text) ← replLoop orig rep rounds statics (.block block)
  textAt (text.bytes statics.buffer) 0

/-- The first two arguments of `repl`. -/
structure WordPair where
  orig : List Char
  rep : List Char
  nonempty : orig ≠ []
  orig_plain : nul ∉ orig
  rep_plain : nul ∉ rep

/-- A text that fits the arrays of `replace`. -/
def Buffered (text : List Char) : Prop := text.length < 4096 ∧ nul ∉ text

namespace WordPair

/-- The loop ends on every text, with each occurrence from left to right replaced,
if this fits the arrays. -/
def Substitutes (p : WordPair) : Prop :=
  ∀ (statics : Statics) (block text : List Char), statics.buffer.length = 4096 →
    statics.buffer2.length = 4096 → Holds block 0 text → Buffered text →
    Buffered (replaceAll p.orig p.rep text) →
      ∃ rounds, replText p.orig p.rep rounds statics block = .ok (replaceAll p.orig p.rep text)

/-- What is put in for a first occurrence takes part in no other one. -/
def Apart (p : WordPair) : Prop := Separate Buffered p.orig p.rep

end WordPair

section
variable {p : WordPair} {statics : Statics} {place : Place}

/-- A first occurrence in a text of which the front is settled. -/
theorem strstr_behind (nonempty : word ≠ []) (found : strstr (done ++ rest) word = some loc)
    (settled : Settled word done rest) :
    ∃ before behind, rest = before ++ word ++ behind ∧ loc = (done ++ before).length ∧
      Leftmost word before := by
  obtain ⟨here, first⟩ := strstr_eq_some_iff.mp found
  have late : done.length ≤ loc := Nat.le_of_not_lt fun front => settled loc front here
  obtain ⟨k, rfl⟩ : ∃ k, loc = done.length + k := ⟨loc - done.length, by omega⟩
  have there : OccursAt word rest k := (occursAt_behind done k).mp here
  have inside := there.inside nonempty
  obtain ⟨behind, same⟩ := there
  have split : rest = rest.take k ++ word ++ behind := by
    rw [List.append_assoc, same, List.take_append_drop]
  have short : (rest.take k).length = k := by
    rw [List.length_take]
    omega
  refine ⟨rest.take k, behind, split, by rw [List.length_append, short], fun i front occurs => ?_⟩
  refine first (done.length + i) (by omega) ((occursAt_behind done i).mpr ?_)
  rw [split, occursAt_front]
  · exact occurs
  · rw [List.length_append]
    omega

theorem Buffered.front (whole : Buffered (text ++ rest)) : Buffered text := by
  obtain ⟨short, plain⟩ := whole
  rw [List.length_append] at short
  exact ⟨by omega, fun inside => plain (List.mem_append_left _ inside)⟩

/-- The lengths between the first text and the last one. -/
theorem buffered_between (nonempty : word ≠ []) (now : Buffered (done ++ (before ++ word ++ behind)))
    (last : Buffered (done ++ before ++ rep ++ replaceAll word rep behind)) (plain : nul ∉ rep) :
    Buffered (done ++ before ++ rep ++ behind) := by
  obtain ⟨nowShort, nowPlain⟩ := now
  obtain ⟨lastShort, -⟩ := last
  simp only [List.length_append] at nowShort lastShort
  simp only [List.mem_append, not_or] at nowPlain
  obtain ⟨doneP, ⟨beforeP, -⟩, behindP⟩ := nowPlain
  constructor
  · simp only [List.length_append]
    obtain shorter | longer := Nat.le_total rep.length word.length
    · omega
    · have grows : behind.length ≤ (replaceAll word rep behind).length :=
        length_le_replaceAll nonempty longer behind
      omega
  · simp only [List.mem_append, not_or]
    exact ⟨⟨⟨doneP, beforeP⟩, plain⟩, behindP⟩

/-- The loop from a text of which the front is settled. -/
theorem replLoop_run (apart : p.Apart) (size : statics.buffer.length = 4096)
    (size2 : statics.buffer2.length = 4096)
    (holds : Holds (place.bytes statics.buffer) 0 (done ++ rest)) (short : Buffered (done ++ rest))
    (settled : Settled p.orig done rest) (last : Buffered (done ++ replaceAll p.orig p.rep rest))
    (enough : rest.length < rounds) :
    ∃ statics' place', replLoop p.orig p.rep rounds statics place = .ok (statics', place') ∧
      Holds (place'.bytes statics'.buffer) 0 (done ++ replaceAll p.orig p.rep rest) := by
  induction rounds generalizing statics place done rest with
  | zero => exact absurd enough (Nat.not_lt_zero _)
  | succ rounds ih =>
    rw [replLoop, holds.textAt, ok_bind]
    cases found : strstr (done ++ rest) p.orig with
    | none =>
      have absent : Settled p.orig rest [] := by
        intro i _ occurs
        rw [List.append_nil] at occurs
        exact strstr_eq_none_iff.mp found _ ((occursAt_behind done i).mpr occurs)
      refine ⟨statics, place, rfl, ?_⟩
      rw [replaceAll_absent p.rep absent]
      exact holds
    | some loc =>
      obtain ⟨before, behind, rfl, rfl, leftmost⟩ := strstr_behind p.nonempty found settled
      rw [replaceAll_leftmost p.nonempty leftmost, ← List.append_assoc, ← List.append_assoc] at last ⊢
      have next := buffered_between p.nonempty short last p.rep_plain
      obtain ⟨-, settled'⟩ := apart.step settled leftmost short next
      rw [← List.append_assoc, ← List.append_assoc] at holds
      obtain ⟨statics', ran, holds', size', size2'⟩ :=
        replace_text holds p.nonempty p.rep_plain size size2 next.1
      have positive := List.length_pos_iff.mpr p.nonempty
      simp only [List.length_append] at enough
      simp only [ran, ok_bind]
      exact ih size' size2' holds' next settled' last (by omega)

/-- What the loop leaves has no occurrence. -/
theorem replLoop_done {statics' : Statics} {place' : Place}
    (ran : replLoop orig rep rounds statics place = .ok (statics', place'))
    (written : textAt (place'.bytes statics'.buffer) 0 = .ok text) : strstr text orig = none := by
  induction rounds generalizing statics place with
  | zero => cases ran
  | succ rounds ih =>
    rw [replLoop] at ran
    obtain ⟨current, read, ran⟩ := bind_eq_ok.mp ran
    cases found : strstr current orig with
    | none =>
      simp only [found] at ran
      cases ran
      cases read.symm.trans written
      exact found
    | some loc =>
      simp only [found] at ran
      obtain ⟨next, -, ran⟩ := bind_eq_ok.mp ran
      exact ih ran

end

namespace WordPair
variable (p : WordPair)

/-- The loop substitutes in all texts exactly when no replacement takes part in an
occurrence. -/
theorem repl_substitutes_iff : p.Substitutes ↔ p.Apart := by
  constructor
  · intro substitutes before behind now next leftmost i front occurs
    have inside := occurs.inside p.nonempty
    -- as much of the context as the occurrence takes up
    obtain ⟨context, later, rfl, few, enough⟩ : ∃ context later, behind = context ++ later ∧
        context.length < p.orig.length ∧
        i + p.orig.length ≤ (before ++ p.rep ++ context).length := by
      refine ⟨behind.take (i + p.orig.length - (before ++ p.rep).length), _,
        (List.take_append_drop ..).symm, ?_, ?_⟩
      · have positive := List.length_pos_iff.mpr p.nonempty
        rw [List.length_take]
        omega
      · simp only [List.length_append, List.length_take] at inside front ⊢
        omega
    rw [← List.append_assoc] at now next occurs
    have now' := now.front
    have next' := next.front
    have replaced : replaceAll p.orig p.rep (before ++ p.orig ++ context) =
        before ++ p.rep ++ context := by
      rw [replaceAll_leftmost p.nonempty leftmost,
        replaceAll_absent p.rep (.of_short p.nonempty (by simpa using few))]
    have blank : (List.replicate 4096 nul).length = 4096 := List.length_replicate
    obtain ⟨rounds, ran⟩ := substitutes ⟨.replicate 4096 nul, .replicate 4096 nul⟩
      (before ++ p.orig ++ context ++ [nul]) _ blank blank (holds_front now'.2 []) now'
      (replaced.symm ▸ next')
    obtain ⟨⟨statics', place'⟩, loop, written⟩ := bind_eq_ok.mp ran
    have none := replLoop_done loop written
    rw [replaced, strstr_eq_none_iff] at none
    exact none i ((occursAt_front enough later).mp occurs)
  · intro apart statics block text size size2 holds short last
    have settled : Settled p.orig [] text := nofun
    have whole : Holds ((Place.block block).bytes statics.buffer) 0 ([] ++ text) := holds
    obtain ⟨statics', place', ran, holds'⟩ :=
      replLoop_run apart size size2 whole short settled last (Nat.lt_succ_self _)
    refine ⟨text.length + 1, ?_⟩
    rw [replText, ran, ok_bind]
    exact holds'.textAt

/-- A replacement is apart from every occurrence when it has no character of the word. -/
theorem apart_of_disjoint (replaced : p.rep ≠ []) (disjoint : ∀ c ∈ p.rep, c ∉ p.orig) : p.Apart :=
  separate_of_disjoint p.nonempty replaced disjoint

/-- `repl a a` -/
def sameWord : WordPair where
  orig := ['a']
  rep := ['a']
  nonempty := by decide
  orig_plain := by decide
  rep_plain := by decide

/-- The text `a` is never rewritten to a text without an `a`, so the loop does not end. -/
theorem same_word_is_endless : ¬ sameWord.Substitutes := by
  intro substitutes
  have blank : (List.replicate 4096 nul).length = 4096 := List.length_replicate
  obtain ⟨rounds, ran⟩ := substitutes ⟨.replicate 4096 nul, .replicate 4096 nul⟩ ['a', nul] ['a']
    blank blank (holds_front (by decide) []) ⟨by decide, by decide⟩ ⟨by decide, by decide⟩
  obtain ⟨⟨statics, place⟩, loop, written⟩ := bind_eq_ok.mp ran
  have none := replLoop_done loop written
  exact absurd none (by decide)

end WordPair

end Comp304.Shell
