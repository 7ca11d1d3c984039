import Comp304.Alloc.Termination

/-! Which requests are served in a heap in order. The reuse path is undone by one
thing: for a block that is neither the first nor the last of the list all its
writes are mapped, but behind the last node it writes the `prev` of NULL. The
growth paths are as good as the system's answer. -/
namespace Comp304.Alloc
open Library.Budget Library.ByteMemory Library.Lp64 Library.Extents Library.LinkedChain Heap

/-- The block the search takes is the first of the list, or has a node behind it. -/
def Reusable (h : Heap) (nodes : List Nat) (total : Nat) : Prop :=
  ∀ block ∈ h.firstFit nodes total, block = h.head ∨ ∃ after ∈ nodes, Follows nodes block after

instance (h : Heap) (nodes : List Nat) (total : Nat) : Decidable (Reusable h nodes total) :=
  inferInstanceAs (Decidable (∀ block ∈ h.firstFit nodes total, _ ∨ ∃ after ∈ nodes, _))

/-- If nothing on the list fits, the system refuses no part of the growth. -/
def GrowthGranted (sys : System) (h : Heap) (nodes : List Nat) (total : Nat) : Prop :=
  h.firstFit nodes total = none → (growHeap sys h total).2.sbrkFailures = h.sbrkFailures

instance (sys : System) (h : Heap) (nodes : List Nat) (total : Nat) :
    Decidable (GrowthGranted sys h nodes total) := inferInstanceAs (Decidable (_ → _ = _))

section
variable {sys : System} {h h' : Heap} {live : List Block} {free : List Nat}

/-- What ends without returning has faulted. -/
theorem segv_of_ends {run : Except Fault α} (ends : Ends .spent run)
    (stuck : ∀ value, run ≠ .ok value) : run = .error .segv := by
  cases run with
  | ok value => exact absurd rfl (stuck value)
  | error fault =>
    cases fault with
    | segv => rfl
    | spent => exact absurd rfl ends

/-! ### The reuse path -/

/-- The reuse of the first block of the list returns. -/
theorem reuseHead_returns (tidy : Tidy sys h live (block :: back)) (wide : 16 ≤ total)
    (aligned : total % 8 = 0) (fits : total ≤ h.word block) :
    ∃ h', reuseHead sys (block + total) ((h.word block - total : Nat) : Int)
      (stamped h block total) = .ok h' := by
  have bounds := tidy.node_bounds (n := block) (by simp)
  have high := tidy.ledger.high
  have first : (stamped h block total).head = block := tidy.chain.head_eq
  have inside : ∀ a, sys.base ≤ a → a + 8 ≤ h.blockEnd →
      (stamped h block total).accessible sys a 8 = true := fun a low below =>
    accessible_inside (h := h) low (by omega) high
  by_cases rest : (0 : Int) < ((h.word block - total : Nat) : Int)
  · refine ⟨_, (reuseHead_eq_ok first rest).mpr ⟨?_, ?_, ?_, ?_, rfl⟩⟩ <;>
      apply inside <;> omega
  · have next : (stamped h block total).word (block + 8) = h.word (block + 8) :=
      stamped_word wide (by omega)
    have read := inside (block + 8) (by omega) (by omega)
    cases back with
    | nil =>
      have last : h.word (block + 8) = 0 :=
        last_word (show Chain 0 h.nextAt h.head ([] ++ [block]) from tidy.chain)
      exact ⟨_, (reuseHead_spent_eq_ok first rest).mpr ⟨read, Or.inl ⟨next.trans last, rfl⟩⟩⟩
    | cons y ys =>
      have follows : h.word (block + 8) = y :=
        next_word (show Chain 0 h.nextAt h.head ([] ++ block :: y :: ys) from tidy.chain)
      have nonnull : y ≠ 0 := tidy.chain.ne_null (by simp)
      have roomy := tidy.node_bounds (n := y) (by simp)
      refine ⟨_, (reuseHead_spent_eq_ok first rest).mpr ⟨read, Or.inr ⟨?_, ?_, rfl⟩⟩⟩
      · rw [next, follows]
        exact nonnull
      · rw [next, follows]
        apply inside <;> omega

/-- So does the reuse of a block between two others. -/
theorem unlinkNext_returns (tidy : Tidy sys h live (front ++ p :: block :: y :: ys))
    (wide : 16 ≤ total) (aligned : total % 8 = 0) (fits : total ≤ h.word block) :
    ∃ h', unlinkNext sys (block + total) ((h.word block - total : Nat) : Int)
      (stamped h block total) p = .ok h' := by
  have split : front ++ p :: block :: y :: ys = (front ++ [p]) ++ block :: y :: ys := by simp
  have shifted := split ▸ tidy
  have high := tidy.ledger.high
  have bounds := tidy.node_bounds (n := block) (by simp)
  have boundsP := tidy.node_bounds (n := p) (by simp)
  have boundsY := tidy.node_bounds (n := y) (by simp)
  have before := shifted.others_apart (n := p) (by simp)
  have behind := shifted.others_apart (n := y) (by simp)
  have alone : p ∉ block :: y :: ys := (List.nodup_cons.mp tidy.chain.nodup.of_append_right).1
  have yp : y + 32 ≤ p ∨ p + 32 ≤ y := tidy.fields_apart (by simp) (by simp) (by
    rintro rfl
    exact alone (by simp))
  have inside : ∀ a, sys.base ≤ a → a + 8 ≤ h.blockEnd →
      (stamped h block total).accessible sys a 8 = true := fun a low below =>
    accessible_inside (h := h) low (by omega) high
  have atP : (stamped h block total).word (p + 8) = block := by
    rw [stamped_word wide (by omega)]
    exact next_word tidy.chain
  have atBlock : (stamped h block total).word (block + 8) = y := by
    rw [stamped_word wide (by omega)]
    exact next_word shifted.chain
  by_cases rest : (0 : Int) < ((h.word block - total : Nat) : Int)
  · refine ⟨_, (unlinkNext_eq_ok atP rest (by omega) (by omega)).mpr ⟨?_, ?_, ?_, ?_, ?_, rfl⟩⟩ <;>
      (try rw [atBlock]) <;> apply inside <;> omega
  · refine ⟨_, (unlinkNext_spent_eq_ok atP rest ?_ ?_).mpr ⟨?_, ?_, ?_, rfl⟩⟩
    · rw [atBlock]
      omega
    · rw [atBlock]
      omega
    · apply inside <;> omega
    · apply inside <;> omega
    · rw [atBlock]
      apply inside <;> omega

/-- The last of several nodes cannot be reused. -/
theorem unlinkNext_faults (tidy : Tidy sys h live (front ++ [p, block])) (wide : 16 ≤ total)
    (aligned : total % 8 = 0) (fits : total ≤ h.word block) :
    unlinkNext sys (block + total) ((h.word block - total : Nat) : Int)
      (stamped h block total) p = .error .segv := by
  have split : front ++ [p, block] = (front ++ [p]) ++ [block] := by simp
  have shifted := split ▸ tidy
  have before := shifted.others_apart (n := p) (by simp)
  have atP : (stamped h block total).word (p + 8) = block := by
    rw [stamped_word wide (by omega)]
    exact next_word tidy.chain
  have last : (stamped h block total).word (block + 8) = 0 := by
    rw [stamped_word wide (by omega)]
    exact last_word shifted.chain
  refine segv_of_ends unlinkNext_ends fun h' ran => ?_
  have bounds := tidy.node_bounds (n := block) (by simp)
  have behind : (stamped h block total).accessible sys (0 + 16) 8 = true := by
    rw [← last]
    by_cases rest : (0 : Int) < ((h.word block - total : Nat) : Int)
    · exact ((unlinkNext_eq_ok atP rest (by omega) (by omega)).mp ran).2.2.2.1
    · exact unlinkNext_spent_behind atP rest ran
  have low := (accessible_bounds behind).1
  omega

/-- The pointer writes of the reuse path begin at the node in front of the block. -/
theorem reuseBlock_settles (tidy : Tidy sys h live (front ++ p :: block :: back))
    (wide : 16 ≤ total) (fits : total ≤ h.word block) :
    Settles .spent (front ++ p :: block :: back).length rounds (reuseBlock sys rounds h block total)
      (unlinkNext sys (block + total) ((h.word block - total : Nat) : Int)
        (stamped h block total) p) := by
  have listed : block ∈ front ++ p :: block :: back := by simp
  have readable : ∀ n ∈ front ++ [p], (stamped h block total).accessible sys (n + 8) 8 = true := by
    intro n member
    refine (tidy.node_accessible (n := n) ?_).2
    simp only [List.mem_append, List.mem_cons, List.not_mem_nil, or_false] at member ⊢
    exact member.imp_right Or.inl
  rw [reuseBlock_eq tidy listed wide fits, if_neg tidy.chain.start_ne]
  refine (unlinkBlock_settles readable (stamped_chain tidy listed wide fits)).weaken ?_
  simp only [List.length_append, List.length_cons]
  omega

/-- Whether a block of the list can be reused. -/
theorem reuseBlock_outcome (tidy : Tidy sys h live free) (wide : 16 ≤ total)
    (aligned : total % 8 = 0) (found : h.firstFit free total = some block) :
    (Reusable h free total ∧ ∃ h', ∀ rounds, Settles .spent free.length rounds
      (reuseBlock sys rounds h block total) (.ok h')) ∨
    (¬ Reusable h free total ∧ ∀ rounds, Settles .spent free.length rounds
      (reuseBlock sys rounds h block total) (.error .segv)) := by
  have fits : total ≤ h.word block := by
    have large := List.find?_some found
    simp only [decide_eq_true_eq] at large
    exact large
  have listed := List.mem_of_find?_eq_some found
  have reusable : Reusable h free total ↔ block = h.head ∨ ∃ after ∈ free, Follows free block after := by
    rw [Reusable, found]
    simp
  obtain ⟨front, back, rfl⟩ := List.append_of_mem listed
  cases List.eq_nil_or_concat' front with
  | inl empty =>
    subst empty
    have first : h.head = block := (show Chain 0 h.nextAt h.head (block :: back) from tidy.chain).head_eq
    obtain ⟨h', ran⟩ := reuseHead_returns tidy wide aligned fits
    refine Or.inl ⟨reusable.mpr (Or.inl first.symm), h', fun rounds => .of_eq ?_⟩
    rw [reuseBlock_eq tidy listed wide fits, if_pos first]
    exact ran
  | inr split =>
    obtain ⟨front, p, rfl⟩ := split
    have shape : (front ++ [p]) ++ block :: back = front ++ p :: block :: back := by simp
    rw [shape] at tidy reusable ⊢
    have notHead : block ≠ h.head := Ne.symm tidy.chain.start_ne
    cases back with
    | nil =>
      have fault := unlinkNext_faults tidy wide aligned fits
      refine Or.inr ⟨fun holds => ?_, fun rounds => fault ▸ reuseBlock_settles tidy wide fits⟩
      obtain ⟨after, -, follows⟩ := (reusable.mp holds).resolve_left notHead
      rw [show front ++ [p, block] = (front ++ [p]) ++ [block] by simp] at tidy follows
      exact tidy.chain.not_follows_last follows
    | cons y ys =>
      obtain ⟨h', ran⟩ := unlinkNext_returns tidy wide aligned fits
      refine Or.inl ⟨reusable.mpr (Or.inr ⟨y, by simp, follows_iff.mpr ⟨front ++ [p], ys, by simp⟩⟩),
        h', fun rounds => ran ▸ reuseBlock_settles tidy wide fits⟩

/-! ### `kumalloc` -/

/-- A request in a heap in order grows the heap or reuses the first fit. -/
theorem kumalloc_settles (tidy : Tidy sys h live free) (positive : 0 < size)
    (fits : size + 15 < 2 ^ 64) :
    Settles .spent free.length rounds (kumalloc sys rounds h size)
      (match h.firstFit free (exactTotal size) with
        | none => do
          let h' ← (growHeap sys h (exactTotal size)).2.setSize sys
            (growHeap sys h (exactTotal size)).1 (exactTotal size)
          .ok (add (growHeap sys h (exactTotal size)).1 blockSize, h')
        | some block => do
          let h' ← reuseBlock sys rounds h block (exactTotal size)
          .ok (add block blockSize, h')) :=
  kumalloc_searched (fun _ => tidy.node_accessible) tidy.chain positive (totalSize_exact fits)

/-- The header of a block that was granted is inside the heap. -/
theorem Grown.header_accessible (tidy : Tidy sys h live free) (grown : Grown sys h total block g)
    (wide : 8 ≤ total) : g.accessible sys block 8 = true := by
  have low : sys.base ≤ block := by
    have ordered := tidy.space.tiling.ordered
    rw [grown.placed]
    split
    · exact tidy.ledger.low
    · next used => rwa [Heap.top, if_neg used] at ordered
  have within := grown.within
  exact accessible_inside low (by omega) grown.ledger.high

/-- In a heap in order a request is served if what it takes can be taken. -/
theorem kumalloc_returns (tidy : Tidy sys h live free) (positive : 0 < size)
    (fits : RequestFits size) (reusable : Reusable h free (exactTotal size))
    (granted : GrowthGranted sys h free (exactTotal size)) :
    ∃ p h', (∀ rounds, Settles .spent free.length rounds (kumalloc sys rounds h size) (.ok (p, h'))) ∧
      h'.sbrkFailures = h.sbrkFailures := by
  obtain ⟨wide, aligned, -, -⟩ := exactTotal_bounds positive fits
  have settles : ∀ rounds, Settles .spent _ rounds (kumalloc sys rounds h size) _ := fun rounds =>
    kumalloc_settles tidy positive fits.1
  cases found : h.firstFit free (exactTotal size) with
  | none =>
    simp only [found] at settles
    have quiet := granted found
    have grown := growHeap_grown fits.2 tidy.ledger quiet
    have access := grown.header_accessible tidy (by omega)
    refine ⟨add (growHeap sys h (exactTotal size)).1 blockSize,
      (growHeap sys h (exactTotal size)).2.put (growHeap sys h (exactTotal size)).1 (exactTotal size),
      fun rounds => (settles rounds).trans (.of_eq ?_), quiet⟩
    rw [setSize, store_ok access]
    rfl
  | some block =>
    simp only [found] at settles
    obtain ⟨-, h', ran⟩ | ⟨stuck, -⟩ := reuseBlock_outcome tidy wide aligned found
    · have same := reuseBlock_sameBreak ((ran (free.length + 1)).reached (Nat.lt_succ_self _))
      exact ⟨add block blockSize, h',
        fun rounds => (settles rounds).trans (Settles.bind (ran rounds) (.refl _)), same.sbrkFailures⟩
    · exact absurd reusable stuck

/-- The request that takes the last of several nodes faults. -/
theorem kumalloc_faults (tidy : Tidy sys h live free) (positive : 0 < size)
    (fits : RequestFits size) (stuck : ¬ Reusable h free (exactTotal size)) :
    Settles .spent free.length rounds (kumalloc sys rounds h size) (.error .segv) := by
  obtain ⟨wide, aligned, -, -⟩ := exactTotal_bounds positive fits
  have settles : Settles .spent _ rounds (kumalloc sys rounds h size) _ :=
    kumalloc_settles tidy positive fits.1
  cases found : h.firstFit free (exactTotal size) with
  | none => exact absurd (by simp [Reusable, found]) stuck
  | some block =>
    simp only [found] at settles
    obtain ⟨reusable, -⟩ | ⟨-, ran⟩ := reuseBlock_outcome tidy wide aligned found
    · exact absurd reusable stuck
    · exact settles.trans ((ran rounds).stop _)

end

end Comp304.Alloc
