import Comp304.Alloc.Realloc

/-! Calls whose growing `sbrk` is refused. Nothing in the allocator looks at what
`sbrk` returned, so there is no way back: with nothing left over the header of
the new block is written at address -1, and with something left over the block
is placed at `block_end` as if the break had moved. -/
namespace Comp304.Alloc
open Library.Budget Library.ByteMemory Library.Lp64 Heap

/-- `kumalloc` finds no block for this size, has to grow the heap, and the system
refuses: `sbrk` returns `(void *) -1` and leaves the break where it is. -/
structure GrowthRefused (sys : System) (h : Heap) (size : Nat) : Prop where
  positive : 0 < size
  unfit : ∃ rounds, findBlock sys h (sizeAlign (add size blockSize)) rounds h.head = .ok 0
  short : h.availableMemory < sizeAlign (add size blockSize) ∨ h.availableMemory = 0
  refused : sbrk sys h (toIntptr (capacity (sizeAlign (add size blockSize)))) =
    (2 ^ 64 - 1, { h with sbrkCalls := h.sbrkCalls + 1, sbrkFailures := h.sbrkFailures + 1 })

/-- The `kumalloc` this call makes has its growth refused. -/
def Call.Refused (sys : System) (h : Heap) : Call → Prop
  | .kumalloc size => GrowthRefused sys h size
  | .kucalloc nmemb size =>
    size ≠ 0 ∧ nmemb ≠ 0 ∧ GrowthRefused sys h (sizeAlign (mul nmemb size))
  | .kufree _ => False
  | .kurealloc ptr size =>
    ptr = 0 ∧ GrowthRefused sys h size ∨
    ptr ≠ 0 ∧ size ≠ 0 ∧ (∃ prevSize, h.getSize sys (sub ptr blockSize) = .ok prevSize ∧ prevSize < size) ∧
      GrowthRefused sys h (sizeAlign (add size blockSize))

/-- The call returns NULL, and the globals, the nodes of the free list and the
live blocks are what they were. -/
def FailsAtomically (sys : System) (s : State) (call : Call) : Prop :=
  ∃ rounds h', call.exec sys rounds s.heap = .ok (0, h') ∧
    h'.availableMemory = s.heap.availableMemory ∧ h'.blockEnd = s.heap.blockEnd ∧
    h'.head = s.heap.head ∧
    (∀ n, s.heap.OnFreeList n → h'.sizeAt n = s.heap.sizeAt n ∧ h'.nextAt n = s.heap.nextAt n ∧
      h'.prevAt n = s.heap.prevAt n) ∧
    Untouched s.live s.heap h'

/-- The call took no notice: it was able to return because something was left
over, and its block is at `block_end`, which has moved though the break has not. -/
structure Unnoticed (h : Heap) (result : Nat) (h' : Heap) : Prop where
  leftover : h.availableMemory ≠ 0
  placed : result = h.blockEnd + 8
  blockEnd : h'.blockEnd ≠ h.blockEnd
  brk : h'.brk = h.brk

section
variable {sys : System} {h h' : Heap} {s : State} {call : Call}

/-- The search finds the same block on every budget it returns on. -/
theorem findBlock_unique (first : findBlock sys h total rounds node = .ok block)
    (second : findBlock sys h total rounds' node = .ok block') : block' = block := by
  induction rounds generalizing rounds' node with
  | zero => cases first
  | succ rounds ih =>
    cases rounds' with
    | zero => cases second
    | succ rounds' =>
      simp only [findBlock] at first second
      split at first
      · next null =>
        rw [if_pos null] at second
        cases first
        cases second
        rfl
      · next nonnull =>
        rw [if_neg nonnull] at second
        obtain ⟨size, sized, first⟩ := bind_eq_ok.mp first
        rw [sized, ok_bind] at second
        split at first
        · next fits =>
          rw [if_pos fits] at second
          cases first
          cases second
          rfl
        · next small =>
          rw [if_neg small] at second
          obtain ⟨next, followed, first⟩ := bind_eq_ok.mp first
          rw [followed, ok_bind] at second
          exact ih first second

/-- With nothing left over the new block is at address -1. -/
theorem growHeap_refused_fresh (fresh : h.availableMemory = 0)
    (refused : (sbrk sys h (toIntptr (capacity total))).1 = 2 ^ 64 - 1) :
    (growHeap sys h total).1 = 2 ^ 64 - 1 := by
  rw [growHeap, if_pos fresh]
  exact refused

/-- With too little left over the new block is where the old ones end. -/
theorem growHeap_refused_short (leftover : h.availableMemory ≠ 0) (short : h.availableMemory < total)
    (refused : sbrk sys h (toIntptr (capacity total)) =
      (2 ^ 64 - 1, { h with sbrkCalls := h.sbrkCalls + 1, sbrkFailures := h.sbrkFailures + 1 })) :
    (growHeap sys h total).1 = h.blockEnd ∧
      (growHeap sys h total).2.blockEnd = add h.blockEnd total ∧
      (growHeap sys h total).2.brk = h.brk := by
  rw [growHeap, if_neg leftover, if_neg (Nat.not_le_of_lt short), refused]
  exact ⟨rfl, rfl, rfl⟩

theorem sizeAlign_lt (n : Nat) : sizeAlign n < 2 ^ 64 := Nat.mod_lt _ (by decide)

theorem add_ne_self (positive : 0 < n) (bound : n < 2 ^ 64) : add a n ≠ a := by
  unfold add
  omega

/-- A refused `kumalloc` faults, or it does not notice. -/
theorem kumalloc_refused (growth : GrowthRefused sys h size)
    (ran : kumalloc sys rounds h size = .ok (result, h')) : Unnoticed h result h' := by
  obtain ⟨positive, ⟨searched, unfit⟩, short, refused⟩ := growth
  simp only [kumalloc, if_neg (Nat.ne_of_gt positive)] at ran
  have bound := sizeAlign_lt (add size blockSize)
  generalize sizeAlign (add size blockSize) = total at ran unfit short refused bound
  obtain ⟨block, found, ran⟩ := bind_eq_ok.mp ran
  cases findBlock_unique unfit found
  simp only [if_true] at ran
  obtain ⟨final, stored, last⟩ := bind_eq_ok.mp ran
  cases last
  obtain ⟨mapped, rfl⟩ := store_eq_ok.mp stored
  have bounds := accessible_bounds mapped
  by_cases fresh : h.availableMemory = 0
  · rw [growHeap_refused_fresh fresh (by rw [refused])] at bounds
    omega
  · have short : h.availableMemory < total := short.resolve_right fresh
    obtain ⟨placed, ended, still⟩ := growHeap_refused_short fresh short refused
    rw [placed] at bounds ⊢
    refine ⟨fresh, add_header bounds.2, ?_, still⟩
    rw [put_blockEnd, ended]
    exact add_ne_self (by omega) bound

theorem Unnoticed.of_mem (unnoticed : Unnoticed h result h') (mem : Memory) :
    Unnoticed h result { h' with mem := mem } :=
  ⟨unnoticed.leftover, unnoticed.placed, unnoticed.blockEnd, unnoticed.brk⟩

/-- The same of all three functions that allocate. -/
theorem exec_refused (refused : call.Refused sys h)
    (ran : call.exec sys rounds h = .ok (result, h')) : Unnoticed h result h' := by
  cases call with
  | kumalloc size => exact kumalloc_refused refused ran
  | kucalloc nmemb size =>
    obtain ⟨sized, counted, growth⟩ := refused
    simp only [Call.exec, kucalloc, if_neg (not_or.mpr ⟨sized, counted⟩)] at ran
    obtain ⟨⟨block, middle⟩, allocated, ran⟩ := bind_eq_ok.mp ran
    obtain ⟨final, cleared, last⟩ := bind_eq_ok.mp ran
    cases last
    obtain ⟨mem, rfl⟩ := memsetZero_mem cleared
    exact (kumalloc_refused growth allocated).of_mem mem
  | kufree ptr => exact refused.elim
  | kurealloc ptr size =>
    simp only [Call.exec, kurealloc] at ran
    rcases refused with ⟨null, growth⟩ | ⟨nonnull, sized, ⟨prevSize, header, less⟩, growth⟩
    · rw [if_neg (fun zero => zero.2 null), if_pos null] at ran
      exact kumalloc_refused growth ran
    · rw [if_neg (fun zero => sized zero.1), if_neg nonnull, header, ok_bind,
        if_neg (Nat.not_le_of_lt less)] at ran
      obtain ⟨⟨block, middle⟩, allocated, ran⟩ := bind_eq_ok.mp ran
      obtain ⟨final, copied, last⟩ := bind_eq_ok.mp ran
      cases last
      obtain ⟨mem, rfl⟩ := memcpy_mem copied
      exact (kumalloc_refused growth allocated).of_mem mem

/-- No call whose growth is refused fails atomically, in any state: if it returns
at all, it has not noticed. -/
theorem refused_not_atomic (refused : call.Refused sys s.heap) :
    ¬ FailsAtomically sys s call ∧
    ∀ rounds result h', call.exec sys rounds s.heap = .ok (result, h') →
      Unnoticed s.heap result h' := by
  refine ⟨?_, fun rounds result h' ran => exec_refused refused ran⟩
  rintro ⟨rounds, h', ran, -, -, -, -, -⟩
  have unnoticed := exec_refused refused ran
  exact absurd unnoticed.placed (Nat.succ_ne_zero _).symm

end

/-! ### A system that grants one chunk -/

/-- The system of the tests, as long as it grants only this many calls of `sbrk`. -/
def grantingSystem (calls : Nat) : System := { pagedSystem with granted := fun n => n < calls }

/-- On an empty list nothing fits, so it is enough that too little is left over. -/
theorem growthRefused_of_empty {sys : System} {h : Heap} (positive : 0 < size) (empty : h.head = 0)
    (short : h.availableMemory < sizeAlign (add size blockSize) ∨ h.availableMemory = 0)
    (denied : sys.granted h.sbrkCalls = false) : GrowthRefused sys h size := by
  refine ⟨positive, ⟨1, ?_⟩, short, ?_⟩
  · rw [empty, findBlock, if_pos rfl]
  · rw [sbrk, if_neg (by simp [denied])]

/-- After a first block there is something left over, but not enough for the second. -/
theorem second_refused : ∃ s h', ValidRun (grantingSystem 1) s ∧
    (Call.kumalloc 10000).Refused (grantingSystem 1) s.heap ∧
    (Call.kumalloc 10000).exec (grantingSystem 1) 1 s.heap = .ok (65560, h') ∧
    h'.brk < 65560 + 10000 := by
  have ends : (playScript (grantingSystem 1) (fun _ call => call.Plain) 64 freshState
      [.kumalloc 8]).any (fun s => s.heap.head = 0 ∧ s.heap.availableMemory = 8176 ∧
        s.heap.sbrkCalls = 1 ∧
        ((Call.kumalloc 10000).exec (grantingSystem 1) 1 s.heap).toOption.any fun outcome =>
          outcome.1 = 65560 ∧ outcome.2.brk < 65560 + 10000) = true := by
    decide +kernel
  obtain ⟨s, played, shape⟩ := (Option.any_eq_true _ _).mp ends
  obtain ⟨empty, leftover, calls, returns⟩ := of_decide_eq_true shape
  obtain ⟨⟨result, h'⟩, ran, outcome⟩ := (Option.any_eq_true _ _).mp returns
  obtain ⟨rfl, beyond⟩ := of_decide_eq_true outcome
  have refused : (Call.kumalloc 10000).Refused (grantingSystem 1) s.heap := by
    refine growthRefused_of_empty (by decide) empty (Or.inl ?_) ?_
    · rw [leftover]
      decide
    · rw [calls]
      rfl
  have run : ValidRun (grantingSystem 1) s :=
    run_of_script (fun _ _ plain => of_decide_eq_true plain) (.start _) played
  exact ⟨s, h', run, refused, toOption_eq_some.mp ran, beyond⟩

theorem refused_not_atomic_second : ∃ s h', ValidRun (grantingSystem 1) s ∧
    ¬ FailsAtomically (grantingSystem 1) s (.kumalloc 10000) ∧
    (Call.kumalloc 10000).exec (grantingSystem 1) 1 s.heap = .ok (65560, h') ∧
    Unnoticed s.heap 65560 h' := by
  obtain ⟨s, h', run, refused, ran, -⟩ := second_refused
  obtain ⟨never, unnoticed⟩ := refused_not_atomic refused
  exact ⟨s, h', run, never, ran, unnoticed _ _ _ ran⟩

/-- The second block is handed out beyond the break. -/
theorem refused_block_handed_out : ∃ s, ValidRun (grantingSystem 1) s ∧
    (Call.kumalloc 10000).Refused (grantingSystem 1) s.heap ∧
    ¬ FailsAtomically (grantingSystem 1) s (.kumalloc 10000) ∧
    ∃ h', (Call.kumalloc 10000).exec (grantingSystem 1) 1 s.heap = .ok (65560, h') ∧
      h'.brk < 65560 + 10000 := by
  obtain ⟨s, h', run, refused, ran, beyond⟩ := second_refused
  refine ⟨s, run, refused, ?_, h', ran, beyond⟩
  rintro ⟨rounds, final, returned, -, -, -, -, -⟩
  exact absurd (exec_refused refused returned).placed (Nat.succ_ne_zero _).symm

end Comp304.Alloc
