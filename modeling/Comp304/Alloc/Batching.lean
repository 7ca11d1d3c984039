import Mathlib.Order.Bounds.Basic
import Comp304.Alloc.Layout

/-! Growth in chunks of 8192 bytes. As long as nothing is freed the list stays
empty, and every request comes out of `available_memory` or out of one more
chunk added to it. So the number of chunks is the least that covers the totals,
whatever the memory holds, and even when a refused `sbrk` is not noticed. -/
namespace Comp304.Alloc
open Library.Budget Library.ByteMemory Library.Lp64 Heap

/-- Calls of `kumalloc` from the start, the last first, each for at least one
byte and at most what fits in a chunk. The memory may change between calls. -/
inductive Batch (sys : System) : Heap → List Nat → Prop where
  | start (mem : Memory) : Batch sys (Heap.initial sys mem) []
  | client {h : Heap} (mem : Memory) : Batch sys h sizes → Batch sys { h with mem := mem } sizes
  | kumalloc {h h' : Heap} : Batch sys h sizes → 1 ≤ size → size ≤ 8184 →
      kumalloc sys rounds h size = .ok (p, h') → Batch sys h' (size :: sizes)

/-- The sum of the block sizes. -/
def totals (sizes : List Nat) : Nat := (sizes.map fun size => sizeAlign (add size blockSize)).sum

/-- The chunks asked for are used up to a rest of less than a chunk, and the
break is no further than they reach. If none was refused, the books balance. -/
structure Chunked (sys : System) (h : Heap) (used : Nat) : Prop where
  headless : h.head = 0
  account : h.availableMemory + used = 8192 * h.sbrkCalls
  leftover : h.availableMemory < 8192
  reach : h.brk ≤ sys.base + 8192 * h.sbrkCalls
  ledger : h.sbrkFailures = 0 → Ledger sys h
  floor : h.sbrkFailures = 0 → h.blockEnd ≠ 0 → sys.base ≤ h.blockEnd

section
variable {sys : System} {h h' : Heap}

theorem capacity_chunk (fits : total ≤ 8192) : capacity total = 8192 := by
  rw [capacity, if_neg (by omega)]

/-- Granted or not, a call of `sbrk` for a chunk counts, and it moves the break
by a chunk at most. -/
theorem sbrk_chunk (sys : System) (h : Heap) :
    (sbrk sys h (toIntptr 8192)).2.head = h.head ∧
    (sbrk sys h (toIntptr 8192)).2.availableMemory = h.availableMemory ∧
    (sbrk sys h (toIntptr 8192)).2.sbrkCalls = h.sbrkCalls + 1 ∧
    (sbrk sys h (toIntptr 8192)).2.brk ≤ h.brk + 8192 := by
  have signed : toIntptr 8192 = 8192 := by decide
  rw [signed, sbrk]
  split
  · exact ⟨rfl, rfl, rfl, by simp only; omega⟩
  · exact ⟨rfl, rfl, rfl, by simp only; omega⟩

theorem growHeap_failures (sys : System) (h : Heap) (total : Nat) :
    h.sbrkFailures ≤ (growHeap sys h total).2.sbrkFailures := by
  unfold growHeap
  split
  · exact sbrk_failures sys h _
  · split
    · exact Nat.le_refl _
    · exact sbrk_failures sys h _

/-- Growing takes the total out of what is left, with one more chunk added to it
if it falls short. -/
theorem growHeap_chunk (positive : 0 < total) (fits : total ≤ 8192)
    (leftover : h.availableMemory < 8192) :
    (growHeap sys h total).2.head = h.head ∧ (growHeap sys h total).2.availableMemory < 8192 ∧
    ∃ chunks, (growHeap sys h total).2.sbrkCalls = h.sbrkCalls + chunks ∧
      (growHeap sys h total).2.availableMemory + total = h.availableMemory + 8192 * chunks ∧
      (growHeap sys h total).2.brk ≤ h.brk + 8192 * chunks := by
  obtain ⟨head, available, calls, brk⟩ := sbrk_chunk sys h
  have rest : sub 8192 total = 8192 - total := sub_of_le fits (by omega)
  have added : add h.availableMemory (8192 - total) = h.availableMemory + (8192 - total) :=
    add_of_lt (by omega)
  unfold growHeap
  rw [capacity_chunk fits, rest]
  split
  · next empty =>
    refine ⟨head, ?_, 1, calls, ?_, brk⟩ <;> simp only [available, added] <;> omega
  · split
    · next enough =>
      have left : sub h.availableMemory total = h.availableMemory - total :=
        sub_of_le enough (by omega)
      refine ⟨rfl, ?_, 0, rfl, ?_, Nat.le_refl _⟩ <;> simp only [left] <;> omega
    · next short =>
      refine ⟨head, ?_, 1, calls, ?_, brk⟩ <;> simp only [available, added] <;> omega

/-- The books after growing, if no `sbrk` was refused so far. -/
theorem growHeap_placed (chunked : Chunked sys h used) (fits : total ≤ 8192)
    (quiet : (growHeap sys h total).2.sbrkFailures = 0) :
    Grown sys h total (growHeap sys h total).1 (growHeap sys h total).2 ∧
      sys.base ≤ (growHeap sys h total).1 := by
  have before := growHeap_failures sys h total
  have ledger := chunked.ledger (by omega)
  have grown : Grown sys h total (growHeap sys h total).1 (growHeap sys h total).2 :=
    growHeap_grown (by omega) ledger (by omega)
  refine ⟨grown, ?_⟩
  rw [grown.placed]
  split
  · exact ledger.low
  · next used => exact chunked.floor (by omega) used

theorem growHeap_chunked (chunked : Chunked sys h used) (positive : 0 < total) (fits : total ≤ 8192) :
    Chunked sys (growHeap sys h total).2 (used + total) := by
  have grown : (growHeap sys h total).2.head = h.head ∧ _ :=
    growHeap_chunk positive fits chunked.leftover
  obtain ⟨head, leftover, chunks, calls, available, brk⟩ := grown
  have account := chunked.account
  have reach := chunked.reach
  refine ⟨head.trans chunked.headless, ?_, leftover, ?_, ?_, ?_⟩
  · rw [calls]
    omega
  · rw [calls]
    omega
  · exact fun quiet => (growHeap_placed chunked fits quiet).1.ledger
  · intro quiet _
    obtain ⟨grown, low⟩ := growHeap_placed chunked fits quiet
    rw [grown.blockEnd]
    exact Nat.le_add_right_of_le low

theorem Chunked.put (chunked : Chunked sys h used) : Chunked sys (h.put a v) used :=
  ⟨chunked.headless, chunked.account, chunked.leftover, chunked.reach,
    fun quiet => (mem_sameBreak h _).ledger (chunked.ledger quiet), chunked.floor⟩

/-- With an empty list `kumalloc` grows and writes the header. -/
theorem kumalloc_empty (headless : h.head = 0) (positive : 0 < size) :
    kumalloc sys (rounds + 1) h size = (do
      let h' ← (growHeap sys h (sizeAlign (add size blockSize))).2.setSize sys
        (growHeap sys h (sizeAlign (add size blockSize))).1 (sizeAlign (add size blockSize))
      .ok (add (growHeap sys h (sizeAlign (add size blockSize))).1 blockSize, h')) := by
  have searched : findBlock sys h (sizeAlign (add size blockSize)) (rounds + 1) h.head = .ok 0 := by
    rw [headless, findBlock, if_pos rfl]
  simp only [kumalloc, if_neg (Nat.ne_of_gt positive), searched]
  rfl

theorem total_bounds (positive : 1 ≤ size) (fits : size ≤ 8184) :
    size + 8 ≤ sizeAlign (add size blockSize) ∧ sizeAlign (add size blockSize) ≤ 8192 ∧
      sizeAlign (add size blockSize) ≤ size + 15 := by
  rw [totalSize_exact (by omega), exactTotal]
  omega

theorem batch_chunked (batch : Batch sys h sizes) : Chunked sys h (totals sizes) := by
  induction batch with
  | start mem =>
    exact ⟨rfl, rfl, Nat.succ_pos _, Nat.le_refl _,
      fun _ => ⟨Nat.le_refl _, sys.base_le_limit, fun _ => rfl, fun used => absurd rfl used⟩,
      fun _ used => absurd rfl used⟩
  | client mem _ chunked =>
    exact ⟨chunked.headless, chunked.account, chunked.leftover, chunked.reach,
      fun quiet => (mem_sameBreak _ mem).ledger (chunked.ledger quiet), chunked.floor⟩
  | @kumalloc sizes size rounds p h h' _ positive fits ran chunked =>
    obtain ⟨more, small, -⟩ := total_bounds positive fits
    cases rounds with
    | zero => simp [Alloc.kumalloc, Nat.ne_of_gt positive, findBlock, bind, Except.bind] at ran
    | succ rounds =>
      rw [kumalloc_empty chunked.headless positive] at ran
      obtain ⟨final, stored, last⟩ := bind_eq_ok.mp ran
      cases last
      obtain ⟨-, rfl⟩ := store_eq_ok.mp stored
      have grown := growHeap_chunked chunked (by omega) small
      rw [totals, List.map_cons, List.sum_cons, Nat.add_comm]
      exact grown.put

/-- The totals exceed the sizes by 15 bytes a call at most. -/
theorem totals_le (batch : Batch sys h sizes) : totals sizes ≤ sizes.sum + 15 * sizes.length := by
  induction batch with
  | start mem => exact Nat.le_refl _
  | client mem _ ih => exact ih
  | kumalloc _ positive fits _ ih =>
    have total := (total_bounds positive fits).2.2
    simp only [totals, List.map_cons, List.sum_cons, List.length_cons] at ih ⊢
    omega

theorem growHeap_quiet (low : sys.base ≤ h.brk) (fits : total ≤ 8192)
    (granted : sys.granted h.sbrkCalls = true) (room : h.brk + 8192 ≤ sys.limit) :
    (growHeap sys h total).2.sbrkFailures = h.sbrkFailures := by
  have signed : toIntptr 8192 = 8192 := by decide
  have allowed : sys.granted h.sbrkCalls = true ∧ (sys.base : Int) ≤ h.brk + 8192 ∧
      (h.brk : Int) + 8192 ≤ sys.limit := ⟨granted, by omega, by omega⟩
  unfold growHeap
  rw [capacity_chunk fits, signed]
  simp only [sbrk, if_pos allowed]
  split_ifs <;> rfl

/-- The next call returns if a chunk is granted. -/
theorem Chunked.kumalloc_returns (chunked : Chunked sys h used) (positive : 1 ≤ size)
    (fits : size ≤ 8184) (quiet : h.sbrkFailures = 0) (granted : sys.granted h.sbrkCalls = true)
    (room : h.brk + 8192 ≤ sys.limit) :
    ∃ p h', kumalloc sys 1 h size = .ok (p, h') ∧ h'.sbrkFailures = 0 := by
  obtain ⟨more, small, -⟩ := total_bounds positive fits
  have low := (chunked.ledger quiet).low
  rw [kumalloc_empty chunked.headless positive]
  generalize sizeAlign (add size blockSize) = total at more small
  have still : (growHeap sys h total).2.sbrkFailures = 0 :=
    (growHeap_quiet low small granted room).trans quiet
  obtain ⟨grown, bottom⟩ := growHeap_placed chunked small still
  have within := grown.within
  have access := accessible_inside (w := 8) bottom (by omega) grown.ledger.high
  refine ⟨add (growHeap sys h total).1 blockSize,
    (growHeap sys h total).2.put (growHeap sys h total).1 total, ?_, still⟩
  rw [Heap.setSize, store_ok access]
  rfl

/-- The number of chunks is the least that covers the totals, less than a chunk
is left over, and the heap exceeds what was asked for by 15 bytes a call and one
byte less than a chunk at most. As long as chunks are granted the calls return. -/
theorem batch_least (batch : Batch sys h sizes) :
    IsLeast {chunks | totals sizes ≤ 8192 * chunks} h.sbrkCalls ∧
    h.availableMemory < 8192 ∧
    h.brk ≤ sys.base + sizes.sum + 15 * sizes.length + 8191 ∧
    ∀ size, 1 ≤ size → size ≤ 8184 → h.sbrkFailures = 0 → sys.granted h.sbrkCalls = true →
      h.brk + 8192 ≤ sys.limit →
        ∃ p h', kumalloc sys 1 h size = .ok (p, h') ∧ h'.sbrkFailures = 0 := by
  have chunked := batch_chunked batch
  have account := chunked.account
  have leftover := chunked.leftover
  have reach := chunked.reach
  have overhead := totals_le batch
  refine ⟨⟨?_, ?_⟩, leftover, by omega, fun size => chunked.kumalloc_returns⟩
  · show totals sizes ≤ 8192 * h.sbrkCalls
    omega
  · intro chunks enough
    have enough : totals sizes ≤ 8192 * chunks := enough
    omega

/-- A chunk that is filled exactly, and the first block of the next one. -/
theorem batch_least_two_chunks : ∃ h, Batch pagedSystem h [1, 8184] ∧
    IsLeast {chunks | totals [1, 8184] ≤ 8192 * chunks} h.sbrkCalls := by
  have first : Batch pagedSystem _ [8184] :=
    .kumalloc (.start fun _ => 0) (by decide) (by decide) (show kumalloc _ 1 _ _ = _ from rfl)
  have second : Batch pagedSystem _ [1, 8184] :=
    .kumalloc first (by decide) (by decide) (show kumalloc _ 1 _ _ = _ from rfl)
  exact ⟨_, second, (batch_least second).1⟩

end

end Comp304.Alloc
