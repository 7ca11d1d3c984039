import Comp304.Framework.Supervised

/-! What it means that a checked call returns. The verdicts on a new buffer and on a
pointer that is given back are exact. The verdict on a resized buffer is not: it depends
on the byte that the buffer happens to hold. -/
namespace Comp304.Framework
open Library.Budget Library.ByteMemory Library.Lp64 Library.Extents Alloc Alloc.Heap

section
variable {σ ε : Type} {al : Allocator σ ε} {w w' : World σ} {ptr size : Nat}

/-- In every run, whatever the allocator is: a call that returns has done to the records
what it stands for. The buffers recorded are apart, and after the checks each still has
the byte with which it was filled in all its places. -/
theorem checked_run_sound {call : CheckedCall} {rounds result : Nat} {unchecked useCalloc : Bool}
    (run : CheckedRun al w) (typed : call.Typed)
    (ran : call.exec al rounds unchecked useCalloc w = .ok (result, w')) :
    call.Serves al w w' result ∧
      (∀ r ∈ w'.store.records .allocs, ∀ s ∈ w'.store.records .allocs, r ≠ s → r.1.Apart s.1) ∧
      (call.Checks unchecked → Intact al w') := by
  obtain ⟨⟨lists, valid⟩, -⟩ := run.sound
  obtain ⟨⟨lists', valid'⟩, serves, checks⟩ := CheckedCall.returned valid typed ran
  exact ⟨serves, fun r recorded s recorded' different =>
    valid'.records_apart allocs_sorted recorded recorded' different, checks⟩

/-- The second of two buffers is freed. -/
theorem checked_run_sound_free : ∃ w w' : World Heap,
    w.store.records .allocs = {(⟨65576, 24⟩, 2), (⟨65544, 24⟩, 1)} ∧
    (CheckedCall.free 65576).Serves (allocC pagedSystem 64) w w' 0 ∧
      (∀ r ∈ w'.store.records .allocs, ∀ s ∈ w'.store.records .allocs, r ≠ s → r.1.Apart s.1) ∧
      Intact (allocC pagedSystem 64) w' := by
  obtain ⟨w, t, two⟩ := two_buffers
  obtain ⟨filled, u, written, -, -, -, works⟩ := two.gives
  have used : (⟨65568, 32, 24⟩ : Block) ∈ t.live := two.live ▸ List.mem_cons_self
  obtain ⟨enough, passes⟩ := two.begun.run.watched.free_passes used written works
  obtain ⟨⟨w', ran⟩, -⟩ := passes (enough + 1) (Nat.lt_succ_self _)
  have called : (CheckedCall.free 65576).exec (allocC pagedSystem 64) (enough + 1) false false w =
      .ok (0, w') := bind_eq_ok.mpr ⟨w', ran, rfl⟩
  have typed : (CheckedCall.free 65576).Typed := trivial
  obtain ⟨serves, apart, intact⟩ := checked_run_sound two.begun.checked typed called
  exact ⟨w, w', two.begun.records, serves, apart, intact (Nat.succ_ne_zero _)⟩

/-- In every run the verdict on a new buffer is exact: it is returned if and only if it
is not NULL, aligned, in the heap, cleared if it must be, and apart from all buffers and
from the lowest zero-sized allocation, and no buffer has been written to, unless that
check is switched off. -/
theorem checked_alloc_verdict {source : Source} {nmemb : Nat} {memory : σ} (run : CheckedRun al w)
    (something : ¬ (nmemb = 0 ∨ size = 0))
    (allocated : allocate al source nmemb size w.memory = .ok (ptr, memory)) :
    ∃ enough, ∀ rounds, enough < rounds → ∀ unchecked,
      ((∃ w', checkedAllocFrom al rounds unchecked source nmemb size w = .ok (ptr, w')) ↔
        Accepted al (source == .calloc) ptr (mul nmemb size) { w with memory := memory } ∧
          (unchecked = false → Intact al { w with memory := memory })) := by
  obtain ⟨⟨lists, valid⟩, -⟩ := run.sound
  refine ⟨(lists .allocs).length + 1, fun rounds enough unchecked => ⟨?_, fun ⟨accepted, intact⟩ =>
    checkedAllocFrom_passes valid something allocated enough accepted intact⟩⟩
  rintro ⟨w', ran⟩
  obtain ⟨memory', allocated', accepted, gained, checks⟩ := checkedAllocFrom_buffer valid something ran
  obtain ⟨-, rfl⟩ := Prod.mk.inj (Except.ok.inj (allocated.symm.trans allocated'))
  exact ⟨accepted, fun checked => (intact_insert (getData_bounds _).2 gained.filled
    accepted.fresh.apart gained.allocs).mp (checks checked)⟩

/-- A third buffer is asked for and accepted. -/
theorem checked_alloc_verdict_third : ∃ (w : World Heap) (ptr enough : Nat),
    w.store.records .allocs = {(⟨65576, 24⟩, 2), (⟨65544, 24⟩, 1)} ∧ ∀ rounds, enough < rounds →
      ∀ unchecked, ∃ w',
        checkedAllocFrom (allocC pagedSystem 64) rounds unchecked .malloc 1 24 w = .ok (ptr, w') := by
  obtain ⟨w, t, two⟩ := two_buffers
  have ends : ((playBuffer 1 24 freshState).bind (playBuffer 2 24)).any (fun t =>
      (Call.kumalloc 24).checkClean t ∧ (playCall pagedSystem 64 t (.kumalloc 24)).isSome) = true := by
    decide +kernel
  obtain ⟨clean, plays⟩ := of_decide_eq_true (two.passed ends)
  obtain ⟨u, played⟩ := Option.isSome_iff_exists.mp plays
  obtain ⟨ptr, works⟩ := works_of_play clean played
  have works : Works pagedSystem 64 ⟨w.memory, t.live⟩ (Source.call 1 24 .malloc) ptr u :=
    two.begun.memory ▸ works
  have watched := two.begun.run.watched
  obtain ⟨enough, verdict⟩ := checked_alloc_verdict two.begun.checked (by decide) works.allocates
  obtain ⟨b, rfl, issued⟩ := works.issued watched.run (by decide) (by decide)
  obtain ⟨accepted, intact⟩ := issued.accepted watched (by decide)
  exact ⟨w, b.ptr, enough, two.begun.records, fun rounds more unchecked =>
    (verdict rounds more unchecked).mpr ⟨accepted, fun _ => intact⟩⟩

/-- In every run the verdict on a pointer that is freed is exact, but for NULL and the
zero-sized allocations: it must be where a buffer begins, the buffer must be as it was
filled, and the allocator may not touch the others. -/
theorem checked_free_verdict (run : CheckedRun al w) (some : ¬ FreesNothing w ptr) :
    ∃ enough, ∀ rounds, enough < rounds → ((∃ w', checkedFree al rounds ptr w = .ok w') ↔
      ∃ r, Releases al w (if ptr = 2 ^ 64 - 1 then ptr - 1 else ptr) r) := by
  obtain ⟨⟨lists, valid⟩, -⟩ := run.sound
  refine ⟨(lists .allocs).length + (lists .zeroSizedAllocs).length, fun rounds enough => ⟨?_, ?_⟩⟩
  · rintro ⟨w', ran⟩
    obtain ⟨w₁, r, retired, freed, same, intact⟩ := checkedFree_buffer valid some ran
    refine ⟨r, retired.recorded, retired.start, retired.reads, w₁.memory, w'.memory, retired.filled, freed,
      fun t recorded => intact t ?_⟩
    rw [same, retired.allocs]
    exact recorded
  · rintro ⟨r, releases⟩
    exact checkedFree_passes valid some releases enough

/-- The second of two buffers is given back. -/
theorem checked_free_verdict_buffer : ∃ (w : World Heap) (enough : Nat),
    w.store.records .allocs = {(⟨65576, 24⟩, 2), (⟨65544, 24⟩, 1)} ∧ ∀ rounds, enough < rounds →
      ∃ w', checkedFree (allocC pagedSystem 64) rounds 65576 w = .ok w' := by
  obtain ⟨w, t, two⟩ := two_buffers
  obtain ⟨filled, u, written, -, -, -, works⟩ := two.gives
  have used : (⟨65568, 32, 24⟩ : Block) ∈ t.live := two.live ▸ List.mem_cons_self
  have watched := two.begun.run.watched
  obtain ⟨d, releases⟩ := watched.releases used written works
  have some := watched.frees_something ⟨65568, 32, 24⟩
  obtain ⟨enough, verdict⟩ := checked_free_verdict two.begun.checked some
  exact ⟨w, enough, two.begun.records, fun rounds more => (verdict rounds more).mpr ⟨_, releases⟩⟩

/-- In every run, an allocator that does what `realloc` promises passes if and only if the
buffer holds a byte below 128: the others are read back as a negative `char`. -/
theorem checked_realloc_verdict {newptr : Nat} {r : Extent × Nat} {memory : σ} (run : CheckedRun al w)
    (recorded : r ∈ w.store.records .allocs) (nonnull : r.1.lo ≠ 0) (positive : 0 < size)
    (reads : al.Reads w.memory r) (resizes : Resizes al w r size newptr memory) :
    ∃ enough, ∀ rounds, enough < rounds → ∀ unchecked,
      ((∃ w', checkedRealloc al rounds unchecked r.1.lo size w = .ok (newptr, w')) ↔ r.2 < 128) := by
  obtain ⟨⟨lists, valid⟩, bytes⟩ := run.sound
  have small := (bytes r recorded).2
  have holds := valid.record_holds allocs_sorted recorded
  have some : 0 < min r.1.len size := by
    simp only [Extent.Holds, Extent.stop] at holds
    omega
  refine ⟨(lists .allocs).length + 1, fun rounds enough unchecked => ?_⟩
  rw [checkedRealloc, if_neg nonnull, if_neg (Nat.ne_of_gt positive)]
  constructor
  · rintro ⟨w', ran⟩
    have short : size < 2 ^ 64 := by
      have fits := resizes.fits
      omega
    obtain ⟨-, ⟨t, recorded', start, -, -, memory', returned, retained⟩, -⟩ :=
      checkedResize_returned valid short ran
    obtain ⟨-, rfl⟩ := Prod.mk.inj (Except.ok.inj (resizes.returns.symm.trans returned))
    rw [valid.record_unique recorded recorded' start] at retained
    exact ((checkRetained_eq_ok small some).mp retained).2
  · intro below
    exact checkedResize_passes valid recorded positive reads resizes
      ((checkRetained_eq_ok small some).mpr ⟨resizes.kept, below⟩) enough

/-- The first of two buffers holds 1, so it can be resized. -/
theorem checked_realloc_verdict_grown : ∃ (w : World Heap) (newptr enough : Nat),
    w.store.records .allocs = {(⟨65576, 24⟩, 2), (⟨65544, 24⟩, 1)} ∧ ∀ rounds, enough < rounds →
      ∀ unchecked, ∃ w', checkedRealloc (allocC pagedSystem 64) rounds unchecked 65544 40 w =
        .ok (newptr, w') := by
  obtain ⟨w, t, two⟩ := two_buffers
  have ends : ((playBuffer 1 24 freshState).bind (playBuffer 2 24)).any (fun t =>
      (kurealloc pagedSystem 64 t.heap 65544 40).toOption.any fun r =>
        65600 ≤ r.1 ∧ r.1 + 40 < 2 ^ 64 ∧ r.2.accessible pagedSystem r.1 40 ∧
          (∀ i < 24, r.2.accessible pagedSystem (add r.1 i) 1 ∧ r.2.mem (add r.1 i) = 1) ∧
          ∀ i < 24, r.2.accessible pagedSystem (65576 + i) 1 ∧ r.2.mem (65576 + i) = 2) = true := by
    decide +kernel
  obtain ⟨⟨newptr, memory⟩, resized, passed⟩ := (Option.any_eq_true _ _).mp (two.passed ends)
  obtain ⟨behind, fits, access, kept, others⟩ := of_decide_eq_true passed
  have records := two.begun.records
  rw [← two.begun.memory] at resized
  have recorded : ((⟨65544, 24⟩, 1) : Extent × Nat) ∈ w.store.records .allocs := by
    rw [records]
    exact Or.inr rfl
  have other : ∀ s ∈ w.store.records .allocs \ {((⟨65544, 24⟩, 1) : Extent × Nat)},
      s = (⟨65576, 24⟩, 2) := by
    rw [records]
    rintro s ⟨rfl | rfl, different⟩
    · rfl
    · exact absurd rfl different
  have resizes : Resizes (allocC pagedSystem 64) w (⟨65544, 24⟩, 1) 40 newptr memory := by
    refine ⟨toOption_eq_some.mp resized, fun i inside => ⟨1, ?_, rfl⟩, fits, fun s inside => ?_,
      ⟨_, if_pos access⟩, fun s inside => ?_⟩
    · obtain ⟨readable, same⟩ := kept i (Nat.lt_of_lt_of_le inside (Nat.min_le_left _ _))
      exact same ▸ if_pos readable
    · obtain rfl := other s inside
      intro x holds holds'
      simp only [Extent.Holds, Extent.stop] at holds holds'
      omega
    · obtain rfl := other s inside
      intro x holds
      obtain ⟨readable, same⟩ := others (x - 65576) (by
        simp only [Extent.Holds, Extent.stop] at holds
        omega)
      rw [Nat.add_sub_cancel' holds.1] at readable same
      exact ⟨2, same ▸ if_pos readable, rfl⟩
  obtain ⟨enough, verdict⟩ := checked_realloc_verdict two.begun.checked recorded (by decide) (by decide)
    (two.begun.run.watched.intact _ recorded) resizes
  exact ⟨w, newptr, enough, records, fun rounds more unchecked =>
    (verdict rounds more unchecked).mpr (by decide)⟩

end

end Comp304.Framework
