import Comp304.Alloc.CleanRuns

/-! What the allocator promises its client: blocks that do not overlap, calls
that leave other blocks alone, no memory lost, and free memory coalesced and
given back at the top. Clean runs keep all of it. For each promise there is a
valid run that breaks it. -/
namespace Comp304.Alloc
open Library.Extents Library.LinkedChain Heap

/-- The live and the listed blocks are apart, inside the heap, and the pointers
are aligned. -/
structure WellPlaced (sys : System) (s : State) : Prop where
  live : s.live.Pairwise fun b c => b.extent.Apart c.extent
  listed : ∀ n m, s.heap.OnFreeList n → s.heap.OnFreeList m → n ≠ m →
    (s.heap.extentAt n).Apart (s.heap.extentAt m)
  between : ∀ b ∈ s.live, ∀ n, s.heap.OnFreeList n → b.extent.Apart (s.heap.extentAt n)
  liveInside : ∀ b ∈ s.live, sys.base ≤ b.extent.lo ∧ b.extent.stop ≤ s.heap.blockEnd
  listedInside : ∀ n, s.heap.OnFreeList n →
    sys.base ≤ n ∧ (s.heap.extentAt n).stop ≤ s.heap.blockEnd
  aligned : ∀ b ∈ s.live, b.ptr % 8 = 0

/-- No byte of a live block changes, header or payload, unless the call frees it. -/
def Spares (s : State) (call : Call) (s' : State) : Prop :=
  ∀ b ∈ s.live, call ≠ .kufree b.ptr → ∀ x, b.extent.Holds x → s'.heap.mem x = s.heap.mem x

/-- Every byte of the heap is live or can be found from `head`. -/
def NothingLost (sys : System) (s : State) : Prop :=
  ∀ x, sys.base ≤ x → x < s.heap.blockEnd →
    (∃ b ∈ s.live, b.extent.Holds x) ∨ ∃ n, s.heap.OnFreeList n ∧ (s.heap.extentAt n).Holds x

/-- Listed blocks do not touch each other and end below the end of the heap; and
when nothing is live any more, the heap ends where it began. -/
structure Coalesced (sys : System) (s : State) : Prop where
  separated : ∀ n m, s.heap.OnFreeList n → s.heap.OnFreeList m → (s.heap.extentAt n).stop ≠ m
  trimmed : ∀ n, s.heap.OnFreeList n → (s.heap.extentAt n).stop < s.heap.blockEnd
  emptied : s.live = [] → s.heap.blockEnd ≠ 0 → s.heap.blockEnd = sys.base

/-- Merges on both sides, splits and a growth, all clean: four blocks are live, and
one is free before the last of them. -/
theorem clean_run_exists : ∃ s, CleanRun pagedSystem s ∧ s.live.length = 4 ∧ s.heap.head ≠ 0 ∧
    (Call.kufree 65864).checkClean s ∧ (playCall pagedSystem 64 s (.kufree 65864)).isSome := by
  have ends : (playScript pagedSystem Call.checkClean 64 freshState
      [.kumalloc 56, .kumalloc 56, .kumalloc 56, .kumalloc 56, .kumalloc 56, .kumalloc 56,
        .kufree 65608, .kufree 65736, .kufree 65672, .kumalloc 8, .kucalloc 2 4,
        .kufree 65800]).any (fun s => s.live.length = 4 ∧ s.heap.head ≠ 0 ∧
          (Call.kufree 65864).checkClean s ∧
          (playCall pagedSystem 64 s (.kufree 65864)).isSome) = true := by
    decide +kernel
  obtain ⟨s, run, shape⟩ := clean_of_script ends
  exact ⟨s, run, of_decide_eq_true shape⟩

section
variable {sys : System} {s s' : State}

theorem clean_run_well_placed (run : CleanRun sys s) : WellPlaced sys s := by
  obtain ⟨free, tidy⟩ := clean_run_tidy run
  have listed : ∀ n, s.heap.OnFreeList n → n ∈ free := fun n => tidy.chain.reach_iff.mp
  have tiling := tidy.space.tiling
  refine ⟨?_, fun n m onN onM different => ?_, fun b used n on => ?_, fun b used => ?_,
    fun n on => ?_, fun b used => ?_⟩
  · exact List.pairwise_map.mp (List.pairwise_append.mp tiling.apart).1
  · refine tiling.apart.forall (List.mem_append_right _ (List.mem_map_of_mem (listed n onN)))
      (List.mem_append_right _ (List.mem_map_of_mem (listed m onM))) fun same => ?_
    exact different (congrArg Extent.lo same)
  · exact tidy.space.used_apart_free (List.mem_map_of_mem used) (List.mem_map_of_mem (listed n on))
  · have bounds := tidy.block_bounds used
    exact ⟨bounds.1, bounds.2.1⟩
  · have bounds := tidy.node_bounds (listed n on)
    exact ⟨bounds.1, Nat.le_trans (Nat.le_add_right _ 16) bounds.2.1⟩
  · have bounds := tidy.block_bounds used
    simp only [Block.ptr]
    omega

theorem clean_run_well_placed_reached :
    ∃ s, s.live.length = 4 ∧ s.heap.head ≠ 0 ∧ WellPlaced pagedSystem s := by
  obtain ⟨s, run, live, listed, -⟩ := clean_run_exists
  exact ⟨s, live, listed, clean_run_well_placed run⟩

/-- A freed block with a listed one of sixteen bytes: the `prev` of that node is
the next block's header, and the block, when it is freed in turn, is as long as
an address is large. -/
theorem valid_run_misplaces : ∃ s, ValidRun pagedSystem s ∧ ¬ WellPlaced pagedSystem s := by
  have ends : (playScript pagedSystem (fun _ call => call.Plain) 64 freshState
      [.kumalloc 8, .kumalloc 8, .kumalloc 8, .kumalloc 8, .kufree 65544, .kufree 65576,
        .kufree 65560]).any (fun s =>
      let second := s.heap.nextAt s.heap.head
      s.heap.head ≠ 0 ∧ second ≠ 0 ∧ s.heap.blockEnd < (s.heap.extentAt second).stop) = true := by
    decide +kernel
  obtain ⟨s, run, shape⟩ := valid_of_script ends
  simp only [decide_eq_true_eq] at shape
  obtain ⟨first, second, beyond⟩ := shape
  exact ⟨s, run, fun placed => Nat.not_le_of_lt beyond
    (placed.listedInside _ (.next (.start first) second)).2⟩

theorem clean_run_spares (run : CleanRun sys s) (clean : call.Plain ∧ call.Clean s)
    (step : Step sys s call s') : Spares s call s' := by
  obtain ⟨free, tidy⟩ := clean_run_tidy run
  obtain ⟨_, -, untouched⟩ := step_tidy tidy clean.1 (clean.2 free tidy.chain) step
  intro b used other x inside
  refine untouched b ?_ x inside
  cases call with
  | kufree ptr =>
    refine List.mem_filter.mpr ⟨used, decide_eq_true fun same => other ?_⟩
    rw [same]
  | _ => exact used

theorem clean_run_spares_reached : ∃ s s', s.live.length = 4 ∧
    Step pagedSystem s (.kufree 65864) s' ∧ Spares s (.kufree 65864) s' := by
  obtain ⟨s, run, live, -, clean, returns⟩ := clean_run_exists
  obtain ⟨s', played⟩ := Option.isSome_iff_exists.mp returns
  have step := step_of_play played
  exact ⟨s, s', live, step, clean_run_spares run (Call.checkClean_sound s _ clean) step⟩

/-- An exact fit: the header of the block behind it becomes zero. -/
theorem valid_run_overwrites : ∃ s s', ValidRun pagedSystem s ∧
    Step pagedSystem s (.kumalloc 8) s' ∧ ¬ Spares s (.kumalloc 8) s' := by
  have ends : (playScript pagedSystem (fun _ call => call.Plain) 64 freshState
      [.kumalloc 8, .kumalloc 8, .kumalloc 8, .kufree 65544]).any (fun s =>
      (playCall pagedSystem 64 s (.kumalloc 8)).any fun s' =>
        s.live.any fun b => 8 ≤ b.total ∧ s'.heap.word b.addr ≠ s.heap.word b.addr) = true := by
    decide +kernel
  obtain ⟨s, run, shape⟩ := valid_of_script ends
  obtain ⟨s', played, shape⟩ := (Option.any_eq_true _ _).mp shape
  obtain ⟨b, used, shape⟩ := List.any_eq_true.mp shape
  obtain ⟨wide, changed⟩ := of_decide_eq_true shape
  refine ⟨s, s', run, step_of_play played, fun spares => changed ?_⟩
  have same : Untouched [b] s.heap s'.heap := by
    intro c only
    obtain rfl := List.mem_singleton.mp only
    exact spares c used (by simp)
  exact same.word (by simp) wide

/-- In a heap in order every byte is live or listed. -/
theorem Tidy.loses_nothing (tidy : Tidy sys s.heap s.live free) : NothingLost sys s := by
  intro x low high
  obtain ⟨e, member, holds⟩ := tidy.space.tiling.cover x low (by
    rw [Heap.top, if_neg (by omega)]
    exact high)
  cases List.mem_append.mp member with
  | inl inUse =>
    obtain ⟨b, used, rfl⟩ := List.mem_map.mp inUse
    exact Or.inl ⟨b, used, holds⟩
  | inr inFree =>
    obtain ⟨n, listed, rfl⟩ := List.mem_map.mp inFree
    exact Or.inr ⟨n, tidy.chain.reach_iff.mpr listed, holds⟩

theorem clean_run_loses_nothing (run : CleanRun sys s) : NothingLost sys s := by
  obtain ⟨free, tidy⟩ := clean_run_tidy run
  exact tidy.loses_nothing

theorem clean_run_loses_nothing_reached :
    ∃ s, s.live.length = 4 ∧ s.heap.head ≠ 0 ∧ NothingLost pagedSystem s := by
  obtain ⟨s, run, live, listed, -⟩ := clean_run_exists
  exact ⟨s, live, listed, clean_run_loses_nothing run⟩

/-- Neighbours on both sides, the left one first on the list and other blocks
between them and after: what follows the right one is dropped. -/
theorem valid_run_loses : ∃ s, ValidRun pagedSystem s ∧ ¬ NothingLost pagedSystem s := by
  have ends : (playScript pagedSystem (fun _ call => call.Plain) 64 freshState
      [.kumalloc 56, .kumalloc 56, .kumalloc 56, .kumalloc 56, .kumalloc 56, .kumalloc 56,
        .kumalloc 56, .kufree 65864, .kufree 65672, .kufree 65544, .kufree 65608]).any (fun s =>
      65856 < s.heap.blockEnd ∧ (s.live.all fun b => ¬ b.extent.Holds 65856) ∧
        s.heap.listed 64 s.heap.head = some [65536] ∧ ¬ (s.heap.extentAt 65536).Holds 65856) =
      true := by
    decide +kernel
  obtain ⟨s, run, shape⟩ := valid_of_script ends
  simp only [decide_eq_true_eq, List.all_eq_true] at shape
  obtain ⟨inside, notLive, walked, notListed⟩ := shape
  refine ⟨s, run, fun kept => ?_⟩
  cases kept 65856 (by decide) inside with
  | inl live =>
    obtain ⟨b, used, holds⟩ := live
    exact notLive b used holds
  | inr listed =>
    obtain ⟨n, on, holds⟩ := listed
    have only := (listed_chain walked).reach_iff.mp on
    cases List.mem_singleton.mp only
    exact notListed holds

theorem clean_run_coalesced (run : CleanRun sys s) : Coalesced sys s := by
  obtain ⟨free, tidy⟩ := clean_run_tidy run
  have listed : ∀ n, s.heap.OnFreeList n → n ∈ free := fun n => tidy.chain.reach_iff.mp
  refine ⟨fun n m onN onM => ?_, fun n on => ?_, fun none used => ?_⟩
  · exact tidy.space.separated _ (List.mem_map_of_mem (listed n onN)) _
      (List.mem_map_of_mem (listed m onM))
  · have bounds := tidy.node_bounds (listed n on)
    have stop : (s.heap.extentAt n).stop = n + s.heap.word n := rfl
    omega
  · have space := tidy.space
    rw [none, Heap.top, if_neg used] at space
    exact space.nothing_used.1

theorem clean_run_coalesced_reached :
    ∃ s, s.live.length = 4 ∧ s.heap.head ≠ 0 ∧ Coalesced pagedSystem s := by
  obtain ⟨s, run, live, listed, -⟩ := clean_run_exists
  exact ⟨s, live, listed, clean_run_coalesced run⟩

/-- The block trimmed away is not the head and its `prev` is out of date since the
head was split: it stays on the list, at the end of the heap. -/
theorem valid_run_keeps_trimmed : ∃ s, ValidRun pagedSystem s ∧ ¬ Coalesced pagedSystem s := by
  have ends : (playScript pagedSystem (fun _ call => call.Plain) 64 freshState
      [.kumalloc 200, .kumalloc 8, .kumalloc 100, .kumalloc 8, .kufree 65768, .kufree 65544,
        .kumalloc 8, .kufree 65880]).any (fun s =>
      let second := s.heap.nextAt s.heap.head
      s.heap.head ≠ 0 ∧ second ≠ 0 ∧ s.heap.blockEnd ≤ (s.heap.extentAt second).stop) = true := by
    decide +kernel
  obtain ⟨s, run, shape⟩ := valid_of_script ends
  simp only [decide_eq_true_eq] at shape
  obtain ⟨first, second, beyond⟩ := shape
  exact ⟨s, run, fun coalesced => Nat.not_lt_of_le beyond
    (coalesced.trimmed _ (.next (.start first) second))⟩

end

end Comp304.Alloc
