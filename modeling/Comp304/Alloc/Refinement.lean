import Comp304.Alloc.Termination
import Comp304.Library.Arena

/-! What the allocator is, seen from outside. A clean run is a run of the abstract
allocator whose state is the set of extents in use: the free list is the set of
its gaps, and `block_end` is where its range ends. Which blocks are live decides
both, whatever calls led there. -/
namespace Comp304.Alloc
open Library Library.Budget Library.Lp64 Library.Extents Library.LinkedChain Heap

/-- The extents of the live blocks. -/
def inUse (live : List Block) : Set Extent := {e | e ∈ live.map Block.extent}

/-- The extent of a listed block. -/
def Heap.Listed (h : Heap) : Set Extent := {e | ∃ n, h.OnFreeList n ∧ h.extentAt n = e}

/-- The call is a step of the abstract allocator; a request for nothing is none. -/
def Call.Serves (lo : Nat) (live live' : List Block) : Call → Prop
  | .kumalloc size =>
    if size = 0 then live' = live
    else Arena.Step lo (inUse live) (.take (exactTotal size)) (inUse live')
  | .kucalloc nmemb size =>
    if nmemb * size = 0 then live' = live
    else Arena.Step lo (inUse live) (.take (exactTotal ((nmemb * size + 7) / 8 * 8))) (inUse live')
  | .kufree ptr => ∃ b ∈ live, b.ptr = ptr ∧ Arena.Step lo (inUse live) (.give b.extent) (inUse live')
  | .kurealloc _ _ => False

/-- The state as the abstract allocator shows it. -/
structure Shows (sys : System) (s : State) : Prop where
  reached : Arena.Run sys.base (inUse s.live)
  gaps : ∀ e, e ∈ s.heap.Listed ↔ Arena.Gap sys.base (inUse s.live) e
  top : Arena.Top sys.base (inUse s.live) (s.heap.top sys)

section
variable {sys : System} {s s' : State} {h h' : Heap} {live : List Block} {free : List Nat}

theorem Tidy.mem_listed (tidy : Tidy sys h live free) : e ∈ h.Listed ↔ e ∈ free.map h.extentAt := by
  simp only [Listed, Set.mem_ofPred_eq, List.mem_map, OnFreeList, Chain.reach_iff tidy.chain]

/-- The free list is the set of gaps. -/
theorem Tidy.listed_iff_gap (tidy : Tidy sys h live free) :
    e ∈ h.Listed ↔ Arena.Gap sys.base (inUse live) e :=
  tidy.mem_listed.trans (Arena.free_iff_gap tidy.space fun _ => Iff.rfl)

/-- The heap ends where the last live block does. -/
theorem Tidy.ends (tidy : Tidy sys h live free) : Arena.Top sys.base (inUse live) (h.top sys) :=
  Arena.top_of_space tidy.space fun _ => Iff.rfl

theorem inUse_cons (b : Block) (live : List Block) :
    inUse (b :: live) = insert b.extent (inUse live) := by
  ext e
  simp [inUse]

/-- Where a new block goes: to the front of the first block that is large enough,
or behind the last one when none is. -/
theorem kumalloc_placed (tidy : Tidy sys h live free) (positive : 0 < size) (fits : RequestFits size)
    (ran : kumalloc sys rounds h size = .ok (p, h')) (quiet : h'.sbrkFailures = h.sbrkFailures) :
    (∃ block, h.firstFit free (exactTotal size) = some block ∧ p = block + 8) ∨
      h.firstFit free (exactTotal size) = none ∧ p = h.top sys + 8 := by
  have whole := ran
  simp only [kumalloc, if_neg (Nat.ne_of_gt positive), totalSize_exact fits.1] at whole
  obtain ⟨block, found, whole⟩ := bind_eq_ok.mp whole
  have search := (findBlock_settles (fun n => tidy.node_accessible) tidy.chain).returned found
  cases fit : h.firstFit free (exactTotal size) with
  | none =>
    rw [fit] at search
    cases search
    obtain ⟨block, g, grown, place, -⟩ := kumalloc_grown positive fits tidy.ledger found ran quiet
    exact Or.inr ⟨rfl, by rw [place, grown.at_top tidy]⟩
  | some block =>
    rw [fit] at search
    cases search
    have listed : block ∈ free := List.mem_of_find?_eq_some fit
    have bounds := tidy.node_bounds listed
    have high := tidy.ledger.high
    have limit := sys.limit_lt
    simp only [Option.getD_some, if_neg (tidy.chain.ne_null listed)] at whole
    obtain ⟨final, -, last⟩ := bind_eq_ok.mp whole
    cases last
    exact Or.inl ⟨block, rfl, add_header (by omega)⟩

/-- So a block that is handed out is taken from a gap, or the range is extended. -/
theorem kumalloc_serves (tidy : Tidy sys h live free) (positive : 0 < size) (fits : RequestFits size)
    (ran : kumalloc sys rounds h size = .ok (block + 8, h'))
    (quiet : h'.sbrkFailures = h.sbrkFailures) :
    Arena.Step sys.base (inUse live) (.take (exactTotal size))
      (inUse (⟨block, exactTotal size, requested⟩ :: live)) := by
  have wide := (exactTotal_bounds positive fits).1
  rw [inUse_cons]
  obtain ⟨node, fit, place⟩ | ⟨none, place⟩ := kumalloc_placed tidy positive fits ran quiet
  · obtain rfl : block = node := by omega
    have listed : h.extentAt block ∈ h.Listed :=
      tidy.mem_listed.mpr (List.mem_map_of_mem (List.mem_of_find?_eq_some fit))
    have large := List.find?_some fit
    simp only [decide_eq_true_eq] at large
    exact .reuse (tidy.listed_iff_gap.mp listed) (by omega) large
  · obtain rfl : block = h.top sys := by omega
    refine .extend tidy.ends (by omega) fun g gap => ?_
    obtain ⟨n, listed, rfl⟩ := List.mem_map.mp (tidy.mem_listed.mp (tidy.listed_iff_gap.mpr gap))
    have small := List.find?_eq_none.mp none n listed
    simp only [decide_eq_true_eq, Nat.not_le] at small
    exact small

/-- A freed block is no longer in use, and nothing else changes. -/
theorem kufree_serves (tidy : Tidy sys h live free) (member : b ∈ live) :
    inUse (live.filter fun c => c.ptr ≠ b.ptr) = inUse live \ {b.extent} := by
  ext e
  simp only [inUse, List.mem_map, List.mem_filter, decide_eq_true_eq, Set.mem_ofPred_eq,
    Set.mem_sdiff, Set.mem_singleton_iff]
  constructor
  · rintro ⟨c, ⟨used, different⟩, rfl⟩
    refine ⟨⟨c, used, rfl⟩, fun same => different ?_⟩
    simp only [Block.ptr, show c.addr = b.addr from congrArg Extent.lo same]
  · rintro ⟨⟨c, used, rfl⟩, different⟩
    refine ⟨c, ⟨used, fun same => different ?_⟩, rfl⟩
    rw [tidy.live_unique member used same]

/-- One clean call is one step of the abstract allocator. -/
theorem step_serves (tidy : Tidy sys s.heap s.live free) (plain : call.Plain)
    (clean : call.CleanOn s free) (step : Step sys s call s') :
    call.Serves sys.base s.live s'.live := by
  obtain ⟨rounds, result, ran, tracked⟩ := step.returns
  have quiet := step.granted
  have bounded := step.bounded
  rw [tracked]
  cases call with
  | kumalloc size =>
    by_cases zero : size = 0
    · simp only [Call.exec, kumalloc, if_pos zero] at ran
      obtain ⟨rfl, -⟩ := Prod.mk.inj (Except.ok.inj ran)
      simp [Call.Serves, track, handOut, zero]
    · have positive : 0 < size := Nat.pos_of_ne_zero zero
      have holds := (exactTotal_bounds positive step.noWrap).2.2.2
      obtain ⟨block, free', rfl, tidy', -⟩ := kumalloc_tidy tidy positive step.noWrap
        (clean positive) holds ran quiet bounded
      simp only [Call.Serves, if_neg zero, track]
      rw [handOut_eq (tidy'.headers _ List.mem_cons_self)]
      exact kumalloc_serves tidy positive step.noWrap ran quiet
  | kucalloc nmemb size =>
    by_cases zero : size = 0 ∨ nmemb = 0
    · simp only [Call.exec, kucalloc, if_pos zero] at ran
      obtain ⟨rfl, -⟩ := Prod.mk.inj (Except.ok.inj ran)
      have nothing : nmemb * size = 0 := by
        rcases zero with zero | zero <;> simp [zero]
      simp [Call.Serves, track, handOut, nothing]
    · have positive : 0 < nmemb * size := by
        simp only [not_or] at zero
        exact Nat.mul_pos (Nat.pos_of_ne_zero zero.2) (Nat.pos_of_ne_zero zero.1)
      obtain ⟨block, free', rfl, tidy', -⟩ := kucalloc_tidy tidy positive step.noWrap
        (clean positive) ran quiet bounded
      simp only [Call.Serves, if_neg (Nat.ne_of_gt positive), track]
      rw [handOut_eq (tidy'.headers _ List.mem_cons_self)]
      -- `kucalloc` clears what `kumalloc` placed
      simp only [Call.exec, kucalloc, if_neg zero, productSize_exact step.noWrap.1] at ran
      obtain ⟨⟨q, middle⟩, allocated, ran⟩ := bind_eq_ok.mp ran
      obtain ⟨final, cleared, last⟩ := bind_eq_ok.mp ran
      cases last
      obtain ⟨mem, filled⟩ := memsetZero_mem cleared
      exact kumalloc_serves tidy (by omega) step.noWrap.2 allocated (by rw [← quiet, filled])
  | kufree ptr =>
    obtain ⟨b, member, rfl⟩ := step.legal
    refine ⟨b, member, rfl, ?_⟩
    simp only [track]
    rw [kufree_serves tidy member]
    exact .give (List.mem_map_of_mem member)
  | kurealloc ptr size => exact plain.elim

/-- A clean run goes through states of the abstract allocator. -/
theorem Call.Serves.run (serves : Call.Serves lo live live' call) (run : Arena.Run lo (inUse live)) :
    Arena.Run lo (inUse live') := by
  cases call with
  | kumalloc size =>
    simp only [Call.Serves] at serves
    split at serves
    · exact serves ▸ run
    · exact run.step serves
  | kucalloc nmemb size =>
    simp only [Call.Serves] at serves
    split at serves
    · exact serves ▸ run
    · exact run.step serves
  | kufree ptr =>
    obtain ⟨b, -, -, step⟩ := serves
    exact run.step step
  | kurealloc ptr size => exact serves.elim

theorem clean_run_reached (run : CleanRun sys s) : Arena.Run sys.base (inUse s.live) := by
  induction run with
  | start mem =>
    have empty : inUse [] = ∅ := by
      ext e
      simp [inUse]
    exact empty ▸ .start
  | client _ _ ih => exact ih
  | call before clean step ih =>
    obtain ⟨free, tidy⟩ := clean_run_tidy before
    exact (step_serves tidy clean.1 (clean.2 free tidy.chain) step).run ih

/-- A clean run refines the abstract allocator: each call is one of its steps, and
the state after it shows the extents it has in use, its gaps and its top. -/
theorem clean_run_refines (run : CleanRun sys s) (clean : call.Plain ∧ call.Clean s)
    (step : Step sys s call s') :
    Shows sys s ∧ call.Serves sys.base s.live s'.live ∧ Shows sys s' := by
  have shows {t : State} (run : CleanRun sys t) : Shows sys t := by
    obtain ⟨free, tidy⟩ := clean_run_tidy run
    exact ⟨clean_run_reached run, fun _ => tidy.listed_iff_gap, tidy.ends⟩
  obtain ⟨free, tidy⟩ := clean_run_tidy run
  exact ⟨shows run, step_serves tidy clean.1 (clean.2 free tidy.chain) step,
    shows (run.call clean step)⟩

theorem clean_run_refines_reached : ∃ s s', s.live.length = 4 ∧ s.heap.head ≠ 0 ∧
    Shows pagedSystem s ∧ (Call.kufree 65864).Serves pagedSystem.base s.live s'.live ∧
      Shows pagedSystem s' := by
  obtain ⟨s, run, live, listed, clean, returns⟩ := clean_run_exists
  obtain ⟨s', played⟩ := Option.isSome_iff_exists.mp returns
  exact ⟨s, s', live, listed,
    clean_run_refines run (Call.checkClean_sound s _ clean) (step_of_play played)⟩

/-- Live blocks at the same places leave the same gaps and the same end. -/
theorem clean_runs_agree {t : State} (run : CleanRun sys s) (run' : CleanRun sys t)
    (same : inUse s.live = inUse t.live) :
    s.heap.Listed = t.heap.Listed ∧ s.heap.top sys = t.heap.top sys := by
  obtain ⟨free, tidy⟩ := clean_run_tidy run
  obtain ⟨free', tidy'⟩ := clean_run_tidy run'
  refine ⟨?_, (same ▸ tidy.ends).unique tidy'.ends⟩
  ext e
  rw [tidy.listed_iff_gap, tidy'.listed_iff_gap, same]

/-- Two blocks with others between them, freed in either order: the lists differ, and
what is on them does not. -/
theorem clean_runs_agree_reached : ∃ s t : State, s.live.length = 4 ∧ s.heap.head ≠ t.heap.head ∧
    s.heap.Listed = t.heap.Listed ∧ s.heap.top pagedSystem = t.heap.top pagedSystem := by
  have ends : (playScript pagedSystem Call.checkClean 64 freshState
      [.kumalloc 56, .kumalloc 56, .kumalloc 56, .kumalloc 56, .kumalloc 56, .kumalloc 56,
        .kufree 65608, .kufree 65736]).any (fun s => s.heap.head = 65728 ∧ s.live =
          [⟨65856, 64, 56⟩, ⟨65792, 64, 56⟩, ⟨65664, 64, 56⟩, ⟨65536, 64, 56⟩]) = true := by
    decide +kernel
  have ends' : (playScript pagedSystem Call.checkClean 64 freshState
      [.kumalloc 56, .kumalloc 56, .kumalloc 56, .kumalloc 56, .kumalloc 56, .kumalloc 56,
        .kufree 65736, .kufree 65608]).any (fun s => s.heap.head = 65600 ∧ s.live =
          [⟨65856, 64, 56⟩, ⟨65792, 64, 56⟩, ⟨65664, 64, 56⟩, ⟨65536, 64, 56⟩]) = true := by
    decide +kernel
  obtain ⟨s, run, shape⟩ := clean_of_script ends
  obtain ⟨t, run', shape'⟩ := clean_of_script ends'
  obtain ⟨head, live⟩ := of_decide_eq_true shape
  obtain ⟨head', live'⟩ := of_decide_eq_true shape'
  exact ⟨s, t, by simp [live], by simp [head, head'],
    clean_runs_agree run run' (by rw [live, live'])⟩

/-- Every loop of a call walks at most one node for each live block: the free list
is never longer than that, and more rounds are never needed. -/
theorem clean_run_searches (run : CleanRun sys s) :
    (∀ free, s.heap.FreeList free → free.length ≤ s.live.length) ∧
    (∀ size rounds, RequestFits size → s.live.length < rounds →
      Ends .spent (kumalloc sys rounds s.heap size)) ∧
    ∀ b ∈ s.live, TrimsRight s.heap b → ∀ rounds, s.live.length < rounds →
      Ends .spent (kufree sys rounds s.heap b.ptr) := by
  have short : ∀ free, s.heap.FreeList free → free.length ≤ s.live.length := by
    intro free list
    have fewer := Arena.free_length_le (clean_run_lists run list).space
    rwa [List.length_map, List.length_map] at fewer
  obtain ⟨free, tidy⟩ := clean_run_tidy run
  have budget := short free tidy.chain
  refine ⟨short, fun size rounds fits enough => kumalloc_ends tidy fits (by omega),
    fun b used trims rounds enough => ?_⟩
  have shifted := tidy.perm (tidy.live_perm used)
  rw [(kufree_settles shifted (trims free tidy.chain)).reached (by omega)]
  exact freePlan_ends

theorem clean_run_searches_reached : ∃ s : State, s.live.length = 4 ∧ s.heap.head ≠ 0 ∧
    (∀ free, s.heap.FreeList free → free.length ≤ s.live.length) ∧
    ∀ rounds, s.live.length < rounds → Ends .spent (kumalloc pagedSystem rounds s.heap 1000) := by
  obtain ⟨s, run, live, listed, -⟩ := clean_run_exists
  obtain ⟨short, allocates, -⟩ := clean_run_searches run
  exact ⟨s, live, listed, short, fun rounds => allocates 1000 rounds (by decide)⟩

end

end Comp304.Alloc
