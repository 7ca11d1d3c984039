import Comp304.Alloc.FreeOrder
import Comp304.Alloc.Sizes

/-! Where the calls read and write, on a system that maps the heap up to the break
and not a byte more. Freeing the last block lowers the break first and reads the
links of the free block before it afterwards, once that is given back as well:
what keeps them mapped is only what happens to be left over at the top. -/
namespace Comp304.Alloc
open Library.Budget Library.Lp64 Library.Extents Library.LinkedChain Heap

/-- The system maps what is between the base and the break, and nothing else. -/
def ExactlyMapped (sys : System) : Prop := ∀ brk address, brk ≤ sys.limit →
  (sys.mapped brk address = true ↔ sys.base ≤ address ∧ address < brk)

/-- Enough is left over to cover the links that are read of the block that freeing
this one trims away: its `next`, and its `prev` unless it is the head. -/
def TrimCovered (h : Heap) (nodes : List Nat) (b : Block) : Prop :=
  h.blockEnd = b.addr + b.total → ∀ left ∈ h.leftOf nodes b.addr,
    (if left = h.head then 16 else 24) ≤ h.availableMemory

instance (h : Heap) (nodes : List Nat) (b : Block) : Decidable (TrimCovered h nodes b) :=
  inferInstanceAs (Decidable (_ → ∀ left ∈ h.leftOf nodes b.addr, _ ≤ h.availableMemory))

/-- The call reuses no block that is behind others and the last of the list, and
trims nothing it has to look at without cover. -/
def Call.StaysMapped (s : State) (nodes : List Nat) : Call → Prop
  | .kumalloc size => 0 < size → Reusable s.heap nodes (exactTotal size)
  | .kucalloc nmemb size =>
    0 < nmemb * size → Reusable s.heap nodes (exactTotal ((nmemb * size + 7) / 8 * 8))
  | .kufree ptr => ∀ b ∈ s.live, b.ptr = ptr → TrimCovered s.heap nodes b
  | .kurealloc _ _ => False

/-- The growth the call needs is granted. -/
def Call.Granted (sys : System) (s : State) (nodes : List Nat) : Call → Prop
  | .kumalloc size => 0 < size → GrowthGranted sys s.heap nodes (exactTotal size)
  | .kucalloc nmemb size =>
    0 < nmemb * size → GrowthGranted sys s.heap nodes (exactTotal ((nmemb * size + 7) / 8 * 8))
  | .kufree _ | .kurealloc _ _ => True

section
variable {sys : System} {s : State} {h g k : Heap} {live : List Block} {free : List Nat}
  {b : Block} {call : Call}

/-! ### `kufree` -/

/-- A trim that returned has read the links. -/
theorem trimPlan_reads (head : g.head = h.head) (willing : ∀ n, sys.granted n = true)
    (small : size < 2 ^ 63) (room : sys.base + size ≤ g.brk) (high : g.brk ≤ sys.limit)
    (ran : trimPlan sys g t size = .ok k) :
    ∀ i < (if t = h.head then 8 else 16), sys.mapped (g.brk - size) (t + 8 + i) = true := by
  have given := lowerEnd_granted willing t small room high
  obtain ⟨trimmed, ran, -⟩ := bind_eq_ok.mp ran
  simp only [giveBack] at ran
  generalize lowerEnd sys g t size = l at given ran
  have still : l.head = h.head := by
    rw [given]
    exact head
  have brk : l.brk = g.brk - size := by rw [given]
  intro i inside
  by_cases first : t = l.head
  · rw [if_pos first] at ran
    obtain ⟨next, read, -⟩ := bind_eq_ok.mp ran
    have access := accessible_iff.mp (load_eq_ok.mp read).1
    rw [if_pos (first.trans still)] at inside
    rw [← brk, first]
    exact access i inside
  · rw [if_neg first] at ran
    obtain ⟨prev, readPrev, ran⟩ := bind_eq_ok.mp ran
    obtain ⟨next, readNext, -⟩ := bind_eq_ok.mp ran
    have before := accessible_iff.mp (load_eq_ok.mp readPrev).1
    have after := accessible_iff.mp (load_eq_ok.mp readNext).1
    rw [if_neg fun same => first (same.trans still.symm)] at inside
    rw [← brk]
    rcases Nat.lt_or_ge i 8 with low | high
    · exact after i low
    · have here := before (i - 8) (by omega)
      rwa [show t + 16 + (i - 8) = t + 8 + i by omega] at here

/-- What ends without a fault has returned. -/
theorem returns_of_ends {run : Except Fault α} (ends : Ends .spent run)
    (mapped : run ≠ .error .segv) : ∃ value, run = .ok value := by
  by_contra stuck
  exact mapped (segv_of_ends ends fun value ran => stuck ⟨value, ran⟩)

/-- A clean `kufree` stays in what is mapped exactly if its trim does. -/
theorem kufree_mapped_iff (tidy : Tidy sys h live free) (member : b ∈ live)
    (clean : FreesCleanly h free b.addr b.total) (willing : ∀ n, sys.granted n = true) :
    (∀ rounds, kufree sys rounds h b.ptr ≠ .error .segv) ↔ TrimReads sys h free b := by
  have shifted := tidy.perm (tidy.live_perm member)
  have bounds := tidy.block_bounds member
  have high := tidy.ledger.high
  have limit := sys.limit_lt
  constructor
  · intro avoids last t left
    have settles : ∀ rounds, Settles .spent _ rounds (kufree sys rounds h b.ptr) _ := fun rounds =>
      kufree_settles shifted clean.last
    obtain ⟨k, ran⟩ :=
      returns_of_ends freePlan_ends ((Settles.avoids_iff settles (by decide)).mp avoids)
    have found : h.leftOf free b.addr = some t := left
    obtain ⟨listed, ends⟩ := leftOf_some found
    have boundsT := tidy.node_bounds listed
    have size : h.sizeAt t = h.word t := rfl
    have given : lowerEnd sys h b.addr b.total = _ :=
      lowerEnd_granted willing b.addr (by omega) (by omega) high
    have lowered := freed_lowered shifted last
    simp only [freePlan, if_pos last, found] at ran
    generalize lowerEnd sys h b.addr b.total = g at given lowered ran
    have brk : g.brk = h.brk - b.total := by rw [given]
    rw [← Nat.sub_sub, ← brk, size]
    exact trimPlan_reads lowered.head willing (by omega) (by omega) lowered.high ran
  · intro reads
    obtain ⟨k, returns, -⟩ := kufree_returns tidy member clean willing reads
    refine (Settles.avoids_iff returns (by decide)).mpr fun fault => ?_
    cases fault

/-- On an exact map the trim is covered by what is left over, or it is not. -/
theorem trimReads_iff (exact : ExactlyMapped sys) (tidy : Tidy sys h live free)
    (member : b ∈ live) : TrimReads sys h free b ↔ TrimCovered h free b := by
  refine forall_congr' fun last => forall_congr' fun t => forall_congr' fun left => ?_
  obtain ⟨listed, ends⟩ := leftOf_some left
  have bounds := tidy.block_bounds member
  have boundsT := tidy.node_bounds listed
  have balance := tidy.ledger.balance (by omega)
  have high := tidy.ledger.high
  have size : h.sizeAt t = h.word t := rfl
  have brk : h.brk - (b.total + h.sizeAt t) = t + h.availableMemory := by omega
  simp only [brk, exact _ _ (show t + h.availableMemory ≤ sys.limit by omega)]
  by_cases first : t = h.head
  · simp only [if_pos first]
    refine ⟨fun reads => ?_, fun covered i inside => ?_⟩
    · have top := reads 7 (by decide)
      omega
    · omega
  · simp only [if_neg first]
    refine ⟨fun reads => ?_, fun covered i inside => ?_⟩
    · have top := reads 15 (by decide)
      omega
    · omega

/-! ### `kumalloc` and `kucalloc` -/

theorem kumalloc_mapped_iff (tidy : Tidy sys h live free) (positive : 0 < size)
    (fits : RequestFits size) (granted : GrowthGranted sys h free (exactTotal size)) :
    (∀ rounds, kumalloc sys rounds h size ≠ .error .segv) ↔ Reusable h free (exactTotal size) := by
  constructor
  · intro avoids
    by_contra stuck
    have faults : ∀ rounds, Settles .spent _ rounds (kumalloc sys rounds h size) _ := fun rounds =>
      kumalloc_faults tidy positive fits stuck
    exact (Settles.avoids_iff faults (by decide)).mp avoids rfl
  · intro reusable
    obtain ⟨p, h', returns, -⟩ := kumalloc_returns tidy positive fits reusable granted
    exact (Settles.avoids_iff returns (by decide)).mpr nofun

theorem kucalloc_mapped_iff (tidy : Tidy sys h live free) (positive : 0 < nmemb * size)
    (fits : (Call.kucalloc nmemb size).NoWrap)
    (granted : GrowthGranted sys h free (exactTotal ((nmemb * size + 7) / 8 * 8))) :
    (∀ rounds, kucalloc sys rounds h nmemb size ≠ .error .segv) ↔
      Reusable h free (exactTotal ((nmemb * size + 7) / 8 * 8)) := by
  have array := productSize_exact fits.1
  have asked : 0 < sizeAlign (mul nmemb size) := by omega
  constructor
  · intro avoids
    by_contra stuck
    have nonzero : ¬ (size = 0 ∨ nmemb = 0) := by
      rintro (rfl | rfl) <;> simp at positive
    have faults : ∀ rounds, Settles .spent free.length rounds (kucalloc sys rounds h nmemb size)
        (.error .segv) := by
      intro rounds
      simp only [kucalloc, if_neg nonzero]
      refine Settles.stop ?_ _
      rw [array] at asked ⊢
      exact kumalloc_faults tidy asked fits.2 stuck
    exact (Settles.avoids_iff faults (by decide)).mp avoids rfl
  · intro reusable
    obtain ⟨r, h', returns, -⟩ := kucalloc_cleared tidy asked fits reusable granted
    refine (Settles.avoids_iff returns (by decide)).mpr fun fault => ?_
    cases fault

/-- A clean run reads and writes between the base and the break only, as far as
its calls reuse and trim what they may: a next call that does not, leaves it. -/
theorem clean_run_mapped (exact : ExactlyMapped sys) (willing : ∀ n, sys.granted n = true)
    (run : CleanRun sys s) (list : s.heap.FreeList free) (plain : call.Plain)
    (legal : call.Legal s.live) (noWrap : call.NoWrap) (granted : call.Granted sys s free)
    (clean : ∀ ptr, call = .kufree ptr → call.CleanOn s free) :
    (∀ rounds, call.exec sys rounds s.heap ≠ .error .segv) ↔ call.StaysMapped s free := by
  have tidy := clean_run_lists run list
  cases call with
  | kumalloc size =>
    rcases Nat.eq_zero_or_pos size with rfl | positive
    · simp [Call.exec, kumalloc, Call.StaysMapped]
    · have mapped := kumalloc_mapped_iff tidy positive noWrap (granted positive)
      exact mapped.trans ⟨fun reusable _ => reusable, fun stays => stays positive⟩
  | kucalloc nmemb size =>
    rcases Nat.eq_zero_or_pos (nmemb * size) with zero | positive
    · have nothing : sizeAlign (mul nmemb size) = 0 := by
        rw [mul, zero]
        decide
      refine ⟨fun _ positive => absurd zero (Nat.ne_of_gt positive), fun _ rounds fault => ?_⟩
      obtain ⟨h', ran⟩ : ∃ h', kucalloc sys rounds s.heap nmemb size = .ok (0, h') :=
        kucalloc_nothing nothing
      cases ran.symm.trans fault
    · have mapped := kucalloc_mapped_iff tidy positive noWrap (granted positive)
      exact mapped.trans ⟨fun reusable _ => reusable, fun stays => stays positive⟩
  | kufree ptr =>
    obtain ⟨b, used, rfl⟩ := legal
    have only : ∀ c ∈ s.live, c.ptr = b.ptr → c = b := fun c member => tidy.live_unique used member
    have faults : ∀ rounds, (Call.kufree b.ptr).exec sys rounds s.heap = .error .segv ↔
        kufree sys rounds s.heap b.ptr = .error .segv := by
      intro rounds
      simp only [Call.exec]
      cases kufree sys rounds s.heap b.ptr with
      | ok k => constructor <;> intro fault <;> cases fault
      | error fault => exact ⟨fun same => congrArg _ (Except.error.inj same), fun same =>
          congrArg _ (Except.error.inj same)⟩
    have mapped := kufree_mapped_iff tidy used (clean b.ptr rfl b used rfl) willing
    rw [trimReads_iff exact tidy used] at mapped
    refine (forall_congr' fun rounds => not_congr (faults rounds)).trans (mapped.trans ?_)
    exact ⟨fun covered c member same => only c member same ▸ covered, fun stays => stays b used rfl⟩
  | kurealloc ptr size => exact plain.elim

end

/-! ### A system that maps nothing more -/

/-- The system of the tests, with the heap mapped byte by byte and not by pages. -/
def tightSystem : System where
  base := 2 ^ 16
  limit := 2 ^ 16 + 2 ^ 27
  granted _ := true
  mapped brk address := 2 ^ 16 ≤ address && address < brk && address < 2 ^ 16 + 2 ^ 27
  base_aligned := region_aligned
  base_above := region_above
  base_le_limit := region_order
  limit_lt := region_lt
  heap_mapped brk address low below high := by
    simp only [Bool.and_eq_true, decide_eq_true_eq]
    omega
  user_mapped brk address mapped := by
    simp only [Bool.and_eq_true, decide_eq_true_eq] at mapped
    omega

theorem tightSystem_exact : ExactlyMapped tightSystem := by
  intro brk address high
  simp only [tightSystem, Bool.and_eq_true, decide_eq_true_eq] at high ⊢
  omega

/-- A script of clean calls on this system that ends as tested. -/
theorem tight_of_script {test : State → Bool}
    (ends : (playScript tightSystem Call.checkClean 64 freshState calls).any test = true) :
    ∃ s, CleanRun tightSystem s ∧ test s = true := by
  obtain ⟨s, played, passed⟩ := (Option.any_eq_true _ _).mp ends
  exact ⟨s, run_of_script Call.checkClean_sound (.start _) played, passed⟩

/-- Two blocks go back at once, with most of a chunk left over behind them. -/
theorem clean_run_mapped_trim : ∃ s : State, s.heap.head ≠ 0 ∧
    ∀ rounds, (Call.kufree 65672).exec tightSystem rounds s.heap ≠ .error .segv := by
  have ends : (playScript tightSystem Call.checkClean 64 freshState
      [.kumalloc 56, .kumalloc 56, .kumalloc 56, .kufree 65608]).any (fun s =>
        s.heap.head ≠ 0 ∧ (Call.kufree 65672).Legal s.live ∧ (Call.kufree 65672).checkClean s ∧
          (s.heap.listed 64 s.heap.head).any fun nodes =>
            ∀ b ∈ s.live, b.ptr = 65672 → TrimCovered s.heap nodes b) = true := by
    decide +kernel
  obtain ⟨s, run, shape⟩ := tight_of_script ends
  obtain ⟨listed, legal, clean, covered⟩ := of_decide_eq_true shape
  obtain ⟨free, tidy⟩ := clean_run_tidy run
  have frees := (Call.checkClean_sound s _ clean).2 free tidy.chain
  have stays : ∀ b ∈ s.live, b.ptr = 65672 → TrimCovered s.heap free b :=
    of_decide_eq_true (listed_any covered tidy.chain)
  have plain : (Call.kufree 65672).Plain := trivial
  have granted : (Call.kufree 65672).Granted tightSystem s free := trivial
  refine ⟨s, listed, (clean_run_mapped tightSystem_exact (fun _ => rfl) run tidy.chain plain legal
    trivial granted fun ptr same => ?_).mpr stays⟩
  cases same
  exact frees

/-- The chunk is used up to its end: the `next` of the second block is read beyond
the break. -/
theorem valid_run_reads_beyond : ∃ s, ValidRun tightSystem s ∧ (Call.kufree 65624).Legal s.live ∧
    ∃ rounds, (Call.kufree 65624).exec tightSystem rounds s.heap = .error .segv := by
  have ends : (playScript tightSystem Call.checkClean 64 freshState
      [.kumalloc 8, .kumalloc 56, .kumalloc 8104, .kufree 65560]).any (fun s =>
        (⟨65616, 8112, 8104⟩ : Block) ∈ s.live ∧ (Call.kufree 65624).checkClean s ∧
          (s.heap.listed 64 s.heap.head).any fun nodes =>
            ¬ TrimCovered s.heap nodes ⟨65616, 8112, 8104⟩) = true := by
    decide +kernel
  obtain ⟨s, run, shape⟩ := tight_of_script ends
  obtain ⟨used, clean, bare⟩ := of_decide_eq_true shape
  obtain ⟨free, tidy⟩ := clean_run_tidy run
  have frees := (Call.checkClean_sound s _ clean).2 free tidy.chain _ used rfl
  have uncovered := of_decide_eq_true (listed_any bare tidy.chain)
  rw [← trimReads_iff tightSystem_exact tidy used,
    ← kufree_mapped_iff tidy used frees fun _ => rfl] at uncovered
  obtain ⟨rounds, fault⟩ := not_forall_not.mp uncovered
  refine ⟨s, run.valid, ⟨_, used, rfl⟩, rounds, ?_⟩
  have fault : kufree tightSystem rounds s.heap 65624 = .error .segv := fault
  simp only [Call.exec, fault]
  rfl

end Comp304.Alloc
