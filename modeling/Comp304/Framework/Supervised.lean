import Comp304.Alloc.CleanRuns
import Comp304.Framework.Intercept
import Comp304.Framework.Passing

/-! The functions of `alloc.c` under the checks. What a clean run promises is what the
checks ask for, so no clean call is stopped, not even where a free lowers the break, and
the lists are a second record of the blocks that the program holds. -/
namespace Comp304.Framework
open Library.Budget Library.ByteMemory Library.Lp64 Library.Extents Alloc Alloc.Heap

/-- The program reads one byte. -/
def loadByte (sys : System) (address : Nat) (h : Heap) : Except Fault UInt8 :=
  if h.accessible sys address 1 then .ok (h.mem address) else .error .segv

/-- C `memset`. -/
def memset (sys : System) (ptr : Nat) (byte : UInt8) (n : Nat) (h : Heap) : Except Fault Heap :=
  if h.accessible sys ptr n then .ok { h with mem := fill h.mem ptr byte n } else .error .segv

section
variable {sys : System} {h h' : Heap} {live live' : List Block} {free : List Nat} {b : Block}

theorem memset_eq_ok {byte : UInt8} : memset sys ptr byte n h = .ok h' ↔
    h.accessible sys ptr n = true ∧ h' = { h with mem := fill h.mem ptr byte n } := by
  unfold memset
  split
  · next access => simp [access, eq_comm]
  · next denied => simp [denied]

theorem loadByte_memset {byte : UInt8} (ran : memset sys ptr byte n h = .ok h') (address : Nat) :
    loadByte sys address h' =
      if ptr ≤ address ∧ address < ptr + n then .ok byte else loadByte sys address h := by
  obtain ⟨access, rfl⟩ := memset_eq_ok.mp ran
  by_cases inside : ptr ≤ address ∧ address < ptr + n
  · have one : Heap.accessible sys { h with mem := fill h.mem ptr byte n } address 1 = true := by
      refine accessible_iff.mpr fun i below => ?_
      have mapped := accessible_iff.mp access (address - ptr + i) (by omega)
      rwa [show ptr + (address - ptr + i) = address + i by omega] at mapped
    rw [loadByte, if_pos one, if_pos inside]
    simp only [fill, if_pos inside]
  · have same : fill h.mem ptr byte n address = h.mem address := if_neg inside
    simp only [loadByte, if_neg inside, same]
    rfl

theorem memset_brk {byte : UInt8} (ran : memset sys ptr byte n h = .ok h') : h'.brk = h.brk := by
  obtain ⟨-, rfl⟩ := memset_eq_ok.mp ran
  rfl

end

/-- The functions of `alloc.c`, each with this many rounds for its loops. The heap begins
where the break was at the start. -/
def allocC (sys : System) (rounds : Nat) : Allocator Heap Fault where
  malloc size h := kumalloc sys rounds h size
  calloc nmemb size h := kucalloc sys rounds h nmemb size
  realloc ptr size h := kurealloc sys rounds h ptr size
  free ptr h := kufree sys rounds h ptr
  read := loadByte sys
  memset := memset sys
  heap _ := sys.base
  curBrk h := h.brk
  read_memset := loadByte_memset
  bounds_memset ran := ⟨rfl, memset_brk ran⟩

/-- The call that `_checked_alloc` makes. -/
def Source.call (nmemb size : Nat) : Source → Call
  | .malloc => .kumalloc (mul nmemb size)
  | .calloc => .kucalloc nmemb size
  | .realloc => .kurealloc 0 (mul nmemb size)

/-- A clean call that returns. -/
structure Works (sys : System) (rounds : Nat) (s : State) (call : Call) (result : Nat) (s' : State) :
    Prop where
  clean : call.Plain ∧ call.Clean s
  legal : call.Legal s.live
  noWrap : call.NoWrap
  returns : call.exec sys rounds s.heap = .ok (result, s'.heap)
  tracked : s'.live = track s.live call result s'.heap
  granted : s'.heap.sbrkFailures = s.heap.sbrkFailures
  bounded : s'.heap.brk < sys.base + 2 ^ 31

/-- The states of a program that allocates and frees through the checks, when the calls
made for it are clean, and the blocks that it holds. -/
inductive Supervised (sys : System) (rounds : Nat) : World Heap → List Block → Prop
  | start (mem : Memory) : Supervised sys rounds ⟨.initial, 0, Heap.initial sys mem⟩ []
  | alloc {source : Source} : Supervised sys rounds w live → nmemb * size < 2 ^ 64 →
      Works sys rounds ⟨w.memory, live⟩ (source.call nmemb size) ptr s →
      checkedAllocFrom (allocC sys rounds) budget unchecked source nmemb size w = .ok (ptr, w') →
      Supervised sys rounds w' s.live
  | free {b : Block} : Supervised sys rounds w live → b ∈ live →
      memset sys b.ptr 0xff b.requested w.memory = .ok filled →
      Works sys rounds ⟨filled, live⟩ (.kufree b.ptr) 0 s →
      checkedFree (allocC sys rounds) budget b.ptr w = .ok w' →
      Supervised sys rounds w' s.live

/-- The bytes the program asked for. -/
def payload (b : Block) : Extent := ⟨b.ptr, b.requested⟩

/-- The lists record the blocks that the program holds, and each is as it was filled. -/
structure Watched (sys : System) (rounds : Nat) (w : World Heap) (live : List Block) : Prop where
  run : CleanRun sys ⟨w.memory, live⟩
  valid : ∃ lists, Valid w.store lists
  zeroSized : w.store.records .zeroSizedAllocs = ∅
  recorded : ∀ e, (∃ data, (e, data) ∈ w.store.records .allocs) ↔ ∃ b ∈ live, payload b = e
  intact : Intact (allocC sys rounds) w

section
variable {sys : System} {s : State} {h h' : Heap} {w w' : World Heap} {live live' : List Block}
  {free free' : List Nat} {b c : Block} {rounds : Nat} {lists : ListName → List Nat}

theorem Works.step {call : Call} {s' : State} (works : Works sys rounds s call result s') :
    Step sys s call s' :=
  ⟨works.legal, works.noWrap, ⟨rounds, result, works.returns, works.tracked⟩, works.granted, works.bounded⟩

theorem allocate_allocC {source : Source} : allocate (allocC sys rounds) source nmemb size h =
    inMemory ((source.call nmemb size).exec sys rounds h) := by
  cases source <;> rfl

/-! ### The payloads -/

theorem payload_inside (tidy : Alloc.Tidy sys h live free) (used : b ∈ live) :
    (payload b).Holds x → b.extent.Holds x ∧ sys.base ≤ x ∧ x < h.brk := by
  have bounds := tidy.block_bounds used
  have room := tidy.room b used
  simp only [payload, Extent.Holds, Extent.stop, Block.ptr, Block.extent]
  omega

theorem loadByte_inside (tidy : Alloc.Tidy sys h live free) (used : b ∈ live)
    (holds : (payload b).Holds x) : loadByte sys x h = .ok (h.mem x) := by
  obtain ⟨-, low, high⟩ := payload_inside tidy used holds
  exact if_pos (accessible_inside low (by omega) tidy.ledger.high)

/-- A block that a call leaves alone is still as it was filled. -/
theorem reads_untouched {d : Nat} (tidy : Alloc.Tidy sys h live free)
    (tidy' : Alloc.Tidy sys h' live' free') (used : b ∈ live) (used' : b ∈ live')
    (untouched : ∀ x, b.extent.Holds x → h'.mem x = h.mem x) (reads : (allocC sys rounds).Reads h (payload b, d)) :
    (allocC sys rounds).Reads h' (payload b, d) := by
  intro x holds
  obtain ⟨byte, read, same⟩ := reads x holds
  have before : loadByte sys x h = .ok (h.mem x) := loadByte_inside tidy used holds
  obtain rfl : h.mem x = byte := Except.ok.inj (before.symm.trans read)
  refine ⟨h'.mem x, loadByte_inside tidy' used' holds, ?_⟩
  rw [untouched x (payload_inside tidy used holds).1]
  exact same

/-- The program fills its own bytes. -/
theorem memset_client {byte : UInt8} (run : CleanRun sys ⟨h, live⟩) (used : b ∈ live)
    (ran : memset sys b.ptr byte b.requested h = .ok h') : CleanRun sys ⟨h', live⟩ := by
  obtain ⟨-, rfl⟩ := memset_eq_ok.mp ran
  refine run.client (s := ⟨h, live⟩) fun x _ _ outside => ?_
  have apart := outside b used
  exact fill_outside h.mem byte (by omega)

theorem memset_ok (byte : UInt8) (tidy : Alloc.Tidy sys h live free) (used : b ∈ live) :
    ∃ h', memset sys b.ptr byte b.requested h = .ok h' := by
  have bounds := tidy.block_bounds used
  have room := tidy.room b used
  have access : h.accessible sys b.ptr b.requested = true :=
    accessible_inside (by simp only [Block.ptr]; omega) (by simp only [Block.ptr]; omega)
      tidy.ledger.high
  exact ⟨_, memset_eq_ok.mpr ⟨access, rfl⟩⟩

/-! ### Allocations -/

theorem kucalloc_clears (positive : 0 < nmemb * size) (fits : (Call.kucalloc nmemb size).NoWrap)
    (ran : kucalloc sys rounds h nmemb size = .ok (p, h')) :
    ∀ i < nmemb * size, h'.mem (p + i) = 0 := by
  have nonzero : ¬ (size = 0 ∨ nmemb = 0) := by
    rintro (zero | zero) <;> simp [zero] at positive
  simp only [kucalloc, if_neg nonzero, productSize_exact fits.1] at ran
  obtain ⟨⟨q, middle⟩, -, ran⟩ := bind_eq_ok.mp ran
  obtain ⟨final, cleared, last⟩ := bind_eq_ok.mp ran
  cases last
  unfold memsetZero at cleared
  split at cleared
  · cases cleared
    exact fun i inside => fill_inside middle.mem 0 (by omega)
  · cases cleared

/-- The block that a clean call hands out. -/
structure Issued (sys : System) (clears : Bool) (h : Heap) (live : List Block) (size : Nat)
    (b : Block) (s : State) : Prop where
  held : s.live = b :: live
  requested : b.requested = size
  before : ∃ free, Alloc.Tidy sys h live free
  after : ∃ free, Alloc.Tidy sys s.heap (b :: live) free
  untouched : Untouched live h s.heap
  cleared : clears = true → ∀ i < size, s.heap.mem (b.ptr + i) = 0

theorem Works.issued {source : Source} (run : CleanRun sys ⟨h, live⟩) (positive : 0 < nmemb * size)
    (short : nmemb * size < 2 ^ 64)
    (works : Works sys rounds ⟨h, live⟩ (source.call nmemb size) ptr s) :
    ∃ b, ptr = b.ptr ∧ Issued sys (source == .calloc) h live (nmemb * size) b s := by
  obtain ⟨free, tidy⟩ := clean_run_tidy run
  obtain ⟨⟨plain, clean⟩, -, noWrap, ran, tracked, quiet, bounded⟩ := works
  have clean := clean free tidy.chain
  cases source with
  | malloc =>
    simp only [Source.call, mul_of_lt short] at clean noWrap ran tracked
    have holds := (exactTotal_bounds positive noWrap).2.2.2
    obtain ⟨block, free', rfl, tidy', untouched⟩ := kumalloc_tidy tidy positive noWrap
      (clean positive) holds ran quiet bounded
    simp only [track] at tracked
    rw [handOut_eq (tidy'.headers _ List.mem_cons_self)] at tracked
    exact ⟨_, rfl, tracked, rfl, ⟨_, tidy⟩, ⟨_, tidy'⟩, untouched, fun none => absurd none (by decide)⟩
  | calloc =>
    have cleared := kucalloc_clears positive noWrap ran
    obtain ⟨block, free', rfl, tidy', untouched⟩ := kucalloc_tidy tidy positive noWrap
      (clean positive) ran quiet bounded
    simp only [track, Source.call] at tracked
    rw [handOut_eq (tidy'.headers _ List.mem_cons_self)] at tracked
    exact ⟨_, rfl, tracked, rfl, ⟨_, tidy⟩, ⟨_, tidy'⟩, untouched, fun _ => cleared⟩
  | realloc => exact plain.elim

theorem payload_apart (tidy : Alloc.Tidy sys h (b :: live) free) (used : c ∈ live) :
    (payload c).Apart (payload b) := by
  have apart := tidy.block_apart_block used
  have room := tidy.room b List.mem_cons_self
  have room' := tidy.room c (List.mem_cons_of_mem b used)
  intro x holds holds'
  simp only [payload, Extent.Holds, Extent.stop, Block.ptr] at holds holds'
  omega

/-- A block that is handed out passes, and the others are still as they were filled. -/
theorem Issued.accepted {clears : Bool} (watched : Watched sys rounds w live) (positive : 0 < size)
    (issued : Issued sys clears w.memory live size b s) :
    Accepted (allocC sys rounds) clears b.ptr size { w with memory := s.heap } ∧
      Intact (allocC sys rounds) { w with memory := s.heap } := by
  obtain ⟨held, rfl, ⟨free, tidy⟩, ⟨free', tidy'⟩, untouched, cleared⟩ := issued
  have own : b ∈ b :: live := List.mem_cons_self
  have bounds := tidy'.block_bounds own
  have room := tidy'.room b own
  have high := tidy'.ledger.high
  have limit := sys.limit_lt
  have above := sys.base_above
  have ptr : b.ptr = b.addr + 8 := rfl
  constructor
  · refine ⟨by omega, fun asked i inside => ?_, by omega, ?_, ?_, ⟨positive, by omega, fun r recorded => ?_⟩,
      fun r recorded => ?_, memset_ok _ tidy' own⟩
    · rw [add_of_lt (by omega), ← cleared asked i inside]
      refine loadByte_inside tidy' own ?_
      simp only [payload, Extent.Holds, Extent.stop]
      omega
    · change sys.base ≤ b.ptr
      omega
    · change b.ptr + b.requested ≤ s.heap.brk
      omega
    · obtain ⟨c, used, same⟩ := (watched.recorded r.1).mp ⟨r.2, recorded⟩
      exact same ▸ payload_apart tidy' used
    · rw [watched.zeroSized] at recorded
      exact recorded.elim
  · rintro ⟨e, d⟩ recorded
    obtain ⟨c, used, rfl⟩ := (watched.recorded e).mp ⟨d, recorded⟩
    exact reads_untouched tidy tidy' used (List.mem_cons_of_mem b used) (untouched c used)
      (watched.intact _ recorded)

/-- And then the lists record it. -/
theorem Issued.watched {clears : Bool} (watched : Watched sys rounds w live) (positive : 0 < size)
    (issued : Issued sys clears w.memory live size b s) (run : CleanRun sys s)
    (gained : Gained (allocC sys rounds) b.ptr size lists { w with memory := s.heap } w') :
    Watched sys rounds w' s.live := by
  obtain ⟨accepted, intact⟩ := issued.accepted watched positive
  obtain ⟨lists', valid', -⟩ := gained.valid
  have own : b ∈ s.live := issued.held ▸ List.mem_cons_self
  have filled := gained.filled
  rw [← issued.requested] at filled
  have client : CleanRun sys ⟨s.heap, s.live⟩ := run
  refine ⟨memset_client client own filled, ⟨_, valid'⟩, gained.zeroSized.trans watched.zeroSized,
    fun e => ?_, (intact_insert (getData_bounds _).2 gained.filled accepted.fresh.apart
      gained.allocs).mpr intact⟩
  have new : payload b = ⟨b.ptr, size⟩ := congrArg (Extent.mk b.ptr) issued.requested
  rw [gained.allocs, issued.held]
  simp only [Set.mem_insert_iff, List.mem_cons, exists_eq_or_imp, new, ← watched.recorded e]
  constructor
  · rintro ⟨d, same | recorded⟩
    · exact Or.inl (congrArg Prod.fst same).symm
    · exact Or.inr ⟨d, recorded⟩
  · rintro (rfl | ⟨d, recorded⟩)
    · exact ⟨_, Or.inl rfl⟩
    · exact ⟨d, Or.inr recorded⟩

/-- A request for nothing changes nothing. -/
theorem Works.nothing {source : Source} (nothing : nmemb = 0 ∨ size = 0)
    (works : Works sys rounds ⟨h, live⟩ (source.call nmemb size) ptr s) : ptr = 0 ∧ s = ⟨h, live⟩ := by
  obtain ⟨⟨plain, -⟩, -, -, ran, tracked, -, -⟩ := works
  have same : ptr = 0 ∧ s.heap = h := by
    cases source with
    | malloc =>
      have none : mul nmemb size = 0 := by
        rcases nothing with rfl | rfl <;> simp [mul]
      simp only [Source.call, Call.exec, none, kumalloc, if_true] at ran
      obtain ⟨null, same⟩ := Prod.mk.inj (Except.ok.inj ran)
      exact ⟨null.symm, same.symm⟩
    | calloc =>
      simp only [Source.call, Call.exec, kucalloc, if_pos nothing.symm] at ran
      obtain ⟨null, same⟩ := Prod.mk.inj (Except.ok.inj ran)
      exact ⟨null.symm, same.symm⟩
    | realloc => exact plain.elim
  obtain ⟨rfl, same⟩ := same
  have none (requested : Nat) : handOut live 0 requested s.heap = live := if_pos rfl
  have held : s.live = live := by
    cases source with
    | malloc => exact tracked.trans (none _)
    | calloc => exact tracked.trans (none _)
    | realloc => exact plain.elim
  refine ⟨rfl, ?_⟩
  cases s
  cases same
  cases held
  rfl

theorem Watched.no_null (watched : Watched sys rounds w live) :
    ∀ r ∈ w.store.records .allocs, ¬ r.1.Holds 0 := by
  intro r recorded holds
  obtain ⟨c, -, same⟩ := (watched.recorded r.1).mp ⟨r.2, recorded⟩
  rw [← same] at holds
  simp only [payload, Extent.Holds, Block.ptr] at holds
  omega

theorem Works.allocates {source : Source} {ptr : Nat}
    (works : Works sys rounds ⟨w.memory, live⟩ (source.call nmemb size) ptr s) :
    allocate (allocC sys rounds) source nmemb size w.memory = .ok (ptr, s.heap) := by
  rw [allocate_allocC, inMemory_eq_ok]
  exact works.returns

/-- A clean allocation passes. -/
theorem Watched.alloc_passes {source : Source} {ptr : Nat} (watched : Watched sys rounds w live)
    (short : nmemb * size < 2 ^ 64)
    (works : Works sys rounds ⟨w.memory, live⟩ (source.call nmemb size) ptr s) :
    ∃ enough, ∀ budget, enough < budget → ∀ unchecked, ∃ w',
      checkedAllocFrom (allocC sys rounds) budget unchecked source nmemb size w = .ok (ptr, w') := by
  obtain ⟨lists, valid⟩ := watched.valid
  refine ⟨(lists .allocs).length + 1, fun budget enough unchecked => ?_⟩
  have allocated := works.allocates
  by_cases nothing : nmemb = 0 ∨ size = 0
  · obtain ⟨rfl, rfl⟩ := works.nothing nothing
    have passes := checkZeroSized_null valid (Nat.lt_of_succ_lt enough) watched.intact watched.no_null
    refine ⟨w, ?_⟩
    rw [checkedAllocFrom, allocated, ok_bind]
    simp only [if_pos nothing]
    rw [passes]
    rfl
  · have positive : 0 < nmemb * size := Nat.pos_of_ne_zero fun none =>
      nothing (Nat.mul_eq_zero.mp none)
    obtain ⟨b, rfl, issued⟩ := works.issued watched.run positive short
    obtain ⟨accepted, intact⟩ := issued.accepted watched positive
    rw [← mul_of_lt short] at accepted
    exact checkedAllocFrom_passes valid nothing allocated enough accepted fun _ => intact

theorem Watched.alloc_kept {source : Source} {ptr budget : Nat} {unchecked : Bool}
    (watched : Watched sys rounds w live) (short : nmemb * size < 2 ^ 64)
    (works : Works sys rounds ⟨w.memory, live⟩ (source.call nmemb size) ptr s)
    (ran : checkedAllocFrom (allocC sys rounds) budget unchecked source nmemb size w = .ok (ptr, w')) :
    Watched sys rounds w' s.live := by
  obtain ⟨lists, valid⟩ := watched.valid
  have allocated := works.allocates
  by_cases nothing : nmemb = 0 ∨ size = 0
  · obtain ⟨rfl, rfl⟩ := works.nothing nothing
    rw [checkedAllocFrom, allocated, ok_bind] at ran
    simp only [if_pos nothing] at ran
    obtain ⟨w₁, checked, last⟩ := bind_eq_ok.mp ran
    cases last
    obtain rfl := checkZeroSized_null_kept checked
    exact watched
  · have positive : 0 < nmemb * size := Nat.pos_of_ne_zero fun none =>
      nothing (Nat.mul_eq_zero.mp none)
    obtain ⟨b, rfl, issued⟩ := works.issued watched.run positive short
    obtain ⟨memory, allocated', -, gained, -⟩ := checkedAllocFrom_buffer valid nothing ran
    obtain ⟨-, rfl⟩ := Prod.mk.inj (Except.ok.inj (allocated.symm.trans allocated'))
    rw [mul_of_lt short] at gained
    exact issued.watched watched positive (watched.run.call works.clean works.step) gained

/-! ### Frees -/

/-- What a clean call of `kufree` does. -/
theorem Works.freed (run : CleanRun sys ⟨h, live⟩) (used : b ∈ live)
    (works : Works sys rounds ⟨h, live⟩ (.kufree b.ptr) 0 s) :
    kufree sys rounds h b.ptr = .ok s.heap ∧ s.live = live.filter (fun c => c.ptr ≠ b.ptr) ∧
      ∃ free free', Alloc.Tidy sys h live free ∧ Alloc.Tidy sys s.heap s.live free' ∧
        Untouched s.live h s.heap := by
  obtain ⟨free, tidy⟩ := clean_run_tidy run
  obtain ⟨⟨-, clean⟩, -, -, ran, tracked, quiet, -⟩ := works
  obtain ⟨final, ran, last⟩ := bind_eq_ok.mp ran
  obtain ⟨-, rfl⟩ := Prod.mk.inj (Except.ok.inj last)
  have held : s.live = live.filter fun c => c.ptr ≠ b.ptr := tracked
  obtain ⟨free', tidy', untouched⟩ := kufree_tidy tidy used (clean free tidy.chain b used rfl) ran quiet
  rw [← held] at tidy' untouched
  exact ⟨ran, held, free, free', tidy, tidy', untouched⟩

/-- The other records are those of the other blocks. -/
theorem Watched.others (watched : Watched sys rounds w live) {d : Nat}
    (own : (payload b, d) ∈ w.store.records .allocs) (e : Extent) :
    (∃ data, (e, data) ∈ w.store.records .allocs \ {(payload b, d)}) ↔
      ∃ c ∈ live.filter (fun c => c.ptr ≠ b.ptr), payload c = e := by
  obtain ⟨lists, valid⟩ := watched.valid
  constructor
  · rintro ⟨data, recorded, different⟩
    obtain ⟨c, used, rfl⟩ := (watched.recorded e).mp ⟨data, recorded⟩
    refine ⟨c, List.mem_filter.mpr ⟨used, decide_eq_true fun same => different ?_⟩, rfl⟩
    exact valid.record_unique own recorded same
  · rintro ⟨c, used, rfl⟩
    obtain ⟨used, other⟩ := List.mem_filter.mp used
    obtain ⟨data, recorded⟩ := (watched.recorded (payload c)).mpr ⟨c, used, rfl⟩
    exact ⟨data, recorded, fun same => of_decide_eq_true other (congrArg (fun r => r.1.lo) same)⟩

theorem Watched.frees_something (watched : Watched sys rounds w live) (b : Block) :
    ¬ FreesNothing w b.ptr := by
  rintro (null | ⟨r, recorded, -⟩)
  · exact nomatch null
  · rw [watched.zeroSized] at recorded
    exact recorded.elim

/-- The pointer of a live block is not the last address. -/
theorem Watched.place (watched : Watched sys rounds w live) (used : b ∈ live) :
    (if b.ptr = 2 ^ 64 - 1 then b.ptr - 1 else b.ptr) = b.ptr := by
  obtain ⟨free, tidy⟩ := clean_run_tidy watched.run
  have bounds := tidy.block_bounds used
  have high := tidy.ledger.high
  have limit := sys.limit_lt
  refine if_neg ?_
  simp only [Block.ptr]
  omega

/-- A live block that the program gives back is what the checks ask for. -/
theorem Watched.releases (watched : Watched sys rounds w live) (used : b ∈ live)
    (filled : memset sys b.ptr 0xff b.requested w.memory = .ok h)
    (works : Works sys rounds ⟨h, live⟩ (.kufree b.ptr) 0 s) :
    ∃ d, Releases (allocC sys rounds) w b.ptr (payload b, d) := by
  obtain ⟨lists, valid⟩ := watched.valid
  obtain ⟨d, own⟩ := (watched.recorded (payload b)).mpr ⟨b, used, rfl⟩
  obtain ⟨ran, held, free, free', tidy, tidy', untouched⟩ :=
    works.freed (memset_client watched.run used filled) used
  refine ⟨d, own, rfl, watched.intact _ own, h, s.heap, filled, ran, ?_⟩
  rintro ⟨e, d'⟩ recorded
  obtain ⟨c, kept, rfl⟩ := (watched.others own e).mp ⟨d', recorded⟩
  have apart := valid.records_apart allocs_sorted recorded.1 own recorded.2
  have written : (allocC sys rounds).memset b.ptr 0xff b.requested w.memory = .ok h := filled
  have reads := (Allocator.Reads.elsewhere written apart).mpr (watched.intact _ recorded.1)
  have kept' : c ∈ s.live := held ▸ kept
  exact reads_untouched tidy tidy' (List.mem_of_mem_filter kept) kept' (untouched c kept') reads

/-- What is recorded of the other blocks lies below the break that the call leaves, so
the search of the lists does not object when memory above it is given back. -/
theorem Watched.free_clear {budget top : Nat} {w₁ : World Heap} (watched : Watched sys rounds w live)
    (used : b ∈ live) (filled : memset sys b.ptr 0xff b.requested w.memory = .ok h)
    (works : Works sys rounds ⟨h, live⟩ (.kufree b.ptr) 0 s) (enough : 0 < budget)
    (taken : retire (allocC sys rounds) budget b.ptr w = .ok w₁) (above : s.heap.brk ≤ addr)
    (down : addr < top) :
    findOverlap budget .allocs ⟨addr, top, 0, 0, 0⟩ w₁.store = .ok false := by
  obtain ⟨lists, valid⟩ := watched.valid
  obtain ⟨d, own⟩ := (watched.recorded (payload b)).mpr ⟨b, used, rfl⟩
  obtain ⟨-, held, -, free', -, tidy', -⟩ :=
    works.freed (memset_client watched.run used filled) used
  obtain ⟨r, retired⟩ := retire_returned valid taken
  obtain rfl : r = (payload b, d) := valid.record_unique own retired.recorded retired.start
  obtain ⟨lists', valid'⟩ := retired.valid
  let freed : Region := ⟨addr, top, 0, 0, 0⟩
  have some : freed.start < freed.stop := down
  obtain ⟨found, settles, clear⟩ := findOverlap_records valid' allocs_sorted some
  obtain rfl : found = false := by
    refine clear.mpr fun t recorded _ => ?_
    rw [retired.allocs] at recorded
    obtain ⟨c, kept, same⟩ := (watched.others own t.1).mp ⟨t.2, recorded⟩
    have low : ∀ x, t.1.Holds x → x < s.heap.brk := fun x holds =>
      (payload_inside tidy' (held ▸ kept) (same ▸ holds)).2.2
    intro x holds inside
    exact absurd (Nat.lt_of_lt_of_le (low x holds) above) (Nat.not_lt_of_le inside.1)
  exact (settles budget).reached enough

/-- The system stands for this reserved memory. -/
def Reservation.Backs (res : Reservation) (sys : System) : Prop :=
  res.place = sys.base ∧ res.place + res.maxBrkSize = sys.limit

/-- With these lists the interceptor lowers the break as it is asked to, as long as it
stays at `bottom` or above. -/
def Lowers (sys : System) (rounds : Nat) (st : Store) (bottom : Nat) : Prop :=
  ∀ (res : Reservation) (p : Process) (addr : Nat), res.Backs sys → Session res p → bottom ≤ addr →
    addr ≤ p.breakAt res →
      ∃ p', sbrk res rounds st (addr - p.breakAt res) p = .ok (p.breakAt res, p') ∧ p'.breakAt res = addr

theorem Watched.free_lowers {budget : Nat} {w₁ : World Heap} (watched : Watched sys rounds w live)
    (used : b ∈ live) (filled : memset sys b.ptr 0xff b.requested w.memory = .ok h)
    (works : Works sys rounds ⟨h, live⟩ (.kufree b.ptr) 0 s) (enough : 0 < budget)
    (taken : retire (allocC sys rounds) budget b.ptr w = .ok w₁) :
    Lowers sys budget w₁.store s.heap.brk := by
  intro res p addr backs session above below
  obtain ⟨-, -, -, free', -, tidy', -⟩ := works.freed (memset_client watched.run used filled) used
  have bottom := tidy'.ledger.low
  obtain ⟨q, -, fits, current⟩ := session.ensured
  have high := fits.high
  have limit := limit_lt res
  have moved : toSize (p.breakAt res + (addr - p.breakAt res : Int)) = addr := by
    unfold toSize
    omega
  exact session_moves session moved (backs.1 ▸ Nat.le_trans bottom above) (by omega) fun down =>
    watched.free_clear used filled works enough taken above down

/-- A clean free passes. -/
theorem Watched.free_passes (watched : Watched sys rounds w live) (used : b ∈ live)
    (filled : memset sys b.ptr 0xff b.requested w.memory = .ok h)
    (works : Works sys rounds ⟨h, live⟩ (.kufree b.ptr) 0 s) :
    ∃ enough, ∀ budget, enough < budget →
      (∃ w', checkedFree (allocC sys rounds) budget b.ptr w = .ok w') ∧
        ∃ w₁, retire (allocC sys rounds) budget b.ptr w = .ok w₁ := by
  obtain ⟨lists, valid⟩ := watched.valid
  obtain ⟨d, releases⟩ := watched.releases used filled works
  have written : (allocC sys rounds).memset b.ptr 0xff b.requested w.memory = .ok h := filled
  have placed := releases
  rw [← watched.place used] at placed
  refine ⟨_, fun budget enough => ⟨checkedFree_passes valid (watched.frees_something b) placed enough, ?_⟩⟩
  obtain ⟨w₁, taken, -⟩ := retire_passes valid releases.recorded releases.reads written
    (Nat.lt_of_le_of_lt (Nat.le_add_right _ _) enough)
  exact ⟨w₁, taken⟩

theorem Watched.free_kept {budget : Nat} (watched : Watched sys rounds w live) (used : b ∈ live)
    (filled : memset sys b.ptr 0xff b.requested w.memory = .ok h)
    (works : Works sys rounds ⟨h, live⟩ (.kufree b.ptr) 0 s)
    (ran : checkedFree (allocC sys rounds) budget b.ptr w = .ok w') : Watched sys rounds w' s.live := by
  obtain ⟨lists, valid⟩ := watched.valid
  obtain ⟨d, own⟩ := (watched.recorded (payload b)).mpr ⟨b, used, rfl⟩
  have client := memset_client watched.run used filled
  obtain ⟨freed, held, -⟩ := works.freed client used
  obtain ⟨w₁, r, retired, taken, same, intact⟩ :=
    checkedFree_buffer valid (watched.frees_something b) ran
  rw [watched.place used] at retired taken
  obtain rfl : r = (payload b, d) := valid.record_unique own retired.recorded retired.start
  obtain rfl : h = w₁.memory := Except.ok.inj (filled.symm.trans retired.filled)
  have memory : s.heap = w'.memory := Except.ok.inj (freed.symm.trans taken)
  have next : CleanRun sys s := client.call works.clean works.step
  obtain ⟨lists', valid'⟩ := retired.valid
  refine ⟨memory ▸ next, ⟨_, same ▸ valid'⟩, ?_, fun e => ?_, intact⟩
  · rw [same, retired.zeroSized, watched.zeroSized]
  · rw [same, retired.allocs, held]
    exact watched.others own e

/-! ### Runs -/

theorem Supervised.watched (run : Supervised sys rounds w live) : Watched sys rounds w live := by
  induction run with
  | start mem =>
    refine ⟨.start mem, ⟨_, valid_initial⟩, records_initial _,
      fun e => ⟨fun ⟨d, recorded⟩ => ?_, fun ⟨b, used, _⟩ => absurd used List.not_mem_nil⟩,
      fun r recorded => ?_⟩
    · rw [records_initial] at recorded
      exact recorded.elim
    · rw [records_initial] at recorded
      exact recorded.elim
  | alloc _ short works ran ih => exact ih.alloc_kept short works ran
  | free _ used filled works ran ih => exact ih.free_kept used filled works ran

/-! ### Two buffers of 24 bytes -/

theorem works_of_play {call : Call} {t t' : State} (clean : call.checkClean t = true)
    (played : playCall sys rounds t call = some t') : ∃ result, Works sys rounds t call result t' := by
  have holds := Call.checkClean_sound t call clean
  unfold playCall at played
  split at played
  · next legal =>
    split at played
    · next result h ran =>
      split at played
      · next quiet =>
        cases played
        exact ⟨result, holds, legal.1, legal.2, ran, rfl, quiet.1, quiet.2⟩
      · cases played
    · cases played
  · cases played

/-- The newest block, filled. -/
def fillNewest (byte : UInt8) (t : State) : State :=
  match t.live with
  | [] => t
  | b :: _ => { t with heap := { t.heap with mem := fill t.heap.mem b.ptr byte b.requested } }

/-- A clean `kumalloc`, and the block filled. -/
def playBuffer (byte : UInt8) (size : Nat) (t : State) : Option State :=
  if (Call.kumalloc size).checkClean t then
    (playCall pagedSystem 64 t (.kumalloc size)).map (fillNewest byte)
  else none

/-- A program that has asked for buffers, and what is recorded. -/
structure Begun (w : World Heap) (t : State) (data : Nat) (records : Set (Extent × Nat)) : Prop where
  memory : w.memory = t.heap
  counter : w.dataCnt = data
  records : w.store.records .allocs = records
  run : Supervised pagedSystem 64 w t.live
  checked : CheckedRun (allocC pagedSystem 64) w

theorem Begun.start : Begun ⟨.initial, 0, freshState.heap⟩ freshState 0 ∅ :=
  ⟨rfl, rfl, records_initial _, .start _, .start _⟩

/-- One more buffer. -/
theorem Begun.gain {t t' : State} {data : Nat} {before : Set (Extent × Nat)} (begun : Begun w t data before)
    (positive : 0 < size) (short : size < 2 ^ 64)
    (played : playBuffer (UInt8.ofNat (getData data)) size t = some t') :
    ∃ w' b, t'.live = b :: t.live ∧ b.requested = size ∧
      Begun w' t' (getData data) (insert (payload b, getData data) before) := by
  obtain ⟨memory, rfl, recorded, run, checked⟩ := begun
  unfold playBuffer at played
  split at played
  · next clean =>
    obtain ⟨u, called, rfl⟩ := Option.map_eq_some_iff.mp played
    obtain ⟨ptr, works⟩ := works_of_play clean called
    have fits : 1 * size < 2 ^ 64 := by omega
    have works : Works pagedSystem 64 ⟨w.memory, t.live⟩ (Source.call 1 size .malloc) ptr u := by
      rw [memory, Source.call, mul_of_lt fits, Nat.one_mul]
      exact works
    obtain ⟨enough, passes⟩ := run.watched.alloc_passes fits works
    obtain ⟨w', ran⟩ := passes (enough + 1) (Nat.lt_succ_self _) false
    obtain ⟨b, rfl, issued⟩ := works.issued run.watched.run (by omega) fits
    obtain ⟨lists, valid⟩ := run.watched.valid
    obtain ⟨h, allocated, -, gained, -⟩ := checkedAllocFrom_buffer valid (by omega) ran
    obtain ⟨-, rfl⟩ := Prod.mk.inj (Except.ok.inj (works.allocates.symm.trans allocated))
    have requested : b.requested = size := issued.requested.trans (Nat.one_mul size)
    have own : mul 1 size = b.requested := (mul_of_lt fits).trans issued.requested.symm
    have newest : fillNewest (UInt8.ofNat (getData w.dataCnt)) u = ⟨w'.memory, u.live⟩ := by
      obtain ⟨-, filled⟩ := memset_eq_ok.mp gained.filled
      rw [own] at filled
      rw [fillNewest, issued.held, filled]
    have typed : (CheckedCall.allocArray 1 size).Typed := ⟨by omega, short⟩
    have called : (CheckedCall.allocArray 1 size).exec (allocC pagedSystem 64) (enough + 1) false false w =
      .ok (b.ptr, w') := ran
    rw [newest]
    have more : Supervised pagedSystem 64 w' u.live := run.alloc fits works ran
    refine ⟨w', b, issued.held, requested, rfl, gained.dataCnt, ?_, more, checked.call typed called⟩
    rw [gained.allocs, own, ← recorded]
    rfl
  · cases played

/-- The second buffer is above the first. -/
structure TwoBuffers (w : World Heap) (t : State) : Prop where
  played : (playBuffer 1 24 freshState).bind (playBuffer 2 24) = some t
  live : t.live = [⟨65568, 32, 24⟩, ⟨65536, 32, 24⟩]
  begun : Begun w t 2 {(⟨65576, 24⟩, 2), (⟨65544, 24⟩, 1)}

theorem TwoBuffers.passed {t : State} {test : State → Bool} (two : TwoBuffers w t)
    (ends : ((playBuffer 1 24 freshState).bind (playBuffer 2 24)).any test = true) : test t = true := by
  rw [two.played] at ends
  exact ends

theorem two_buffers : ∃ w t, TwoBuffers w t := by
  have ends : ((playBuffer 1 24 freshState).bind (playBuffer 2 24)).any (fun t =>
      t.live = [⟨65568, 32, 24⟩, ⟨65536, 32, 24⟩]) = true := by
    decide +kernel
  obtain ⟨t', played', shape⟩ := (Option.any_eq_true _ _).mp ends
  obtain ⟨t, played, second⟩ := Option.bind_eq_some_iff.mp played'
  obtain ⟨w, b, held, -, begun⟩ := Begun.start.gain (by decide) (by decide) played
  obtain ⟨w', c, held', -, begun'⟩ := begun.gain (by decide) (by decide) second
  rw [held', held] at shape
  obtain ⟨rfl, rest⟩ := List.cons.inj (of_decide_eq_true shape)
  obtain ⟨rfl, -⟩ := List.cons.inj rest
  have live : t'.live = [⟨65568, 32, 24⟩, ⟨65536, 32, 24⟩] := by rw [held', held]; rfl
  rw [insert_empty_eq] at begun'
  exact ⟨w', t', played', live, begun'⟩

/-- `kufree` returns nothing. -/
theorem Works.no_result {t t' : State} (works : Works sys rounds t (.kufree ptr) result t') :
    result = 0 := by
  obtain ⟨final, -, last⟩ := bind_eq_ok.mp works.returns
  exact (Prod.mk.inj (Except.ok.inj last)).1.symm

/-- The second buffer is filled once more and given back, and the break is lowered. -/
theorem TwoBuffers.gives {t : State} (two : TwoBuffers w t) : ∃ filled u,
    memset pagedSystem 65576 0xff 24 w.memory = .ok filled ∧ u.live = [⟨65536, 32, 24⟩] ∧
      w.memory.brk = 73728 ∧ u.heap.brk = 73696 ∧
        Works pagedSystem 64 ⟨filled, t.live⟩ (.kufree 65576) 0 u := by
  have ends : ((playBuffer 1 24 freshState).bind (playBuffer 2 24)).any (fun t =>
      let filled : Heap := { t.heap with mem := fill t.heap.mem 65576 0xff 24 }
      (Call.kufree 65576).checkClean ⟨filled, t.live⟩ ∧
        (playCall pagedSystem 64 ⟨filled, t.live⟩ (.kufree 65576)).any fun u =>
          u.live = [⟨65536, 32, 24⟩] ∧ t.heap.brk = 73728 ∧ u.heap.brk = 73696) = true := by
    decide +kernel
  obtain ⟨clean, plays⟩ := of_decide_eq_true (two.passed ends)
  obtain ⟨u, played, shape⟩ := (Option.any_eq_true _ _).mp plays
  obtain ⟨rest, before, after⟩ := of_decide_eq_true shape
  obtain ⟨result, works⟩ := works_of_play clean played
  obtain ⟨free, tidy⟩ := clean_run_tidy two.begun.run.watched.run
  obtain ⟨filled, written⟩ := memset_ok 0xff tidy (two.live ▸ List.mem_cons_self)
  obtain ⟨-, same⟩ := memset_eq_ok.mp written
  obtain rfl := works.no_result
  have memory := two.begun.memory
  rw [memory] at same
  exact ⟨filled, u, written, rest, memory ▸ before, after, same ▸ works⟩

/-! ### The next call -/

/-- The checks never stop a clean call. In every state of a program that allocates and
frees through them, the lists record exactly the blocks that it holds, and the next call
returns, be it an allocation or the free of one of these blocks. While that block is
freed, the interceptor lowers the break as far as the call asks for. -/
theorem supervised_run_passes (run : Supervised sys rounds w live) :
    Watched sys rounds w live ∧
    (∀ source nmemb size ptr s, nmemb * size < 2 ^ 64 →
      Works sys rounds ⟨w.memory, live⟩ (Source.call nmemb size source) ptr s →
      ∃ enough, ∀ budget, enough < budget → ∀ unchecked, ∃ w',
        checkedAllocFrom (allocC sys rounds) budget unchecked source nmemb size w = .ok (ptr, w') ∧
          Supervised sys rounds w' s.live) ∧
    ∀ b ∈ live, ∃ filled, memset sys b.ptr 0xff b.requested w.memory = .ok filled ∧
      ∀ s, Works sys rounds ⟨filled, live⟩ (.kufree b.ptr) 0 s →
        ∃ enough, ∀ budget, enough < budget →
          (∃ w', checkedFree (allocC sys rounds) budget b.ptr w = .ok w' ∧
            Supervised sys rounds w' s.live) ∧
          ∃ w₁, retire (allocC sys rounds) budget b.ptr w = .ok w₁ ∧
            Lowers sys budget w₁.store s.heap.brk := by
  have watched := run.watched
  refine ⟨watched, fun source nmemb size ptr s short works => ?_, fun b used => ?_⟩
  · obtain ⟨enough, passes⟩ := watched.alloc_passes short works
    refine ⟨enough, fun budget more unchecked => ?_⟩
    obtain ⟨w', ran⟩ := passes budget more unchecked
    exact ⟨w', ran, run.alloc short works ran⟩
  · obtain ⟨free, tidy⟩ := clean_run_tidy watched.run
    obtain ⟨filled, written⟩ := memset_ok 0xff tidy used
    refine ⟨filled, written, fun s works => ?_⟩
    obtain ⟨enough, passes⟩ := watched.free_passes used written works
    refine ⟨enough, fun budget more => ?_⟩
    obtain ⟨⟨w', ran⟩, w₁, taken⟩ := passes budget more
    exact ⟨⟨w', ran, run.free used written works ran⟩, w₁, taken,
      watched.free_lowers used written works (Nat.zero_lt_of_lt more) taken⟩

/-- The second of two buffers is freed, and the break is lowered by its block. -/
theorem supervised_run_passes_free : ∃ (w w' w₁ : World Heap) (budget : Nat) (p p' : Process),
    Watched pagedSystem 64 w [⟨65568, 32, 24⟩, ⟨65536, 32, 24⟩] ∧
    checkedFree (allocC pagedSystem 64) budget 65576 w = .ok w' ∧
    Supervised pagedSystem 64 w' [⟨65536, 32, 24⟩] ∧
    retire (allocC pagedSystem 64) budget 65576 w = .ok w₁ ∧
    w.memory.brk = 73728 ∧ sbrk smallReservation budget w₁.store (-32) p = .ok (73728, p') ∧
    p'.breakAt smallReservation = 73696 := by
  obtain ⟨w, t, two⟩ := two_buffers
  obtain ⟨filled, u, written, rest, before, after, works⟩ := two.gives
  have run := two.begun.run
  rw [two.live] at run works
  obtain ⟨watched, -, frees⟩ := supervised_run_passes run
  obtain ⟨filled', written', passes⟩ := frees _ List.mem_cons_self
  obtain rfl := Except.ok.inj (written.symm.trans written')
  obtain ⟨enough, passes⟩ := passes u works
  obtain ⟨⟨w', ran, next⟩, w₁, taken, lowers⟩ := passes (enough + 1) (Nat.lt_succ_self _)
  obtain ⟨p, session, reserved, moved⟩ := session_grown smallReservation 73728 (by decide) (by decide)
  have current : p.breakAt smallReservation = 73728 := by rw [Process.breakAt, if_neg reserved, moved]
  obtain ⟨p', called, arrived⟩ := lowers smallReservation p 73696 ⟨rfl, rfl⟩ session
    (Nat.le_of_eq after) (by omega)
  rw [current] at called
  exact ⟨w, w', w₁, enough + 1, p, p', watched, ran, rest ▸ next, taken, before, called, arrived⟩

end

end Comp304.Framework
