import Comp304.Alloc.Runs
import Comp304.Framework.Regions

/-! The break as `intercept.c` implements it for the allocator under test: memory that
is reserved once, without access, and whose pages are opened and closed as the break
moves. The lists say whether lowering the break frees an area that is still in use. -/
namespace Comp304.Framework
open Library.Budget Library.Lp64 Library.Extents

/-- Where `mmap` places the reserved memory, and `max_brk_size`. The system places it
at a page, and programs have the lower half of the addresses. -/
structure Reservation where
  place : Nat
  maxBrkSize : Nat
  aligned : place % 4096 = 0
  above : 4096 ≤ place
  low : place + maxBrkSize + 4096 < 2 ^ 63

/-- Why a call does not return: a message of `intercept.c`, or a failure in the lists. -/
inductive Abort where
  | heapInitialized
  | beforeHeap (addr heap : Nat)
  | beyondHeap (addr size stop : Nat)
  | stillContains (curBrk addr start stop : Nat)
  | mprotect (addr len : Nat)
  | lists (failure : Failure)
  deriving DecidableEq, Repr

/-- The globals of `intercept.c`, and which pages may be read and written. -/
structure Process where
  heap : Nat
  curBrk : Nat
  numBrkIncreaseCalls : Nat
  numBrkDecreaseCalls : Nat
  accessible : Nat → Bool

def Process.initial : Process := ⟨0, 0, 0, 0, fun _ => false⟩

/-- `ALIGN_UP(x, PGSIZE)` -/
def alignUp (x : Nat) : Nat := add x 4095 / 4096 * 4096

/-- `init_heap` -/
def initHeap (res : Reservation) (p : Process) : Except Abort Process :=
  if p.heap ≠ 0 then .error .heapInitialized
  else .ok { p with heap := res.place, curBrk := res.place }

/-- `orig_mprotect`, which asserts that the system accepts the range: it must begin at
a page and lie in the reserved memory. -/
def origMprotect (res : Reservation) (addr len : Nat) (prot : Bool) (p : Process) :
    Except Abort Process :=
  if addr % 4096 = 0 ∧ res.place ≤ addr ∧ addr + len ≤ alignUp (res.place + res.maxBrkSize) then
    .ok { p with accessible := fun page =>
      if addr ≤ page * 4096 ∧ page * 4096 < addr + len then prot else p.accessible page }
  else .error (.mprotect addr len)

/-- A search of the lists, as part of a call. -/
def searching (search : Except Failure α) : Except Abort α := search.mapError .lists

/-- The pages that a higher break needs are opened. -/
def openPages (res : Reservation) (pgCur pgNew : Nat) (p : Process) : Except Abort Process :=
  if pgNew > pgCur then origMprotect res pgCur (pgNew - pgCur) true p else .ok p

/-- The pages that a lower break does not need are closed. -/
def closePages (res : Reservation) (pgCur pgNew : Nat) (p : Process) : Except Abort Process :=
  if pgNew < pgCur then origMprotect res pgNew (pgCur - pgNew) false p else .ok p

/-- `do_brk`. What the message shows as the allocation that is still there is the
memory to be freed: it is what `memlist_find_overlap` returns. -/
def doBrk (res : Reservation) (rounds : Nat) (st : Store) (addr : Nat) (p : Process) :
    Except Abort Process := do
  let pgCur := alignUp p.curBrk
  let pgNew := alignUp addr
  if ¬ addr ≥ p.heap then .error (.beforeHeap addr p.heap)
  else if ¬ addr ≤ p.heap + res.maxBrkSize then
    .error (.beyondHeap addr res.maxBrkSize (p.heap + res.maxBrkSize))
  else if addr = p.curBrk then .ok p
  else if addr > p.curBrk then
    let p ← openPages res pgCur pgNew { p with numBrkIncreaseCalls := p.numBrkIncreaseCalls + 1 }
    .ok { p with curBrk := addr }
  else
    let alloc ← searching (findOverlap rounds .allocs ⟨addr, p.curBrk, 0, 0, 0⟩ st)
    if alloc then .error (.stillContains p.curBrk addr addr p.curBrk)
    else
      let p ← closePages res pgCur pgNew { p with numBrkDecreaseCalls := p.numBrkDecreaseCalls + 1 }
      .ok { p with curBrk := addr }

/-- `if (!heap) init_heap();` -/
def ensureHeap (res : Reservation) (p : Process) : Except Abort Process :=
  if p.heap = 0 then initHeap res p else .ok p

/-- `brk` -/
def brk (res : Reservation) (rounds : Nat) (st : Store) (addr : Nat) (p : Process) :
    Except Abort (Nat × Process) := do
  let p ← ensureHeap res p
  let p ← doBrk res rounds st addr p
  .ok (0, p)

/-- `sbrk` -/
def sbrk (res : Reservation) (rounds : Nat) (st : Store) (increment : Int) (p : Process) :
    Except Abort (Nat × Process) := do
  let p ← ensureHeap res p
  let oldBrk := p.curBrk
  let p ← doBrk res rounds st (toSize (p.curBrk + increment)) p
  .ok (oldBrk, p)

theorem alignUp_eq (small : x < 2 ^ 63) : alignUp x = (x + 4095) / 4096 * 4096 := by
  rw [alignUp, add_of_lt (by omega)]

section
variable (res : Reservation)

theorem base_aligned : res.place % 8 = 0 := by
  have aligned := res.aligned
  omega

theorem limit_lt : res.place + res.maxBrkSize < 2 ^ 63 := by
  have low := res.low
  omega

theorem heap_mapped (low : res.place ≤ address) (below : address < top)
    (high : top ≤ res.place + res.maxBrkSize) : decide (res.place ≤ address ∧ address < alignUp top ∧
      address < alignUp (res.place + res.maxBrkSize)) = true := by
  have small := res.low
  rw [decide_eq_true_eq, alignUp_eq (by omega), alignUp_eq (by omega)]
  omega

theorem user_mapped (mapped : decide (res.place ≤ address ∧ address < alignUp top ∧
    address < alignUp (res.place + res.maxBrkSize)) = true) : 4096 ≤ address ∧ address < 2 ^ 63 := by
  have small := res.low
  have above := res.above
  rw [decide_eq_true_eq, alignUp_eq (x := res.place + res.maxBrkSize) (by omega)] at mapped
  omega

end

/-- What the allocator under test runs on. -/
def Reservation.system (res : Reservation) : Alloc.System where
  base := res.place
  limit := res.place + res.maxBrkSize
  granted _ := true
  mapped top address := decide (res.place ≤ address ∧ address < alignUp top ∧
    address < alignUp (res.place + res.maxBrkSize))
  base_aligned := base_aligned res
  base_above := res.above
  base_le_limit := Nat.le_add_right _ _
  limit_lt := limit_lt res
  heap_mapped _ _ low below high := heap_mapped res low below high
  user_mapped _ _ mapped := user_mapped res mapped

/-- The states that calls of `sbrk` and `brk` lead to, with any lists at each call. -/
inductive Session (res : Reservation) : Process → Prop where
  | start : Session res .initial
  | sbrk : Session res p → sbrk res rounds st increment p = .ok (result, p') → Session res p'
  | brk : Session res p → brk res rounds st addr p = .ok (result, p') → Session res p'

/-- Where the break is, or will be once the memory is reserved. -/
def Process.breakAt (res : Reservation) (p : Process) : Nat :=
  if p.heap = 0 then res.place else p.curBrk

/-! ### The pages follow the break -/

/-- The break is where it may be, and the pages up to it can be accessed. -/
structure Fits (res : Reservation) (p : Process) : Prop where
  heap : p.heap = res.place
  low : res.place ≤ p.curBrk
  high : p.curBrk ≤ res.place + res.maxBrkSize
  pages : ∀ page, p.accessible page = decide (res.place ≤ page * 4096 ∧ page * 4096 < alignUp p.curBrk)

section
variable {res : Reservation} {p p' : Process} {st : Store} {addr rounds : Nat}

theorem Reservation.place_ne_zero (res : Reservation) : res.place ≠ 0 := by
  have above := res.above
  omega

/-- The first call finds the reserved memory without any access. -/
theorem ensureHeap_initial (res : Reservation) : ∃ p, ensureHeap res .initial = .ok p ∧ Fits res p ∧ p.curBrk = res.place := by
  have aligned := res.aligned
  have low := res.low
  have boundary := alignUp_eq (x := res.place) (by omega)
  refine ⟨{ Process.initial with heap := res.place, curBrk := res.place }, rfl,
    ⟨rfl, Nat.le_refl _, Nat.le_add_right _ _, fun page => ?_⟩, rfl⟩
  refine (decide_eq_false ?_).symm
  simp only [boundary]
  omega

theorem ensureHeap_fits (fits : Fits res p) : ensureHeap res p = .ok p := by
  rw [ensureHeap, if_neg (fits.heap ▸ res.place_ne_zero)]

/-- Pages are opened up to the new break. -/
theorem openPages_fits (fits : Fits res p) (up : p.curBrk < addr)
    (high : addr ≤ res.place + res.maxBrkSize) (count : Nat) :
    ∃ p', openPages res (alignUp p.curBrk) (alignUp addr) { p with numBrkIncreaseCalls := count } =
      .ok p' ∧ Fits res { p' with curBrk := addr } := by
  have aligned := res.aligned
  have below := res.low
  have low := fits.low
  have before := alignUp_eq (x := p.curBrk) (by omega)
  have after := alignUp_eq (x := addr) (by omega)
  have top := alignUp_eq (x := res.place + res.maxBrkSize) (by omega)
  have low' : res.place ≤ addr := by omega
  unfold openPages
  split_ifs with more
  · rw [origMprotect, if_pos (by omega)]
    refine ⟨_, rfl, fits.heap, low', high, fun page => ?_⟩
    simp only [fits.pages]
    split_ifs with inside
    · exact (decide_eq_true (by omega)).symm
    · exact decide_eq_decide.mpr (by omega)
  · refine ⟨_, rfl, fits.heap, low', high, fun page => ?_⟩
    simp only [fits.pages]
    exact decide_eq_decide.mpr (by omega)

/-- Pages are closed down to the new break. -/
theorem closePages_fits (fits : Fits res p) (down : addr < p.curBrk) (low : res.place ≤ addr)
    (count : Nat) :
    ∃ p', closePages res (alignUp p.curBrk) (alignUp addr) { p with numBrkDecreaseCalls := count } =
      .ok p' ∧ Fits res { p' with curBrk := addr } := by
  have aligned := res.aligned
  have below := res.low
  have high := fits.high
  have before := alignUp_eq (x := p.curBrk) (by omega)
  have after := alignUp_eq (x := addr) (by omega)
  have top := alignUp_eq (x := res.place + res.maxBrkSize) (by omega)
  have high' : addr ≤ res.place + res.maxBrkSize := by omega
  unfold closePages
  split_ifs with less
  · rw [origMprotect, if_pos (by omega)]
    refine ⟨_, rfl, fits.heap, low, high', fun page => ?_⟩
    simp only [fits.pages]
    split_ifs with inside
    · exact (decide_eq_false (by omega)).symm
    · exact decide_eq_decide.mpr (by omega)
  · refine ⟨_, rfl, fits.heap, low, high', fun page => ?_⟩
    simp only [fits.pages]
    exact decide_eq_decide.mpr (by omega)

/-- The break moves to any place in the reserved memory, unless the search of the lists
objects. -/
theorem doBrk_within (fits : Fits res p) (low : res.place ≤ addr)
    (high : addr ≤ res.place + res.maxBrkSize)
    (clear : addr < p.curBrk → findOverlap rounds .allocs ⟨addr, p.curBrk, 0, 0, 0⟩ st = .ok false) :
    ∃ p', doBrk res rounds st addr p = .ok p' ∧ Fits res p' ∧ p'.curBrk = addr := by
  have heap := fits.heap
  rw [doBrk, if_neg (by omega), if_neg (by omega)]
  by_cases same : addr = p.curBrk
  · exact ⟨p, if_pos same, fits, same.symm⟩
  · rw [if_neg same]
    by_cases up : addr > p.curBrk
    · obtain ⟨p', ran, fits'⟩ := openPages_fits fits up high (p.numBrkIncreaseCalls + 1)
      refine ⟨_, ?_, fits', rfl⟩
      rw [if_pos up, ran, ok_bind]
    · obtain ⟨p', ran, fits'⟩ := closePages_fits fits (by omega) low (p.numBrkDecreaseCalls + 1)
      refine ⟨_, ?_, fits', rfl⟩
      rw [if_neg up, clear (by omega)]
      simp only [searching, Except.mapError, ok_bind, Bool.false_eq_true, if_false, ran]

/-- A call that returned has moved the break. -/
theorem doBrk_returned (fits : Fits res p) (ran : doBrk res rounds st addr p = .ok p') :
    Fits res p' ∧ p'.curBrk = addr := by
  have heap := fits.heap
  by_cases low : res.place ≤ addr
  · by_cases high : addr ≤ res.place + res.maxBrkSize
    · have clear : addr < p.curBrk →
          findOverlap rounds .allocs ⟨addr, p.curBrk, 0, 0, 0⟩ st = .ok false := by
        intro down
        rw [doBrk, if_neg (by omega), if_neg (by omega), if_neg (by omega), if_neg (by omega)] at ran
        obtain ⟨alloc, searched, rest⟩ := bind_eq_ok.mp ran
        cases found : findOverlap rounds .allocs ⟨addr, p.curBrk, 0, 0, 0⟩ st with
        | error failure =>
          rw [found] at searched
          exact nomatch searched
        | ok overlap =>
          rw [found] at searched
          obtain rfl : overlap = alloc := Except.ok.inj searched
          cases overlap with
          | false => rfl
          | true => exact nomatch rest
      obtain ⟨p'', ran', fits', moved⟩ := doBrk_within fits low high clear
      cases ran'.symm.trans ran
      exact ⟨fits', moved⟩
    · rw [doBrk, if_neg (by omega), if_pos (by omega)] at ran
      exact nomatch ran
  · rw [doBrk, if_pos (by omega)] at ran
    exact nomatch ran

/-- In every session the break is where it may be, and the pages follow it. -/
theorem Session.fits (session : Session res p) : p = .initial ∨ Fits res p := by
  have ensured {p q : Process} (before : p = .initial ∨ Fits res p) (ran : ensureHeap res p = .ok q) :
      Fits res q := by
    obtain rfl | fits := before
    · obtain ⟨r, ran', fits, -⟩ := ensureHeap_initial res
      cases ran'.symm.trans ran
      exact fits
    · cases (ensureHeap_fits fits).symm.trans ran
      exact fits
  induction session with
  | start => exact Or.inl rfl
  | sbrk _ ran ih =>
    obtain ⟨q, first, ran⟩ := bind_eq_ok.mp ran
    obtain ⟨r, moved, last⟩ := bind_eq_ok.mp ran
    cases last
    exact Or.inr (doBrk_returned (ensured ih first) moved).1
  | brk _ ran ih =>
    obtain ⟨q, first, ran⟩ := bind_eq_ok.mp ran
    obtain ⟨r, moved, last⟩ := bind_eq_ok.mp ran
    cases last
    exact Or.inr (doBrk_returned (ensured ih first) moved).1

/-- The state in which a call moves the break. -/
theorem Session.ensured (session : Session res p) :
    ∃ q, ensureHeap res p = .ok q ∧ Fits res q ∧ q.curBrk = p.breakAt res := by
  obtain rfl | fits := session.fits
  · exact ensureHeap_initial res
  · refine ⟨p, ensureHeap_fits fits, fits, ?_⟩
    rw [Process.breakAt, if_neg (fits.heap ▸ res.place_ne_zero)]

/-- The break moves where the search of the lists does not object. -/
theorem session_moves (session : Session res p) {increment : Int}
    (moved : toSize (p.breakAt res + increment) = addr) (low : res.place ≤ addr)
    (high : addr ≤ res.place + res.maxBrkSize)
    (clear : addr < p.breakAt res →
      findOverlap rounds .allocs ⟨addr, p.breakAt res, 0, 0, 0⟩ st = .ok false) :
    ∃ p', sbrk res rounds st increment p = .ok (p.breakAt res, p') ∧ p'.breakAt res = addr := by
  obtain ⟨q, ensured, fits, current⟩ := session.ensured
  rw [← current] at moved clear
  obtain ⟨p', ran, fits', arrived⟩ := doBrk_within fits low high clear
  refine ⟨p', ?_, ?_⟩
  · rw [sbrk, ensured, ok_bind, moved, ran, ok_bind, current]
  · rw [Process.breakAt, if_neg (fits'.heap ▸ res.place_ne_zero), arrived]

/-- The pages that can be accessed hold the addresses that the system of the allocator
has under this break. -/
theorem Fits.mapped_iff (fits : Fits res p) (address : Nat) :
    p.accessible (address / 4096) = true ↔ res.system.mapped p.curBrk address = true := by
  have aligned := res.aligned
  have small := res.low
  have high := fits.high
  simp only [fits.pages, Reservation.system, decide_eq_true_eq]
  rw [alignUp_eq (x := p.curBrk) (by omega), alignUp_eq (x := res.place + res.maxBrkSize) (by omega)]
  omega

/-- In every session the memory is reserved once, the break stays in it, and the pages
that can be accessed are those that the break reaches. -/
theorem session_pages (session : Session res p) (reserved : p.heap ≠ 0) :
    p.heap = res.place ∧ res.place ≤ p.curBrk ∧ p.curBrk ≤ res.place + res.maxBrkSize ∧
      ∀ address, p.accessible (address / 4096) = true ↔ res.system.mapped p.curBrk address = true := by
  obtain rfl | fits := session.fits
  · exact absurd rfl reserved
  · exact ⟨fits.heap, fits.low, fits.high, fits.mapped_iff⟩

theorem small_aligned : 65536 % 4096 = 0 := by decide

theorem small_above : 4096 ≤ 65536 := by decide

theorem small_low : 65536 + 134217728 + 4096 < 2 ^ 63 := by decide

/-- The default size, 128 MiB. -/
def smallReservation : Reservation := ⟨65536, 134217728, small_aligned, small_above, small_low⟩

/-- The first call may move the break anywhere above. -/
theorem session_grown (res : Reservation) (addr : Nat) (low : res.place ≤ addr) (high : addr ≤ res.place + res.maxBrkSize) :
    ∃ p, Session res p ∧ p.heap ≠ 0 ∧ p.curBrk = addr := by
  obtain ⟨p, ensured, fits, current⟩ := ensureHeap_initial res
  have clear : addr < p.curBrk → findOverlap 0 .allocs ⟨addr, p.curBrk, 0, 0, 0⟩ .initial = .ok false :=
    fun down => absurd down (by omega)
  obtain ⟨p', ran, fits', moved⟩ := doBrk_within fits low high clear
  have called : brk res 0 .initial addr .initial = .ok (0, p') := by
    rw [brk, ensured, ok_bind, ran]
    rfl
  exact ⟨p', Session.start.brk called, fits'.heap ▸ res.place_ne_zero, moved⟩

/-- The page with the break is open, the next one is not. -/
theorem session_pages_grown : ∃ p : Process, p.curBrk = 70000 ∧ p.accessible 17 = true ∧
    p.accessible 18 = false := by
  obtain ⟨p, session, reserved, moved⟩ := session_grown smallReservation 70000 (by decide)
    (by decide)
  obtain ⟨-, -, -, pages⟩ := session_pages session reserved
  have upper : ¬ p.accessible (73728 / 4096) = true := by
    rw [pages, moved]
    decide
  exact ⟨p, moved, (pages 73727).mpr (by rw [moved]; decide), Bool.eq_false_iff.mpr upper⟩

/-- The memory from `addr` to the break reaches into the lowest area. -/
def CutsLowest (areas : List Extent) (addr top : Nat) : Prop :=
  ∃ e ∈ areas.head?, addr < e.stop ∧ e.lo < top

/-- The search for live areas in the memory that is given back. -/
theorem freed_search (reached : Reached st) (addr top : Nat) : ∃ areas, st.Holds .allocs areas ∧
    ∀ rounds, areas.length < rounds → ∃ found,
      findOverlap rounds .allocs ⟨addr, top, 0, 0, 0⟩ st = .ok found ∧
        (found = true ↔ CutsLowest areas addr top) := by
  obtain ⟨lists, valid⟩ := reached.valid
  have ordered := valid.ordered .allocs trivial
  refine ⟨_, valid.holds .allocs, fun rounds enough => ?_⟩
  refine ⟨_, (findOverlap_settles valid.toShape ordered rounds).reached (by omega), ?_⟩
  cases nodes : lists .allocs with
  | nil => simp [CutsLowest]
  | cons q rest =>
    have stop := ordered.area_stop (p := q) (nodes ▸ List.mem_cons_self)
    simp only [regionsOverlap_iff, CutsLowest, List.map_cons, List.head?_cons, Option.any_some,
      Option.mem_some_iff, exists_eq_left', stop]
    rfl

/-- A break outside the reserved memory ends the program. -/
theorem doBrk_outside (fits : Fits res p)
    (outside : addr < res.place ∨ res.place + res.maxBrkSize < addr) :
    doBrk res rounds st addr p = .error (if addr < res.place then .beforeHeap addr res.place
      else .beyondHeap addr res.maxBrkSize (res.place + res.maxBrkSize)) := by
  rw [doBrk, fits.heap]
  by_cases below : addr < res.place
  · rw [if_pos (by omega), if_pos below]
  · rw [if_neg (by omega), if_pos (by omega), if_neg below]

/-- So does one that the search objects to. -/
theorem doBrk_cut (fits : Fits res p) (low : res.place ≤ addr) (down : addr < p.curBrk)
    (found : findOverlap rounds .allocs ⟨addr, p.curBrk, 0, 0, 0⟩ st = .ok true) :
    doBrk res rounds st addr p = .error (.stillContains p.curBrk addr addr p.curBrk) := by
  have heap := fits.heap
  have high := fits.high
  rw [doBrk, if_neg (by omega), if_neg (by omega), if_neg (by omega), if_neg (by omega), found]
  rfl

/-- `sbrk` is the one that the allocator is modelled with, except in two ways. Where
that one refuses, the program ends. It also ends when the lower break would cut into
the lowest live area; areas above that one are not looked at. -/
theorem session_sbrk (session : Session res p) (reached : Reached st) {h : Alloc.Heap}
    (same : h.brk = p.breakAt res) {increment : Int} (low : -(2 ^ 63) ≤ increment)
    (high : increment < 2 ^ 63) (moved : toSize (h.brk + increment) = addr) :
    ∃ areas, st.Holds .allocs areas ∧ ∀ rounds, areas.length < rounds →
      (addr < res.place ∨ res.place + res.maxBrkSize < addr →
        (Alloc.sbrk res.system h increment).1 = 2 ^ 64 - 1 ∧
        sbrk res rounds st increment p = .error (if addr < res.place then .beforeHeap addr res.place
          else .beyondHeap addr res.maxBrkSize (res.place + res.maxBrkSize))) ∧
      (res.place ≤ addr → addr < h.brk → CutsLowest areas addr h.brk →
        sbrk res rounds st increment p = .error (.stillContains h.brk addr addr h.brk)) ∧
      (res.place ≤ addr → addr ≤ res.place + res.maxBrkSize →
        ¬ (addr < h.brk ∧ CutsLowest areas addr h.brk) → ∃ p',
          sbrk res rounds st increment p = .ok ((Alloc.sbrk res.system h increment).1, p') ∧
          (Alloc.sbrk res.system h increment).2.brk = p'.breakAt res ∧ addr = p'.breakAt res) := by
  obtain ⟨q, ensured, fits, current⟩ := session.ensured
  obtain ⟨areas, holds, search⟩ := freed_search reached addr q.curBrk
  have small := res.low
  have bounds := And.intro fits.low fits.high
  rw [← same] at current
  have exact : h.brk + increment = addr ∨ h.brk + increment < 0 ∧ 2 ^ 63 ≤ addr := by
    rw [← moved, toSize]
    omega
  have unfolded : ∀ rounds, sbrk res rounds st increment p =
      (doBrk res rounds st addr q >>= fun p' => .ok (q.curBrk, p')) := by
    intro rounds
    rw [sbrk, ensured, ok_bind, current, moved]
  refine ⟨areas, holds, fun rounds enough => ?_⟩
  obtain ⟨found, ran, cuts⟩ := search rounds enough
  refine ⟨fun outside => ⟨?_, ?_⟩, fun above down cut => ?_, fun above below spared => ?_⟩
  · rw [Alloc.sbrk, if_neg]
    rintro ⟨-, inside, inside'⟩
    simp only [Reservation.system] at inside inside'
    omega
  · rw [unfolded, doBrk_outside fits outside]
    rfl
  · rw [current] at ran cuts
    rw [cuts.mpr cut] at ran
    rw [unfolded, doBrk_cut fits above (current ▸ down) (current ▸ ran), current]
    rfl
  · have clear : addr < p.breakAt res →
        findOverlap rounds .allocs ⟨addr, p.breakAt res, 0, 0, 0⟩ st = .ok false := by
      intro down
      rw [← same] at down ⊢
      have missed : found ≠ true := fun seen => spared ⟨down, current ▸ cuts.mp seen⟩
      rw [← current, ran, Bool.eq_false_iff.mpr missed]
    obtain ⟨p', ran', arrived⟩ := session_moves session (same ▸ moved) above below clear
    have served : Alloc.sbrk res.system h increment =
        (h.brk, { h with brk := (h.brk + increment).toNat, sbrkCalls := h.sbrkCalls + 1 }) := by
      rw [Alloc.sbrk, if_pos]
      simp only [Reservation.system]
      exact ⟨trivial, by omega, by omega⟩
    refine ⟨p', ?_, ?_, arrived.symm⟩
    · rw [ran', served, same]
    · rw [served, arrived]
      simp only
      omega

/-- The break is lowered under an area that is in use. -/
theorem session_sbrk_missed : ∃ p st p', st.Holds .allocs [⟨65544, 8⟩, ⟨69640, 8⟩] ∧ p.curBrk = 70000 ∧
    sbrk smallReservation 3 st (-4400) p = .ok (70000, p') ∧ p'.breakAt smallReservation = 65600 := by
  have sorted : ListName.allocs.Sorted := trivial
  obtain ⟨st, reached, holds⟩ := Reached.start.above sorted (valid_initial.holds _) 65544 8 (by decide)
    (by decide) (by simp)
  obtain ⟨st, reached, holds⟩ := reached.above sorted holds 69640 8 (by decide) (by decide)
    (by simp [Extent.stop])
  obtain ⟨p, session, reserved, moved⟩ := session_grown smallReservation 70000 (by decide)
    (by decide)
  have current : p.breakAt smallReservation = 70000 := by rw [Process.breakAt, if_neg reserved, moved]
  have same : Alloc.Heap.brk ⟨fun _ => 0, 0, 0, 0, 70000, 0, 0⟩ = p.breakAt smallReservation :=
    current.symm
  have low : -(2 ^ 63) ≤ (-4400 : Int) := by omega
  have moves : toSize ((70000 : Nat) + (-4400)) = 65600 := by
    unfold toSize
    omega
  obtain ⟨areas, holds', outcome⟩ := session_sbrk session reached same low (by omega) moves
  obtain rfl := reached.holds_unique holds' holds
  have spared : ¬ (65600 < 70000 ∧ CutsLowest [⟨65544, 8⟩, ⟨69640, 8⟩] 65600 70000) := by
    rintro ⟨-, e, head, above, -⟩
    cases head
    exact absurd above (by decide)
  obtain ⟨p', ran, -, arrived⟩ := (outcome 3 (by decide)).2.2 (by decide) (by decide) spared
  exact ⟨p, st, p', holds, moved, ran, arrived.symm⟩

end

end Comp304.Framework
