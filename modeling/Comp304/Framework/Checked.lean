import Comp304.Framework.Records
import Comp304.Library.Lp64

/-! The checked allocator of `checked_alloc.c`: each call of the allocator under test,
with the checks of what it returns and of what has become of the memory handed out
before. The allocator and its memory are parameters, since the checks are the same for
the functions of `alloc.c` and for those of the system. -/
namespace Comp304.Framework
open Library.Budget Library.Lp64 Library.Extents

/-- An allocator with its memory: what each call does, the bytes as the program reads
and writes them, and where the heap begins and ends. -/
structure Allocator (σ ε : Type) where
  malloc : Nat → σ → Except ε (Nat × σ)
  calloc : Nat → Nat → σ → Except ε (Nat × σ)
  realloc : Nat → Nat → σ → Except ε (Nat × σ)
  free : Nat → σ → Except ε σ
  read : Nat → σ → Except ε UInt8
  memset : Nat → UInt8 → Nat → σ → Except ε σ
  heap : σ → Nat
  curBrk : σ → Nat
  /-- A write is seen by the reads of its bytes, and by no others. -/
  read_memset : ∀ {ptr byte n s s'}, memset ptr byte n s = .ok s' → ∀ address,
    read address s' = if ptr ≤ address ∧ address < ptr + n then .ok byte else read address s
  bounds_memset : ∀ {ptr byte n s s'}, memset ptr byte n s = .ok s' →
    heap s' = heap s ∧ curBrk s' = curBrk s

/-- Why a call ends the program: a fault, a failure in the lists, or one of the
messages, with the values that it shows. -/
inductive Alarm (ε : Type) where
  | fault (stop : ε)
  | lists (failure : Failure)
  | zeroSizedIsLive (buf start stop : Nat)
  | changed (start stop data ptr found : Nat)
  | failed (allocSize : Nat)
  | notCleared (ptr : Nat)
  | notAligned (ptr : Nat)
  | beforeHeap (buf heap curBrk : Nat)
  | beyondHeap (buf stop heap curBrk : Nat)
  | onZeroSized (buf stop start refcount : Nat)
  | freeUnknown (ptr : Nat)
  | freeInMiddle (ptr start stop : Nat)
  | reallocUnknown (ptr : Nat)
  | reallocInMiddle (ptr start stop : Nat)
  | notRetained (found data byte : Nat)
  deriving DecidableEq, Repr

/-- The lists, the counter of `get_data`, and the allocator. -/
structure World (σ : Type) where
  store : Store
  dataCnt : Nat
  memory : σ

/-- Which function of the allocator a buffer comes from. `ALLOC_DEFAULT` is `malloc`,
or `calloc` when `use_calloc` is set. -/
inductive Source where
  | malloc
  | calloc
  | realloc
  deriving DecidableEq, Repr

section
variable {σ ε : Type}

def inLists (run : Except Failure α) : Except (Alarm ε) α := run.mapError .lists

def inMemory (run : Except ε α) : Except (Alarm ε) α := run.mapError .fault

/-- `get_data` -/
def getData (dataCnt : Nat) : Nat :=
  let dataCnt := (dataCnt + 1) % 256
  if dataCnt = 0 ∨ dataCnt = 0xff then 1 else dataCnt

/-- `region_check_data` -/
def regionCheckData (al : Allocator σ ε) (region : Region) (s : σ) : Except (Alarm ε) Unit :=
  (List.range' region.start (region.stop - region.start)).forM fun ptr => do
    let byte ← inMemory (al.read ptr s)
    if byte.toNat = region.data then .ok ()
    else .error (.changed region.start region.stop region.data ptr byte.toNat)

/-- The loop of `memlist_check_data`. -/
def checkDataLoop (al : Allocator σ ε) (w : World σ) : Nat → Nat → Except (Alarm ε) Unit
  | 0, _ => .error (.lists .spent)
  | rounds + 1, region =>
    if region = 0 then .ok ()
    else do
      let r ← inLists (w.store.get region)
      regionCheckData al r w.memory
      checkDataLoop al w rounds r.next

/-- `memlist_check_data(&allocs)` -/
def memlistCheckData (al : Allocator σ ε) (rounds : Nat) (w : World σ) : Except (Alarm ε) Unit :=
  checkDataLoop al w rounds (w.store.head .allocs)

/-- Write the `data` of an object. -/
def setData (alloc data : Nat) (w : World σ) : Except (Alarm ε) (World σ) := do
  let store ← inLists (w.store.set alloc fun r => { r with data := data })
  return { w with store := store }

/-- A zero-sized allocation is counted at its address. -/
def countZeroSized (rounds ptr : Nat) (w : World σ) : Except (Alarm ε) (World σ) := do
  let ptr := if ptr = 2 ^ 64 - 1 then ptr - 1 else ptr
  let alloc ← inLists (find rounds .zeroSizedAllocs ptr w.store)
  if alloc ≠ 0 then
    let r ← inLists (w.store.get alloc)
    setData alloc (add r.data 1) w
  else
    let (alloc, store) ← inLists (addRegion rounds .zeroSizedAllocs ptr 1 w.store)
    setData alloc 1 { w with store := store }

/-- The checks of `_checked_alloc` after a request for nothing. -/
def checkZeroSized (al : Allocator σ ε) (rounds ptr : Nat) (w : World σ) :
    Except (Alarm ε) (World σ) := do
  let alloc ← inLists (find rounds .allocs ptr w.store)
  if alloc ≠ 0 then
    let r ← inLists (w.store.get alloc)
    .error (.zeroSizedIsLive ptr r.start r.stop)
  else
    memlistCheckData al rounds w
    if ptr ≠ 0 then countZeroSized rounds ptr w else return w

/-- `assert(buf[i] == 0, ...)` for all bytes, if the buffer comes from `calloc`. -/
def checkCleared (al : Allocator σ ε) (cleared : Bool) (ptr allocSize : Nat) (s : σ) :
    Except (Alarm ε) Unit :=
  if cleared then
    (List.range allocSize).forM fun i => do
      let byte ← inMemory (al.read (add ptr i) s)
      if byte = 0 then .ok () else .error (.notCleared (add ptr i))
  else .ok ()

/-- Where the buffer must lie. -/
def checkPlace (al : Allocator σ ε) (ptr allocSize : Nat) (s : σ) : Except (Alarm ε) Unit :=
  if ¬ ptr % 8 = 0 then .error (.notAligned ptr)
  else if ¬ ptr ≥ al.heap s then .error (.beforeHeap ptr (al.heap s) (al.curBrk s))
  else if ¬ add ptr allocSize ≤ al.curBrk s then
    .error (.beyondHeap ptr (add ptr allocSize) (al.heap s) (al.curBrk s))
  else .ok ()

/-- `alloc->data = get_data(); memset(buf, alloc->data, size);` -/
def fillNew (al : Allocator σ ε) (alloc ptr size : Nat) (w : World σ) : Except (Alarm ε) (World σ) := do
  let data := getData w.dataCnt
  let w ← setData alloc data { w with dataCnt := data }
  let memory ← inMemory (al.memset ptr (UInt8.ofNat data) size w.memory)
  return { w with memory := memory }

/-- The new buffer joins the list. The message about a zero-sized allocation shows the
buffer itself in its place: it is what `memlist_find_overlap` returns. -/
def checkBuffer (al : Allocator σ ε) (rounds : Nat) (cleared : Bool) (ptr allocSize : Nat)
    (w : World σ) : Except (Alarm ε) (World σ) := do
  if ptr = 0 then .error (.failed allocSize)
  else
    checkCleared al cleared ptr allocSize w.memory
    checkPlace al ptr allocSize w.memory
    let (alloc, store) ← inLists (addRegion rounds .allocs ptr allocSize w.store)
    let region ← inLists (store.get alloc)
    let overlap ← inLists (findOverlap rounds .zeroSizedAllocs region store)
    if overlap then .error (.onZeroSized ptr (add ptr allocSize) region.start region.data)
    else fillNew al alloc ptr allocSize { w with store := store }

/-- The call of the allocator in `_checked_alloc`. -/
def allocate (al : Allocator σ ε) (source : Source) (nmemb size : Nat) (s : σ) :
    Except (Alarm ε) (Nat × σ) :=
  match source with
  | .malloc => inMemory (al.malloc (mul nmemb size) s)
  | .calloc => inMemory (al.calloc nmemb size s)
  | .realloc => inMemory (al.realloc 0 (mul nmemb size) s)

/-- `_checked_alloc`. With `checked_alloc_disable_integrity_check` set, `unchecked` here,
the buffers are not read again at the end. -/
def checkedAllocFrom (al : Allocator σ ε) (rounds : Nat) (unchecked : Bool) (source : Source)
    (nmemb size : Nat) (w : World σ) : Except (Alarm ε) (Nat × World σ) := do
  let (ptr, memory) ← allocate al source nmemb size w.memory
  let w := { w with memory := memory }
  if nmemb = 0 ∨ size = 0 then
    let w ← checkZeroSized al rounds ptr w
    return (ptr, w)
  else
    let w ← checkBuffer al rounds (source == .calloc) ptr (mul nmemb size) w
    if unchecked then return (ptr, w)
    else
      memlistCheckData al rounds w
      return (ptr, w)

/-- `checked_alloc_array` -/
def checkedAllocArray (al : Allocator σ ε) (rounds : Nat) (unchecked useCalloc : Bool)
    (nmemb size : Nat) (w : World σ) : Except (Alarm ε) (Nat × World σ) :=
  checkedAllocFrom al rounds unchecked (if useCalloc then .calloc else .malloc) nmemb size w

/-- `checked_alloc`, which asks for two elements when it can. -/
def checkedAlloc (al : Allocator σ ε) (rounds : Nat) (unchecked useCalloc : Bool) (size : Nat)
    (w : World σ) : Except (Alarm ε) (Nat × World σ) :=
  let source := if useCalloc then Source.calloc else .malloc
  if size ≠ 0 ∧ size % 2 = 0 then checkedAllocFrom al rounds unchecked source 2 (size / 2) w
  else checkedAllocFrom al rounds unchecked source 1 size w

/-- A zero-sized allocation is freed: its object goes with the last reference. -/
def dropZeroSized (alloc : Nat) (w : World σ) : Except (Alarm ε) (World σ) := do
  let r ← inLists (w.store.get alloc)
  let w ← setData alloc (sub r.data 1) w
  if sub r.data 1 = 0 then
    let store ← inLists (remove .zeroSizedAllocs alloc w.store)
    let store ← inLists (freeRegionObject alloc store)
    return { w with store := store }
  else return w

/-- A buffer that is about to be freed is checked, filled with 0xff, and moved to the
list of the freed ones. -/
def retire (al : Allocator σ ε) (rounds ptr : Nat) (w : World σ) : Except (Alarm ε) (World σ) := do
  let alloc ← inLists (find rounds .allocs ptr w.store)
  if alloc = 0 then .error (.freeUnknown ptr)
  else
    let r ← inLists (w.store.get alloc)
    if ptr ≠ r.start then .error (.freeInMiddle ptr r.start r.stop)
    else
      regionCheckData al r w.memory
      let store ← inLists (remove .allocs alloc w.store)
      let memory ← inMemory (al.memset ptr 0xff (r.stop - r.start) w.memory)
      let store ← inLists (insertFront .freedAllocs alloc store)
      return { w with store := store, memory := memory }

/-- The record of an allocation that is freed: `alloc` is what the search among the
zero-sized ones returned. -/
def takeOff (al : Allocator σ ε) (rounds ptr alloc : Nat) (w : World σ) :
    Except (Alarm ε) (World σ) :=
  if alloc ≠ 0 then dropZeroSized alloc w else retire al rounds ptr w

/-- `_checked_free` with the `free` of the allocator. -/
def checkedFree (al : Allocator σ ε) (rounds ptr : Nat) (w : World σ) : Except (Alarm ε) (World σ) := do
  if ptr = 0 then
    let memory ← inMemory (al.free ptr w.memory)
    return { w with memory := memory }
  else
    let ptr := if ptr = 2 ^ 64 - 1 then ptr - 1 else ptr
    let alloc ← inLists (find rounds .zeroSizedAllocs ptr w.store)
    let w ← takeOff al rounds ptr alloc w
    let memory ← inMemory (al.free ptr w.memory)
    let w := { w with memory := memory }
    memlistCheckData al rounds w
    return w

/-- A `char` as an `unsigned long`: the sign is extended. -/
def charToUnsignedLong (byte : UInt8) : Nat :=
  if byte.toNat < 128 then byte.toNat else 2 ^ 64 - 256 + byte.toNat

/-- The check in `checked_realloc` that the contents have been kept. The message shows
the byte as an `unsigned int`. -/
def checkRetained (al : Allocator σ ε) (newptr checkSize data : Nat) (s : σ) : Except (Alarm ε) Unit :=
  (List.range checkSize).forM fun i => do
    let byte ← inMemory (al.read (add newptr i) s)
    if charToUnsignedLong byte = data then .ok ()
    else .error (.notRetained (charToUnsignedLong byte % 2 ^ 32) data i)

/-- `checked_realloc` for a buffer and a size that is not 0. The old object is taken off
the list and forgotten. -/
def checkedResize (al : Allocator σ ε) (rounds ptr size : Nat) (w : World σ) :
    Except (Alarm ε) (Nat × World σ) := do
  let alloc ← inLists (find rounds .allocs ptr w.store)
  if alloc = 0 then .error (.reallocUnknown ptr)
  else
    let r ← inLists (w.store.get alloc)
    if ptr ≠ r.start then .error (.reallocInMiddle ptr r.start r.stop)
    else
      regionCheckData al r w.memory
      let (newptr, memory) ← inMemory (al.realloc ptr size w.memory)
      checkRetained al newptr (min (r.stop - r.start) size) r.data memory
      let store ← inLists (remove .allocs alloc w.store)
      let (alloc, store) ← inLists (addRegion rounds .allocs newptr size store)
      let w ← fillNew al alloc newptr size { w with store := store, memory := memory }
      memlistCheckData al rounds w
      return (newptr, w)

/-- `checked_realloc` -/
def checkedRealloc (al : Allocator σ ε) (rounds : Nat) (unchecked : Bool) (ptr size : Nat)
    (w : World σ) : Except (Alarm ε) (Nat × World σ) := do
  if ptr = 0 then checkedAllocFrom al rounds unchecked .realloc 1 size w
  else if size = 0 then
    let w ← checkedFree al rounds ptr w
    return (0, w)
  else checkedResize al rounds ptr size w

/-- One call of the checked interface. -/
inductive CheckedCall where
  | alloc (size : Nat)
  | allocArray (nmemb size : Nat)
  | free (ptr : Nat)
  | realloc (ptr size : Nat)
  deriving DecidableEq, Repr

namespace CheckedCall

/-- The arguments are values of `size_t`. -/
def Typed : CheckedCall → Prop
  | alloc size => size < 2 ^ 64
  | allocArray nmemb size => nmemb < 2 ^ 64 ∧ size < 2 ^ 64
  | free _ => True
  | realloc _ size => size < 2 ^ 64

/-- What the code does on the call; `checked_free` returns nothing, here NULL. -/
def exec (al : Allocator σ ε) (rounds : Nat) (unchecked useCalloc : Bool) (w : World σ) :
    CheckedCall → Except (Alarm ε) (Nat × World σ)
  | alloc size => checkedAlloc al rounds unchecked useCalloc size w
  | allocArray nmemb size => checkedAllocArray al rounds unchecked useCalloc nmemb size w
  | free ptr => do
    let w ← checkedFree al rounds ptr w
    return (0, w)
  | realloc ptr size => checkedRealloc al rounds unchecked ptr size w

end CheckedCall

/-- The states that calls lead to. Between calls anything may happen to the memory. -/
inductive CheckedRun (al : Allocator σ ε) : World σ → Prop where
  | start (memory : σ) : CheckedRun al ⟨.initial, 0, memory⟩
  | between (memory : σ) : CheckedRun al w → CheckedRun al { w with memory := memory }
  | call {call : CheckedCall} : CheckedRun al w → call.Typed →
      call.exec al rounds unchecked useCalloc w = .ok (result, w') → CheckedRun al w'

end

/-! ### The bytes of the buffers -/

section
variable {σ ε : Type} {al : Allocator σ ε} {w w' : World σ} {st st' : Store}
  {lists lists' : ListName → List Nat} {p ptr size : Nat} {s s' : σ}

/-- Every byte of the area reads as the `data` of the record. -/
def Allocator.Reads (al : Allocator σ ε) (s : σ) (r : Extent × Nat) : Prop :=
  ∀ address, r.1.Holds address → ∃ byte, al.read address s = .ok byte ∧ byte.toNat = r.2

/-- No buffer has been written to since it was filled. -/
def Intact (al : Allocator σ ε) (w : World σ) : Prop :=
  ∀ r ∈ w.store.records .allocs, al.Reads w.memory r

theorem inLists_eq_ok {run : Except Failure α} :
    (inLists run : Except (Alarm ε) α) = .ok value ↔ run = .ok value := mapError_eq_ok

theorem inMemory_eq_ok {run : Except ε α} : inMemory run = .ok value ↔ run = .ok value :=
  mapError_eq_ok

/-- One byte passes its test. -/
theorem read_then_eq_ok {address : Nat} {test : UInt8 → Prop} [DecidablePred test]
    {alarm : UInt8 → Alarm ε} :
    (inMemory (al.read address s) >>= fun byte => if test byte then .ok () else .error (alarm byte)) =
      .ok () ↔ ∃ byte, al.read address s = .ok byte ∧ test byte := by
  rw [bind_eq_ok]
  refine exists_congr fun byte => ?_
  rw [inMemory_eq_ok]
  refine and_congr_right fun _ => ?_
  by_cases passes : test byte <;> simp [passes]

theorem regionCheckData_eq_ok :
    regionCheckData al (st.regions p) s = .ok () ↔ al.Reads s (st.record p) := by
  rw [regionCheckData, forM_eq_ok]
  simp only [read_then_eq_ok, List.mem_range'_1]
  exact Iff.rfl

/-- `memlist_check_data` checks every region on the list. -/
theorem checkDataLoop_settles (al : Allocator σ ε) {nodes : List Nat}
    (chain : Library.LinkedChain.Chain 0 w.store.next p nodes)
    (mapped : ∀ q ∈ nodes, w.store.Mapped q) (rounds : Nat) :
    Settles (.lists .spent) nodes.length rounds (checkDataLoop al w rounds p)
      (nodes.forM fun q => regionCheckData al (w.store.regions q) w.memory) := by
  induction nodes generalizing p rounds with
  | nil =>
    cases rounds with
    | zero => exact .out_of_rounds _
    | succ rounds => exact .of_eq (if_pos (Library.LinkedChain.chain_nil.mp chain))
  | cons q nodes ih =>
    cases rounds with
    | zero => exact .out_of_rounds _
    | succ rounds =>
      obtain rfl : p = q := chain.head_eq
      rw [checkDataLoop, if_neg (chain.ne_null List.mem_cons_self),
        get_ok (mapped p List.mem_cons_self)]
      have rest := (ih chain.rest (fun r inside => mapped r (List.mem_cons_of_mem p inside)) rounds).succ
      rw [forM_step]
      cases first : regionCheckData al (w.store.regions p) w.memory with
      | error stop =>
        refine .of_eq ?_
        simp only [inLists, Except.mapError, ok_bind, first]
        rfl
      | ok done =>
        simp only [inLists, Except.mapError, ok_bind, first]
        exact rest

theorem records_forM (valid : Valid w.store lists) :
    ((lists .allocs).forM fun q => regionCheckData al (w.store.regions q) w.memory) = .ok () ↔
      Intact al w := by
  rw [forM_eq_ok]
  simp only [regionCheckData_eq_ok, Intact, valid.mem_records]
  constructor
  · rintro each _ ⟨q, inside, rfl⟩
    exact each q inside
  · exact fun intact q inside => intact _ ⟨q, inside, rfl⟩

theorem memlistCheckData_returned (valid : Valid w.store lists) {rounds : Nat}
    (ran : memlistCheckData al rounds w = .ok ()) : Intact al w := by
  have settles := checkDataLoop_settles al (valid.doubly .allocs).forward
    (fun _ inside => valid.mapped inside) rounds
  exact (records_forM valid).mp (settles.returned ran)

theorem memlistCheckData_passes (valid : Valid w.store lists) {rounds : Nat}
    (enough : (lists .allocs).length < rounds) (intact : Intact al w) :
    memlistCheckData al rounds w = .ok () := by
  have settles := checkDataLoop_settles al (valid.doubly .allocs).forward
    (fun _ inside => valid.mapped inside) rounds
  exact (settles.reached enough).trans ((records_forM valid).mpr intact)

/-! ### What a call that returns has done to the lists -/

/-- The buffer has been recorded under the next value of the counter, and filled with it. -/
structure Gained (al : Allocator σ ε) (ptr size : Nat) (lists : ListName → List Nat) (w w' : World σ) :
    Prop where
  valid : ∃ lists', Valid w'.store lists' ∧ (lists' .allocs).length = (lists .allocs).length + 1
  dataCnt : w'.dataCnt = getData w.dataCnt
  allocs : w'.store.records .allocs =
    insert (⟨ptr, size⟩, getData w.dataCnt) (w.store.records .allocs)
  zeroSized : w'.store.records .zeroSizedAllocs = w.store.records .zeroSizedAllocs
  filled : al.memset ptr (UInt8.ofNat (getData w.dataCnt)) size w.memory = .ok w'.memory

/-- Only the lists have changed, and not what they record about buffers. -/
structure Counted (w w' : World σ) : Prop where
  valid : ∃ lists, Valid w'.store lists
  allocs : w'.store.records .allocs = w.store.records .allocs
  memory : w'.memory = w.memory

theorem setData_spec {list : ListName} (valid : Valid w.store lists) (sorted : list.Sorted)
    (inside : p ∈ lists list) (data : Nat) :
    ∃ st', (setData p data w : Except (Alarm ε) (World σ)) = .ok { w with store := st' } ∧
      Valid st' lists ∧ st'.records list =
        insert (w.store.area p, data) (w.store.records list \ {w.store.record p}) ∧
      ∀ other ≠ list, st'.records other = w.store.records other := by
  obtain ⟨st', ran, valid', areas, marks⟩ := valid.marked (valid.mapped inside) data
  obtain ⟨records, others⟩ := valid.marked_records valid' sorted inside areas marks
  refine ⟨st', ?_, valid', records, others⟩
  rw [setData, ran]
  rfl

theorem getData_bounds (dataCnt : Nat) : 1 ≤ getData dataCnt ∧ getData dataCnt ≤ 254 := by
  simp only [getData]
  split <;> omega

/-- A recorded buffer is filled, if it can be written to. -/
theorem fillNew_spec (al : Allocator σ ε) (recorded : Recorded .allocs ptr size st lists p w.store lists') :
    ∃ st', Valid st' lists' ∧ st'.records .allocs =
        insert (⟨ptr, size⟩, getData w.dataCnt) (st.records .allocs) ∧
      st'.records .zeroSizedAllocs = st.records .zeroSizedAllocs ∧
      fillNew al p ptr size w =
        (inMemory (al.memset ptr (UInt8.ofNat (getData w.dataCnt)) size w.memory) >>= fun memory =>
          .ok ⟨st', getData w.dataCnt, memory⟩) := by
  let counted : World σ := { w with dataCnt := getData w.dataCnt }
  have valid : Valid counted.store lists' := recorded.valid
  obtain ⟨st', ran, valid', records, others⟩ := setData_spec (ε := ε) valid allocs_sorted recorded.inside
    (getData w.dataCnt)
  refine ⟨st', valid', ?_, ?_, ?_⟩
  · rw [records, recorded.records, recorded.area, Set.insert_sdiff_of_mem _ (Set.mem_singleton _),
      Set.sdiff_singleton_eq_self recorded.fresh]
  · rw [others _ (by decide), recorded.others _ (by decide) (by decide)]
  · rw [fillNew, ran]
    rfl

/-- The conditions under which a buffer is accepted, apart from what the check of all
buffers finds. -/
structure Accepted (al : Allocator σ ε) (cleared : Bool) (ptr size : Nat) (w : World σ) : Prop where
  nonnull : ptr ≠ 0
  cleared : cleared = true → ∀ i < size, al.read (add ptr i) w.memory = .ok 0
  aligned : ptr % 8 = 0
  above : al.heap w.memory ≤ ptr
  below : ptr + size ≤ al.curBrk w.memory
  fresh : Fresh .allocs ptr size w.store
  zeroSized : ∀ r ∈ w.store.records .zeroSizedAllocs,
    (∀ s ∈ w.store.records .zeroSizedAllocs, r.1.lo ≤ s.1.lo) → r.1.Apart ⟨ptr, size⟩
  writable : ∃ s, al.memset ptr (UInt8.ofNat (getData w.dataCnt)) size w.memory = .ok s

theorem checkCleared_eq_ok {cleared : Bool} : checkCleared al cleared ptr size s = .ok () ↔
    (cleared = true → ∀ i < size, al.read (add ptr i) s = .ok 0) := by
  cases cleared with
  | false => exact ⟨fun _ none => (nomatch none), fun _ => rfl⟩
  | true =>
    simp only [checkCleared, if_true, forM_eq_ok, read_then_eq_ok, List.mem_range, forall_true_left]
    refine forall_congr' fun i => imp_congr_right fun _ => ?_
    exact ⟨fun ⟨byte, read, zero⟩ => zero ▸ read, fun read => ⟨0, read, rfl⟩⟩

theorem checkPlace_eq_ok : checkPlace al ptr size s = .ok () ↔
    ptr % 8 = 0 ∧ al.heap s ≤ ptr ∧ add ptr size ≤ al.curBrk s := by
  unfold checkPlace
  split_ifs <;> simp_all

/-- The region of a recorded object. -/
theorem Recorded.region {list : ListName} (recorded : Recorded list ptr size st lists p st' lists')
    (positive : 0 < size) : st'.get p = .ok (st'.regions p) ∧ (st'.regions p).start < (st'.regions p).stop ∧
      (st'.regions p).extent = ⟨ptr, size⟩ := by
  have area : (st'.regions p).extent = ⟨ptr, size⟩ := recorded.area
  refine ⟨get_ok (recorded.valid.mapped recorded.inside), ?_, area⟩
  have len := congrArg Extent.len area
  simp only [Region.extent] at len
  omega

/-- A buffer that passes has been accepted and recorded. -/
theorem checkBuffer_returned {cleared : Bool} {rounds : Nat} (valid : Valid w.store lists)
    (short : size < 2 ^ 64) (ran : checkBuffer al rounds cleared ptr size w = .ok w') :
    Accepted al cleared ptr size w ∧ Gained al ptr size lists w w' := by
  by_cases null : ptr = 0
  · rw [checkBuffer, if_pos null] at ran
    exact nomatch ran
  rw [checkBuffer, if_neg null] at ran
  obtain ⟨⟨⟩, clear, ran⟩ := bind_eq_ok.mp ran
  obtain ⟨⟨⟩, place, ran⟩ := bind_eq_ok.mp ran
  obtain ⟨⟨new, st⟩, added, ran⟩ := bind_eq_ok.mp ran
  obtain ⟨fresh, lists', recorded⟩ := addRegion_recorded valid allocs_sorted short
    (inLists_eq_ok.mp added)
  obtain ⟨got, positive, area⟩ := recorded.region fresh.positive
  obtain ⟨region, read, ran⟩ := bind_eq_ok.mp ran
  obtain rfl : st.regions new = region := Except.ok.inj (got.symm.trans (inLists_eq_ok.mp read))
  obtain ⟨overlap, searched, ran⟩ := bind_eq_ok.mp ran
  obtain ⟨found, settles, apart⟩ := findOverlap_records recorded.valid zeroSizedAllocs_sorted positive
  obtain rfl : found = overlap :=
    Except.ok.inj ((settles rounds).returned (inLists_eq_ok.mp searched))
  cases found with
  | true => exact nomatch ran
  | false =>
    obtain ⟨st', valid', records, zeroes, filled⟩ := fillNew_spec al (w := { w with store := st }) recorded
    rw [if_neg Bool.false_ne_true, filled] at ran
    obtain ⟨memory, written, last⟩ := bind_eq_ok.mp ran
    cases last
    have written := inMemory_eq_ok.mp written
    obtain ⟨aligned, above, below⟩ := checkPlace_eq_ok.mp place
    rw [add_of_lt fresh.fits] at below
    have others := recorded.others .zeroSizedAllocs (by decide) (by decide)
    rw [others, area] at apart
    exact ⟨⟨null, checkCleared_eq_ok.mp clear, aligned, above, below, fresh, apart.mp rfl, _, written⟩,
      ⟨_, valid', recorded.count⟩, rfl, records, zeroes, written⟩

/-- And one that is accepted passes. -/
theorem checkBuffer_passes {cleared : Bool} {rounds : Nat} (valid : Valid w.store lists)
    (enough : (lists .allocs).length < rounds) (accepted : Accepted al cleared ptr size w) :
    ∃ w', checkBuffer al rounds cleared ptr size w = .ok w' := by
  have fresh := accepted.fresh
  have short : size < 2 ^ 64 := by
    have fits := fresh.fits
    omega
  obtain ⟨new, st, added⟩ := addRegion_fresh valid allocs_sorted enough fresh
  obtain ⟨-, lists', recorded⟩ := addRegion_recorded valid allocs_sorted short added
  obtain ⟨got, positive, area⟩ := recorded.region fresh.positive
  obtain ⟨found, settles, apart⟩ := findOverlap_records recorded.valid zeroSizedAllocs_sorted positive
  rw [recorded.others .zeroSizedAllocs (by decide) (by decide), area] at apart
  have searched := (settles rounds).reached (Nat.zero_lt_of_lt enough)
  rw [apart.mpr accepted.zeroSized] at searched
  obtain ⟨st', -, -, -, filled⟩ := fillNew_spec al (w := { w with store := st }) recorded
  obtain ⟨memory, written⟩ := accepted.writable
  have place := checkPlace_eq_ok.mpr ⟨accepted.aligned, accepted.above,
    (add_of_lt fresh.fits).symm ▸ accepted.below⟩
  refine ⟨⟨st', getData w.dataCnt, memory⟩, ?_⟩
  rw [checkBuffer, if_neg accepted.nonnull, checkCleared_eq_ok.mpr accepted.cleared, ok_bind, place,
    ok_bind, inLists_eq_ok.mpr added, ok_bind]
  simp only
  rw [inLists_eq_ok.mpr got, ok_bind, inLists_eq_ok.mpr searched, ok_bind, if_neg Bool.false_ne_true,
    filled, inMemory_eq_ok.mpr written]
  rfl

theorem setData_counted {data : Nat} (valid : Valid w.store lists) (inside : p ∈ lists .zeroSizedAllocs)
    (ran : (setData p data w : Except (Alarm ε) (World σ)) = .ok w') :
    Counted w w' ∧ Valid w'.store lists := by
  obtain ⟨st', ran', valid', -, others⟩ := setData_spec (ε := ε) valid zeroSizedAllocs_sorted inside data
  cases ran'.symm.trans ran
  exact ⟨⟨⟨_, valid'⟩, others _ (by decide), rfl⟩, valid'⟩

theorem countZeroSized_returned {rounds : Nat} (valid : Valid w.store lists)
    (ran : (countZeroSized rounds ptr w : Except (Alarm ε) (World σ)) = .ok w') : Counted w w' := by
  rw [countZeroSized] at ran
  obtain ⟨alloc, found, ran⟩ := bind_eq_ok.mp ran
  by_cases new : alloc = 0
  · rw [if_neg (not_not.mpr new)] at ran
    obtain ⟨⟨new, st⟩, added, ran⟩ := bind_eq_ok.mp ran
    obtain ⟨-, lists', recorded⟩ := addRegion_recorded valid zeroSizedAllocs_sorted (by decide)
      (inLists_eq_ok.mp added)
    have counted := (setData_counted (w := { w with store := st }) recorded.valid recorded.inside ran).1
    exact ⟨counted.valid, counted.allocs.trans (recorded.others _ (by decide) (by decide)),
      counted.memory⟩
  · rw [if_pos new] at ran
    obtain ⟨inside, -⟩ := find_returned valid zeroSizedAllocs_sorted (inLists_eq_ok.mp found) new
    obtain ⟨region, -, ran⟩ := bind_eq_ok.mp ran
    exact (setData_counted valid inside ran).1

/-- The request for nothing that returns: the pointer is in no buffer, and the buffers
are as they were filled. -/
theorem checkZeroSized_returned {rounds : Nat} (valid : Valid w.store lists)
    (ran : checkZeroSized al rounds ptr w = .ok w') :
    (∀ r ∈ w.store.records .allocs, ¬ r.1.Holds ptr) ∧ Intact al w ∧ Counted w w' := by
  rw [checkZeroSized] at ran
  obtain ⟨alloc, found, ran⟩ := bind_eq_ok.mp ran
  by_cases none : alloc = 0
  · rw [if_neg (not_not.mpr none)] at ran
    obtain ⟨⟨⟩, checked, ran⟩ := bind_eq_ok.mp ran
    refine ⟨find_missed valid allocs_sorted (none ▸ inLists_eq_ok.mp found),
      memlistCheckData_returned valid checked, ?_⟩
    by_cases null : ptr = 0
    · rw [if_neg (not_not.mpr null)] at ran
      cases ran
      exact ⟨⟨_, valid⟩, rfl, rfl⟩
    · rw [if_pos null] at ran
      exact countZeroSized_returned valid ran
  · rw [if_pos none] at ran
    obtain ⟨region, -, ran⟩ := bind_eq_ok.mp ran
    exact nomatch ran

theorem dropZeroSized_returned (valid : Valid w.store lists) (inside : p ∈ lists .zeroSizedAllocs)
    (ran : (dropZeroSized p w : Except (Alarm ε) (World σ)) = .ok w') : Counted w w' := by
  rw [dropZeroSized] at ran
  obtain ⟨region, -, ran⟩ := bind_eq_ok.mp ran
  obtain ⟨w₁, marked, ran⟩ := bind_eq_ok.mp ran
  obtain ⟨counted, valid₁⟩ := setData_counted valid inside marked
  by_cases last : sub region.data 1 = 0
  · rw [if_pos last] at ran
    obtain ⟨st₂, took, ran⟩ := bind_eq_ok.mp ran
    obtain ⟨st₃, gave, ran⟩ := bind_eq_ok.mp ran
    cases ran
    obtain ⟨_, took', same, valid₂, loose⟩ := valid₁.removed inside
    cases took'.symm.trans (inLists_eq_ok.mp took)
    obtain ⟨_, gave', same', valid₃⟩ := valid₂.pushed .freelist id loose
    cases gave'.symm.trans (inLists_eq_ok.mp gave)
    have first := (valid₁.removed_records zeroSizedAllocs_sorted inside same valid₂).2 .allocs (by decide)
    have second := valid₂.pushed_records same' valid₃ .allocs (by decide)
    exact ⟨⟨_, valid₃⟩, (second.trans first).trans counted.allocs, counted.memory⟩
  · rw [if_neg last] at ran
    cases ran
    exact counted

/-- The buffer that is freed was on the list and as it was filled. -/
structure Retired (al : Allocator σ ε) (ptr : Nat) (w w' : World σ) (r : Extent × Nat) : Prop where
  valid : ∃ lists, Valid w'.store lists
  recorded : r ∈ w.store.records .allocs
  start : r.1.lo = ptr
  reads : al.Reads w.memory r
  allocs : w'.store.records .allocs = w.store.records .allocs \ {r}
  zeroSized : w'.store.records .zeroSizedAllocs = w.store.records .zeroSizedAllocs
  filled : al.memset ptr 0xff r.1.len w.memory = .ok w'.memory

theorem retire_returned {rounds : Nat} (valid : Valid w.store lists)
    (ran : retire al rounds ptr w = .ok w') : ∃ r, Retired al ptr w w' r := by
  rw [retire] at ran
  obtain ⟨alloc, found, ran⟩ := bind_eq_ok.mp ran
  by_cases none : alloc = 0
  · rw [if_pos none] at ran
    exact nomatch ran
  rw [if_neg none] at ran
  obtain ⟨inside, -⟩ := find_returned valid allocs_sorted (inLists_eq_ok.mp found) none
  obtain ⟨region, got, ran⟩ := bind_eq_ok.mp ran
  obtain rfl : w.store.regions alloc = region :=
    Except.ok.inj ((valid.get inside).symm.trans (inLists_eq_ok.mp got))
  by_cases start : ptr = (w.store.regions alloc).start
  · rw [if_neg (not_not.mpr start)] at ran
    obtain ⟨⟨⟩, checked, ran⟩ := bind_eq_ok.mp ran
    obtain ⟨st₁, took, ran⟩ := bind_eq_ok.mp ran
    obtain ⟨memory, written, ran⟩ := bind_eq_ok.mp ran
    obtain ⟨st₂, kept, ran⟩ := bind_eq_ok.mp ran
    cases ran
    obtain ⟨_, took', same, valid₁, loose⟩ := valid.removed inside
    cases took'.symm.trans (inLists_eq_ok.mp took)
    obtain ⟨_, kept', same', valid₂⟩ := valid₁.pushed .freedAllocs id loose
    cases kept'.symm.trans (inLists_eq_ok.mp kept)
    obtain ⟨first, others⟩ := valid.removed_records allocs_sorted inside same valid₁
    have second := valid₁.pushed_records same' valid₂ .allocs (by decide)
    have zeroes := valid₁.pushed_records same' valid₂ .zeroSizedAllocs (by decide)
    exact ⟨w.store.record alloc, ⟨_, valid₂⟩, valid.mem_records.mpr ⟨alloc, inside, rfl⟩, start.symm,
      regionCheckData_eq_ok.mp checked, second.trans first, zeroes.trans (others _ (by decide)),
      inMemory_eq_ok.mp written⟩
  · rw [if_pos start] at ran
    exact nomatch ran

/-! ### Runs -/

/-- A buffer has come to the records, and overlaps none of them. -/
structure Grows (w' : World σ) (before : Set (Extent × Nat)) (ptr size : Nat) : Prop where
  positive : 0 < size
  byte : 1 ≤ w'.dataCnt ∧ w'.dataCnt ≤ 254
  apart : ∀ r ∈ before, r.1.Apart ⟨ptr, size⟩
  records : w'.store.records .allocs = insert (⟨ptr, size⟩, w'.dataCnt) before

/-- A new buffer is aligned and in the heap. -/
structure Placed (al : Allocator σ ε) (w w' : World σ) (ptr size : Nat) : Prop
    extends Grows w' (w.store.records .allocs) ptr size where
  aligned : ptr % 8 = 0
  above : al.heap w'.memory ≤ ptr
  below : ptr + size ≤ al.curBrk w'.memory

/-- What an allocation means for the records of the buffers. -/
def Allocates (al : Allocator σ ε) (w w' : World σ) (result nmemb size : Nat) : Prop :=
  if nmemb = 0 ∨ size = 0 then w'.store.records .allocs = w.store.records .allocs
  else Placed al w w' result (mul nmemb size)

/-- The pointer is NULL, or that of a zero-sized allocation. -/
def FreesNothing (w : World σ) (ptr : Nat) : Prop :=
  ptr = 0 ∨ ∃ r ∈ w.store.records .zeroSizedAllocs,
    r.1.Holds (if ptr = 2 ^ 64 - 1 then ptr - 1 else ptr)

/-- What freeing a pointer means for the records of the buffers. -/
structure Frees (al : Allocator σ ε) (w w' : World σ) (ptr : Nat) : Prop where
  nothing : FreesNothing w ptr → w'.store.records .allocs = w.store.records .allocs
  buffer : ¬ FreesNothing w ptr → ∃ r ∈ w.store.records .allocs,
    r.1.lo = (if ptr = 2 ^ 64 - 1 then ptr - 1 else ptr) ∧ al.Reads w.memory r ∧
      w'.store.records .allocs = w.store.records .allocs \ {r}

/-- What a call means for the records of the buffers. -/
def CheckedCall.Serves (al : Allocator σ ε) (w w' : World σ) (result : Nat) : CheckedCall → Prop
  | alloc size => Allocates al w w' result 1 size
  | allocArray nmemb size => Allocates al w w' result nmemb size
  | free ptr => Frees al w w' ptr
  | realloc ptr size =>
    if ptr = 0 then Allocates al w w' result 1 size
    else if size = 0 then Frees al w w' ptr
    else ∃ r ∈ w.store.records .allocs, r.1.lo = ptr ∧ al.Reads w.memory r ∧
      Grows w' (w.store.records .allocs \ {r}) result size

/-- Whether the call reads the buffers at its end. -/
def CheckedCall.Checks (unchecked : Bool) : CheckedCall → Prop
  | alloc _ | allocArray _ _ => unchecked = false
  | free ptr => ptr ≠ 0
  | realloc ptr _ => ptr = 0 → unchecked = false

theorem Intact.counted (intact : Intact al w) (counted : Counted w w') : Intact al w' := by
  rw [Intact, counted.allocs, counted.memory]
  exact intact

theorem mul_lt (a b : Nat) : mul a b < 2 ^ 64 := Nat.mod_lt _ (by decide)

/-- An allocation of something that returns. -/
theorem checkedAllocFrom_buffer {source : Source} {nmemb rounds : Nat} {unchecked : Bool}
    (valid : Valid w.store lists) (something : ¬ (nmemb = 0 ∨ size = 0))
    (ran : checkedAllocFrom al rounds unchecked source nmemb size w = .ok (ptr, w')) :
    ∃ memory, allocate al source nmemb size w.memory = .ok (ptr, memory) ∧
      Accepted al (source == .calloc) ptr (mul nmemb size) { w with memory := memory } ∧
      Gained al ptr (mul nmemb size) lists { w with memory := memory } w' ∧
      (unchecked = false → Intact al w') := by
  rw [checkedAllocFrom] at ran
  obtain ⟨⟨q, memory⟩, allocated, ran⟩ := bind_eq_ok.mp ran
  have valid₁ : Valid ({ w with memory := memory } : World σ).store lists := valid
  simp only [if_neg something] at ran
  obtain ⟨w₁, checked, ran⟩ := bind_eq_ok.mp ran
  obtain ⟨accepted, gained⟩ := checkBuffer_returned valid₁ (mul_lt nmemb size) checked
  obtain ⟨lists', valid', -⟩ := gained.valid
  cases unchecked with
  | true =>
    cases ran
    exact ⟨memory, allocated, accepted, gained, fun none => nomatch none⟩
  | false =>
    obtain ⟨⟨⟩, read, last⟩ := bind_eq_ok.mp ran
    cases last
    exact ⟨memory, allocated, accepted, gained, fun _ => memlistCheckData_returned valid' read⟩

/-- An allocation that returns. -/
theorem checkedAllocFrom_returned {source : Source} {nmemb rounds : Nat} {unchecked : Bool}
    (valid : Valid w.store lists)
    (ran : checkedAllocFrom al rounds unchecked source nmemb size w = .ok (ptr, w')) :
    (∃ lists, Valid w'.store lists) ∧ Allocates al w w' ptr nmemb size ∧
      (unchecked = false → Intact al w') := by
  by_cases nothing : nmemb = 0 ∨ size = 0
  · rw [checkedAllocFrom] at ran
    obtain ⟨⟨q, memory⟩, -, ran⟩ := bind_eq_ok.mp ran
    have valid₁ : Valid ({ w with memory := memory } : World σ).store lists := valid
    simp only [if_pos nothing] at ran
    obtain ⟨w₁, checked, last⟩ := bind_eq_ok.mp ran
    cases last
    obtain ⟨-, intact, counted⟩ := checkZeroSized_returned valid₁ checked
    rw [Allocates, if_pos nothing]
    exact ⟨counted.valid, counted.allocs, fun _ => intact.counted counted⟩
  · obtain ⟨memory, -, accepted, gained, checks⟩ := checkedAllocFrom_buffer valid nothing ran
    have bounds := al.bounds_memset gained.filled
    obtain ⟨lists', valid', -⟩ := gained.valid
    have grows : Grows w' (w.store.records .allocs) ptr (mul nmemb size) :=
      ⟨accepted.fresh.positive, gained.dataCnt ▸ getData_bounds _, accepted.fresh.apart,
        gained.dataCnt ▸ gained.allocs⟩
    rw [Allocates, if_neg nothing]
    exact ⟨⟨_, valid'⟩, ⟨grows, accepted.aligned, bounds.1 ▸ accepted.above,
      bounds.2 ▸ accepted.below⟩, checks⟩

/-- The pointer is looked up, unless it is NULL. -/
theorem checkedFree_found {rounds : Nat} (null : ptr ≠ 0) (ran : checkedFree al rounds ptr w = .ok w') :
    ∃ alloc, find rounds .zeroSizedAllocs (if ptr = 2 ^ 64 - 1 then ptr - 1 else ptr) w.store = .ok alloc ∧
      ∃ w₁, takeOff al rounds (if ptr = 2 ^ 64 - 1 then ptr - 1 else ptr) alloc w = .ok w₁ ∧
        al.free (if ptr = 2 ^ 64 - 1 then ptr - 1 else ptr) w₁.memory = .ok w'.memory ∧
        w'.store = w₁.store ∧ memlistCheckData al rounds w' = .ok () := by
  rw [checkedFree, if_neg null] at ran
  obtain ⟨alloc, found, ran⟩ := bind_eq_ok.mp ran
  obtain ⟨w₁, taken, ran⟩ := bind_eq_ok.mp ran
  obtain ⟨memory, freed, ran⟩ := bind_eq_ok.mp ran
  obtain ⟨⟨⟩, read, last⟩ := bind_eq_ok.mp ran
  cases last
  exact ⟨alloc, inLists_eq_ok.mp found, w₁, taken, inMemory_eq_ok.mp freed, rfl, read⟩

/-- A call of `checked_free` for a buffer that returns. -/
theorem checkedFree_buffer {rounds : Nat} (valid : Valid w.store lists) (some : ¬ FreesNothing w ptr)
    (ran : checkedFree al rounds ptr w = .ok w') :
    ∃ w₁ r, Retired al (if ptr = 2 ^ 64 - 1 then ptr - 1 else ptr) w w₁ r ∧
      al.free (if ptr = 2 ^ 64 - 1 then ptr - 1 else ptr) w₁.memory = .ok w'.memory ∧
      w'.store = w₁.store ∧ Intact al w' := by
  obtain ⟨alloc, found, w₁, taken, freed, same, read⟩ :=
    checkedFree_found (fun null => some (Or.inl null)) ran
  by_cases buffer : alloc = 0
  · rw [takeOff, if_neg (not_not.mpr buffer)] at taken
    obtain ⟨r, retired⟩ := retire_returned valid taken
    obtain ⟨lists', valid'⟩ := retired.valid
    exact ⟨w₁, r, retired, freed, same, memlistCheckData_returned (same ▸ valid') read⟩
  · obtain ⟨inside, holds⟩ := find_returned valid zeroSizedAllocs_sorted found buffer
    exact absurd (Or.inr ⟨_, valid.mem_records.mpr ⟨alloc, inside, rfl⟩, holds⟩) some

/-- A call of `checked_free` that returns. -/
theorem checkedFree_returned {rounds : Nat} (valid : Valid w.store lists)
    (ran : checkedFree al rounds ptr w = .ok w') :
    (∃ lists, Valid w'.store lists) ∧ Frees al w w' ptr ∧ (ptr ≠ 0 → Intact al w') := by
  by_cases nothing : FreesNothing w ptr
  · by_cases null : ptr = 0
    · rw [checkedFree, if_pos null] at ran
      obtain ⟨memory, -, last⟩ := bind_eq_ok.mp ran
      cases last
      exact ⟨⟨_, valid⟩, ⟨fun _ => rfl, fun some => absurd nothing some⟩, fun some => absurd null some⟩
    · obtain ⟨r, recorded, holds⟩ := nothing.resolve_left null
      obtain ⟨alloc, found, w₁, taken, -, same, read⟩ := checkedFree_found null ran
      have counted : alloc ≠ 0 := fun none =>
        find_missed valid zeroSizedAllocs_sorted (none ▸ found) r recorded holds
      rw [takeOff, if_pos counted] at taken
      have kept := dropZeroSized_returned valid
        (find_returned valid zeroSizedAllocs_sorted found counted).1 taken
      obtain ⟨lists', valid'⟩ := kept.valid
      exact ⟨⟨_, same ▸ valid'⟩, ⟨fun _ => same ▸ kept.allocs, fun some => absurd nothing some⟩,
        fun _ => memlistCheckData_returned (same ▸ valid') read⟩
  · obtain ⟨w₁, r, retired, -, same, intact⟩ := checkedFree_buffer valid nothing ran
    obtain ⟨lists', valid'⟩ := retired.valid
    exact ⟨⟨_, same ▸ valid'⟩, ⟨fun some => absurd some nothing, fun _ => ⟨r, retired.recorded,
      retired.start, retired.reads, same ▸ retired.allocs⟩⟩, fun _ => intact⟩

/-- A call of `checked_realloc` that returns another place for a buffer. -/
theorem checkedResize_returned {rounds result : Nat} (valid : Valid w.store lists)
    (short : size < 2 ^ 64) (ran : checkedResize al rounds ptr size w = .ok (result, w')) :
    (∃ lists, Valid w'.store lists) ∧ (∃ r ∈ w.store.records .allocs, r.1.lo = ptr ∧ al.Reads w.memory r ∧
      Grows w' (w.store.records .allocs \ {r}) result size ∧
      ∃ memory, al.realloc ptr size w.memory = .ok (result, memory) ∧
        checkRetained al result (min r.1.len size) r.2 memory = .ok ()) ∧ Intact al w' := by
  rw [checkedResize] at ran
  obtain ⟨alloc, found, ran⟩ := bind_eq_ok.mp ran
  by_cases none : alloc = 0
  · rw [if_pos none] at ran
    exact nomatch ran
  rw [if_neg none] at ran
  obtain ⟨inside, -⟩ := find_returned valid allocs_sorted (inLists_eq_ok.mp found) none
  obtain ⟨region, got, ran⟩ := bind_eq_ok.mp ran
  obtain rfl : w.store.regions alloc = region :=
    Except.ok.inj ((valid.get inside).symm.trans (inLists_eq_ok.mp got))
  by_cases start : ptr = (w.store.regions alloc).start
  · rw [if_neg (not_not.mpr start)] at ran
    obtain ⟨⟨⟩, checked, ran⟩ := bind_eq_ok.mp ran
    obtain ⟨⟨q, memory⟩, resized, ran⟩ := bind_eq_ok.mp ran
    obtain ⟨⟨⟩, retained, ran⟩ := bind_eq_ok.mp ran
    obtain ⟨st₁, took, ran⟩ := bind_eq_ok.mp ran
    obtain ⟨⟨new, st₂⟩, added, ran⟩ := bind_eq_ok.mp ran
    obtain ⟨w₃, filled, ran⟩ := bind_eq_ok.mp ran
    obtain ⟨⟨⟩, read, last⟩ := bind_eq_ok.mp ran
    cases last
    obtain ⟨_, took', same, valid₁, -⟩ := valid.removed inside
    cases took'.symm.trans (inLists_eq_ok.mp took)
    have removed := (valid.removed_records allocs_sorted inside same valid₁).1
    obtain ⟨fresh, lists', recorded⟩ := addRegion_recorded valid₁ allocs_sorted short
      (inLists_eq_ok.mp added)
    obtain ⟨st₃, valid₃, records, -, filling⟩ := fillNew_spec al
      (w := { w with store := st₂, memory := memory }) recorded
    rw [filling] at filled
    obtain ⟨memory', -, last⟩ := bind_eq_ok.mp filled
    cases last
    rw [removed] at records
    exact ⟨⟨_, valid₃⟩, ⟨w.store.record alloc, valid.mem_records.mpr ⟨alloc, inside, rfl⟩, start.symm,
      regionCheckData_eq_ok.mp checked, ⟨fresh.positive, getData_bounds _, removed ▸ fresh.apart, records⟩,
      memory, inMemory_eq_ok.mp resized, retained⟩, memlistCheckData_returned valid₃ read⟩
  · rw [if_pos start] at ran
    exact nomatch ran

/-- One call that returns. -/
theorem CheckedCall.returned {call : CheckedCall} {rounds result : Nat} {unchecked useCalloc : Bool}
    (valid : Valid w.store lists) (typed : call.Typed)
    (ran : call.exec al rounds unchecked useCalloc w = .ok (result, w')) :
    (∃ lists, Valid w'.store lists) ∧ call.Serves al w w' result ∧
      (call.Checks unchecked → Intact al w') := by
  cases call with
  | alloc n =>
    simp only [exec, checkedAlloc] at ran
    by_cases even : n ≠ 0 ∧ n % 2 = 0
    · rw [if_pos even] at ran
      obtain ⟨valid', allocates, checks⟩ := checkedAllocFrom_returned valid ran
      refine ⟨valid', ?_, checks⟩
      have half : mul 2 (n / 2) = mul 1 n := by
        unfold mul
        omega
      rw [Allocates, if_neg (by omega)] at allocates
      rw [Serves, Allocates, if_neg (by omega), ← half]
      exact allocates
    · rw [if_neg even] at ran
      exact checkedAllocFrom_returned valid ran
  | allocArray nmemb n => exact checkedAllocFrom_returned valid ran
  | free q =>
    obtain ⟨w₁, freed, last⟩ := bind_eq_ok.mp ran
    cases last
    exact checkedFree_returned valid freed
  | realloc q n =>
    simp only [exec, checkedRealloc] at ran
    simp only [Serves, Checks]
    by_cases null : q = 0
    · simp only [if_pos null] at ran ⊢
      obtain ⟨valid', allocates, checks⟩ := checkedAllocFrom_returned valid ran
      exact ⟨valid', allocates, fun unchecked => checks (unchecked null)⟩
    by_cases zero : n = 0
    · simp only [if_neg null, if_pos zero] at ran ⊢
      obtain ⟨w₁, freed, last⟩ := bind_eq_ok.mp ran
      cases last
      obtain ⟨valid', frees, checks⟩ := checkedFree_returned valid freed
      exact ⟨valid', frees, fun _ => checks null⟩
    · simp only [if_neg null, if_neg zero] at ran ⊢
      obtain ⟨valid', ⟨r, recorded, start, reads, grows, -⟩, intact⟩ :=
        checkedResize_returned valid typed ran
      exact ⟨valid', ⟨r, recorded, start, reads, grows⟩, fun _ => intact⟩

/-- Every buffer has been filled with a byte of `get_data`. -/
def Bytes (w : World σ) : Prop := ∀ r ∈ w.store.records .allocs, 1 ≤ r.2 ∧ r.2 ≤ 254

theorem Grows.bytes {before : Set (Extent × Nat)} (grows : Grows w' before ptr size)
    (bytes : ∀ r ∈ before, 1 ≤ r.2 ∧ r.2 ≤ 254) : Bytes w' := by
  intro r recorded
  rw [grows.records] at recorded
  obtain rfl | recorded := Set.mem_insert_iff.mp recorded
  · exact grows.byte
  · exact bytes r recorded

theorem Allocates.bytes {nmemb result : Nat} (allocates : Allocates al w w' result nmemb size)
    (bytes : Bytes w) : Bytes w' := by
  unfold Allocates at allocates
  split_ifs at allocates with nothing
  · rwa [Bytes, allocates]
  · exact allocates.toGrows.bytes bytes

theorem Frees.bytes (frees : Frees al w w' ptr) (bytes : Bytes w) : Bytes w' := by
  by_cases nothing : FreesNothing w ptr
  · rwa [Bytes, frees.nothing nothing]
  · obtain ⟨r, -, -, -, records⟩ := frees.buffer nothing
    rw [Bytes, records]
    exact fun s recorded => bytes s recorded.1

theorem CheckedCall.Serves.bytes {call : CheckedCall} {result : Nat} (serves : call.Serves al w w' result)
    (bytes : Bytes w) : Bytes w' := by
  cases call with
  | alloc n => exact Allocates.bytes serves bytes
  | allocArray nmemb n => exact Allocates.bytes serves bytes
  | free q => exact Frees.bytes serves bytes
  | realloc q n =>
    simp only [Serves] at serves
    split_ifs at serves
    · exact Allocates.bytes serves bytes
    · exact Frees.bytes serves bytes
    · obtain ⟨r, -, -, -, grows⟩ := serves
      exact grows.bytes fun s recorded => bytes s recorded.1

/-- In every run the lists are what they should be. -/
theorem CheckedRun.sound (run : CheckedRun al w) : (∃ lists, Valid w.store lists) ∧ Bytes w := by
  induction run with
  | start memory =>
    refine ⟨⟨_, valid_initial⟩, fun r recorded => ?_⟩
    rw [records_initial] at recorded
    exact recorded.elim
  | between memory _ ih => exact ih
  | call _ typed ran ih =>
    obtain ⟨⟨lists, valid⟩, bytes⟩ := ih
    obtain ⟨valid', serves, -⟩ := CheckedCall.returned valid typed ran
    exact ⟨valid', serves.bytes bytes⟩

end

end Comp304.Framework
