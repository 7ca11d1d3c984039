import Comp304.Library.ByteMemory
import Comp304.Library.Lp64

/-! The allocator of `alloc.c`, statement by statement, over a byte-addressed
memory. A list node lives in the freed block itself: `size`, `next` and `prev`
at offsets 0, 8 and 16. Loops run on a budget, and every access is checked
against what the system has mapped at that moment. The debugging prints of
`kufree` are left out: their guard `print` is the constant 0. -/
namespace Comp304.Alloc
open Library.ByteMemory Library.Lp64

/-- Why a call does not return. -/
inductive Fault where
  /-- An access to an address that is not mapped; NULL never is. -/
  | segv
  /-- The budget of loop rounds ran out, which says nothing about the code. -/
  | spent
  deriving DecidableEq, Repr

/-- What the allocator runs on: where the break starts and may go, which calls
of `sbrk` are granted, and which addresses are mapped under a given break. The
heap itself always is; how far beyond the break the mapping extends (to the
next page, say) is up to the system. -/
structure System where
  base : Nat
  limit : Nat
  granted : Nat → Bool
  mapped : Nat → Nat → Bool
  base_aligned : base % 8 = 0
  base_above : 4096 ≤ base
  base_le_limit : base ≤ limit
  limit_lt : limit < 2 ^ 63
  heap_mapped : ∀ brk address, base ≤ address → address < brk → brk ≤ limit →
    mapped brk address = true
  user_mapped : ∀ brk address, mapped brk address = true → 4096 ≤ address ∧ address < 2 ^ 63

/-- The memory, the three globals of `alloc.c`, the program break, and how many
calls of `sbrk` were made and refused. -/
structure Heap where
  mem : Memory
  head : Nat
  blockEnd : Nat
  availableMemory : Nat
  brk : Nat
  sbrkCalls : Nat
  sbrkFailures : Nat

/-- Before the first call: all globals are zero. -/
def Heap.initial (sys : System) (mem : Memory) : Heap :=
  ⟨mem, 0, 0, 0, sys.base, 0, 0⟩

namespace Heap

/-- Assign the global `head`. -/
def setHead (h : Heap) (node : Nat) : Heap := { h with head := node }

/-- Whether all `width` bytes from `address` are mapped. -/
def accessible (sys : System) (h : Heap) (address width : Nat) : Bool :=
  (List.range width).all fun i => sys.mapped h.brk (address + i)

/-- Read eight bytes. -/
def load (sys : System) (h : Heap) (address : Nat) : Except Fault Nat :=
  if h.accessible sys address 8 then .ok (loadBytes h.mem address 8) else .error .segv

/-- Write eight bytes. -/
def store (sys : System) (h : Heap) (address value : Nat) : Except Fault Heap :=
  if h.accessible sys address 8 then .ok { h with mem := storeBytes h.mem address value 8 }
  else .error .segv

def getSize (sys : System) (h : Heap) (node : Nat) : Except Fault Nat := h.load sys node
def getNext (sys : System) (h : Heap) (node : Nat) : Except Fault Nat := h.load sys (node + 8)
def getPrev (sys : System) (h : Heap) (node : Nat) : Except Fault Nat := h.load sys (node + 16)

def setSize (sys : System) (h : Heap) (node size : Nat) : Except Fault Heap :=
  h.store sys node size
def setNext (sys : System) (h : Heap) (node next : Nat) : Except Fault Heap :=
  h.store sys (node + 8) next
def setPrev (sys : System) (h : Heap) (node prev : Nat) : Except Fault Heap :=
  h.store sys (node + 16) prev

end Heap

/-- `sizeof(struct block)`. -/
def blockSize : Nat := 8

/-- The system's `sbrk`: the old break, or `(void *) -1` with the break left
where it was. -/
def sbrk (sys : System) (h : Heap) (increment : Int) : Nat × Heap :=
  if sys.granted h.sbrkCalls ∧ (sys.base : Int) ≤ h.brk + increment ∧
      (h.brk : Int) + increment ≤ sys.limit then
    (h.brk, { h with brk := (h.brk + increment).toNat, sbrkCalls := h.sbrkCalls + 1 })
  else
    (2 ^ 64 - 1,
      { h with sbrkCalls := h.sbrkCalls + 1, sbrkFailures := h.sbrkFailures + 1 })

/-- `size_align`: round up to a multiple of `sizeof(long)`. -/
def sizeAlign (n : Nat) : Nat :=
  mul (sub (add n 8) 1 / 8) 8

/-- How much a growing `kumalloc` asks `sbrk` for. -/
def capacity (totalSize : Nat) : Nat :=
  if totalSize > 8192 then mul (add (totalSize / 8192) 1) 8192 else 8192

/-- The first-fit search of `kumalloc`: the first node that is large enough, or
NULL. -/
def findBlock (sys : System) (h : Heap) (totalSize : Nat) : Nat → Nat → Except Fault Nat
  | 0, _ => .error .spent
  | rounds + 1, temp =>
    if temp = 0 then .ok 0
    else do
      let size ← h.getSize sys temp
      if size ≥ totalSize then .ok temp
      else do
        let next ← h.getNext sys temp
        findBlock sys h totalSize rounds next

/-- The three growth paths of `kumalloc`: the new block and the heap around it,
before its header is written. -/
def growHeap (sys : System) (h : Heap) (totalSize : Nat) : Nat × Heap :=
  if h.availableMemory = 0 then
    let grown := (sbrk sys h (toIntptr (capacity totalSize))).2
    let block := (sbrk sys h (toIntptr (capacity totalSize))).1
    (block, { grown with
      blockEnd := if grown.blockEnd ≠ 0 then add grown.blockEnd totalSize else add block totalSize
      availableMemory := add grown.availableMemory (sub (capacity totalSize) totalSize) })
  else if totalSize ≤ h.availableMemory then
    (h.blockEnd, { h with
      blockEnd := add h.blockEnd totalSize
      availableMemory := sub h.availableMemory totalSize })
  else
    let grown := (sbrk sys h (toIntptr (capacity totalSize))).2
    (grown.blockEnd, { grown with
      blockEnd := add grown.blockEnd totalSize
      availableMemory := add grown.availableMemory (sub (capacity totalSize) totalSize) })

/-- The pointer writes that put the remainder in the place of `temp->next`, or
take `temp->next` out of the list when nothing remains. -/
def unlinkNext (sys : System) (subseq : Nat) (sizeDiff : Int) (h : Heap) (temp : Nat) :
    Except Fault Heap :=
  if sizeDiff > 0 then do
    let next ← h.getNext sys temp
    let after ← h.getNext sys next
    let h ← h.setNext sys subseq after
    let next ← h.getNext sys temp
    let after ← h.getNext sys next
    let h ← h.setPrev sys after subseq
    let h ← h.setNext sys temp subseq
    h.setPrev sys subseq temp
  else do
    let next ← h.getNext sys temp
    let after ← h.getNext sys next
    let h ← h.setPrev sys after temp
    let next ← h.getNext sys temp
    let after ← h.getNext sys next
    h.setNext sys temp after

/-- The search for the predecessor of a reused node that is not the head. The
test for `temp->next == NULL` inside the loop repeats the loop condition. -/
def unlinkBlock (sys : System) (freeBlock subseq : Nat) (sizeDiff : Int) (h : Heap) :
    Nat → Nat → Except Fault Heap
  | 0, _ => .error .spent
  | rounds + 1, temp => do
    let next ← h.getNext sys temp
    if next = 0 then .ok h
    else if next = freeBlock then unlinkNext sys subseq sizeDiff h temp
    else unlinkBlock sys freeBlock subseq sizeDiff h rounds next

/-- The head of the list is reused: its remainder, if any, becomes the head. -/
def reuseHead (sys : System) (subseq : Nat) (sizeDiff : Int) (h : Heap) : Except Fault Heap :=
  if sizeDiff > 0 then do
    let next ← h.getNext sys h.head
    let h ← h.setNext sys subseq next
    let prev ← h.getPrev sys h.head
    let h ← h.setPrev sys subseq prev
    .ok (h.setHead subseq)
  else do
    let next ← h.getNext sys h.head
    let h := h.setHead next
    if h.head ≠ 0 then h.setPrev sys h.head 0 else .ok h

/-- The reuse path of `kumalloc`. The remainder's `next` and `size` are written
before it is known whether there is a remainder. -/
def reuseBlock (sys : System) (rounds : Nat) (h : Heap) (block totalSize : Nat) :
    Except Fault Heap := do
  let subseq := add block totalSize
  let h ← h.setNext sys subseq 0
  let size ← h.getSize sys block
  let sizeDiff := subInt (toInt size) (toInt totalSize)
  let h ← h.setSize sys subseq (toSize sizeDiff)
  let h ← h.setSize sys block totalSize
  if h.head = block then reuseHead sys subseq sizeDiff h
  else unlinkBlock sys block subseq sizeDiff h rounds h.head

/-- `kumalloc`. -/
def kumalloc (sys : System) (rounds : Nat) (h : Heap) (size : Nat) : Except Fault (Nat × Heap) :=
  if size = 0 then .ok (0, h)
  else do
    let totalSize := sizeAlign (add size blockSize)
    let block ← findBlock sys h totalSize rounds h.head
    if block = 0 then do
      let grown := growHeap sys h totalSize
      let h ← grown.2.setSize sys grown.1 totalSize
      .ok (add grown.1 blockSize, h)
    else do
      let h ← reuseBlock sys rounds h block totalSize
      .ok (add block blockSize, h)

/-- C `memset` to zero. -/
def memsetZero (sys : System) (h : Heap) (start width : Nat) : Except Fault Heap :=
  if h.accessible sys start width then .ok { h with mem := fill h.mem start 0 width }
  else .error .segv

/-- C `memcpy`. -/
def memcpy (sys : System) (h : Heap) (target source width : Nat) : Except Fault Heap :=
  if h.accessible sys source width ∧ h.accessible sys target width then
    .ok { h with mem := copy h.mem target source width }
  else .error .segv

/-- `kucalloc`. -/
def kucalloc (sys : System) (rounds : Nat) (h : Heap) (nmemb size : Nat) :
    Except Fault (Nat × Heap) :=
  if size = 0 ∨ nmemb = 0 then .ok (0, h)
  else do
    let totalSize := sizeAlign (mul nmemb size)
    let result ← kumalloc sys rounds h totalSize
    let h ← memsetZero sys result.2 result.1 totalSize
    .ok (result.1, h)

/-- `block_end` moves down to the node, and the break by its size. -/
def lowerEnd (sys : System) (h : Heap) (node size : Nat) : Heap :=
  (sbrk sys { h with blockEnd := node } (toIntptr (sub 0 size))).2

/-- The block `temp` goes back to the system and out of the list. -/
def giveBack (sys : System) (h : Heap) (temp size : Nat) : Except Fault Heap :=
  let h := lowerEnd sys h temp size
  if temp = h.head then do
    let next ← h.getNext sys h.head
    .ok (h.setHead next)
  else do
    let prev ← h.getPrev sys temp
    let next ← h.getNext sys temp
    h.setNext sys prev next

/-- One round of the trim loop: only a block that ends at `block_end` goes. -/
def trimBlock (sys : System) (h : Heap) (temp size : Nat) : Except Fault Heap :=
  if add temp size = h.blockEnd then giveBack sys h temp size else .ok h

/-- The trim loop of `kufree`. The walk goes on from `temp->next` even after
`temp` has been given back. -/
def trimLoop (sys : System) : Nat → Heap → Nat → Except Fault Heap
  | 0, _, _ => .error .spent
  | rounds + 1, h, temp =>
    if temp = 0 then .ok h
    else do
      let size ← h.getSize sys temp
      let h ← trimBlock sys h temp size
      let next ← h.getNext sys temp
      trimLoop sys rounds h next

/-- The sum of two block sizes as `kufree` computes it. -/
def mergedSize (first second : Nat) : Nat := toSize (addInt (toInt first) (toInt second))

/-- The sum of three block sizes as `kufree` computes it. -/
def mergedSize3 (first second third : Nat) : Nat :=
  toSize (addInt (addInt (toInt first) (toInt second)) (toInt third))

/-- `if (drop->next != keep) keep->next = drop->next;` -/
def takeNext (sys : System) (h : Heap) (keep drop : Nat) : Except Fault Heap := do
  let next ← h.getNext sys drop
  if next ≠ keep then h.setNext sys keep next else .ok h

/-- `if (drop->next != NULL) drop->next->prev = keep;` -/
def takePrev (sys : System) (h : Heap) (keep drop : Nat) : Except Fault Heap := do
  let next ← h.getNext sys drop
  if next ≠ 0 then h.setPrev sys next keep else .ok h

/-- `if (drop != head) drop->prev->next = keep; else head = keep;` -/
def takePlace (sys : System) (h : Heap) (keep drop : Nat) : Except Fault Heap :=
  if drop ≠ h.head then do
    let prev ← h.getPrev sys drop
    h.setNext sys prev keep
  else .ok (h.setHead keep)

/-- `if (head == head->next) head->next = NULL;` -/
def cutSelfLoop (sys : System) (h : Heap) : Except Fault Heap := do
  let next ← h.getNext sys h.head
  if h.head = next then h.setNext sys h.head 0 else .ok h

/-- The list update of both three-way merges: `keep` stays, `drop` goes. -/
def absorb (sys : System) (h : Heap) (keep drop : Nat) : Except Fault Heap := do
  let h ← takeNext sys h keep drop
  let h ← takePrev sys h keep drop
  let h ← takePlace sys h keep drop
  cutSelfLoop sys h

/-- Three adjacent blocks become one: `keep` grows over the freed block and `drop`. -/
def mergeThree (sys : System) (h : Heap) (keep freeBlock drop : Nat) : Except Fault Heap := do
  let size ← h.getSize sys keep
  let freeSize ← h.getSize sys freeBlock
  let dropSize ← h.getSize sys drop
  let h ← h.setSize sys keep (mergedSize3 size freeSize dropSize)
  absorb sys h keep drop

/-- Two adjacent blocks become one: `temp` grows over the freed block. -/
def mergeTwo (sys : System) (h : Heap) (freeBlock temp : Nat) : Except Fault Heap := do
  let freeSize ← h.getSize sys freeBlock
  let size ← h.getSize sys temp
  h.setSize sys temp (mergedSize freeSize size)

/-- `temp` ends where the freed block begins: look for a node `temp2` where it
ends, and merge three blocks if there is one, two if not. -/
def mergeLeft (sys : System) (h : Heap) (freeBlock temp end2 : Nat) :
    Nat → Nat → Except Fault Heap
  | 0, _ => .error .spent
  | rounds + 1, temp2 =>
    if temp2 = end2 then mergeThree sys h temp freeBlock temp2
    else do
      let next ← h.getNext sys temp2
      if next = 0 then mergeTwo sys h freeBlock temp
      else mergeLeft sys h freeBlock temp end2 rounds next

/-- The freed block takes the place of its right neighbour `temp`. -/
def replaceRight (sys : System) (h : Heap) (freeBlock temp : Nat) : Except Fault Heap := do
  let freeSize ← h.getSize sys freeBlock
  let size ← h.getSize sys temp
  let h ← h.setSize sys freeBlock (mergedSize freeSize size)
  let next ← h.getNext sys temp
  let h ← h.setNext sys freeBlock next
  let prev ← h.getPrev sys temp
  let h ← h.setPrev sys freeBlock prev
  takePlace sys h freeBlock temp

/-- The freed block ends where `temp` begins: look for a node `temp2` that ends
where it begins, and merge three blocks if there is one, two if not. -/
def mergeRight (sys : System) (h : Heap) (freeBlock temp : Nat) : Nat → Nat → Except Fault Heap
  | 0, _ => .error .spent
  | rounds + 1, temp2 =>
    if temp2 = 0 then replaceRight sys h freeBlock temp
    else do
      let size2 ← h.getSize sys temp2
      if freeBlock = add temp2 size2 then mergeThree sys h temp2 freeBlock temp
      else do
        let next ← h.getNext sys temp2
        mergeRight sys h freeBlock temp rounds next

/-- A freed block with no free neighbour goes to the front of the list. Its own
`prev` is not written. -/
def insertBlock (sys : System) (h : Heap) (freeBlock : Nat) : Except Fault Heap := do
  let h ← h.setNext sys freeBlock h.head
  let h ← h.setPrev sys h.head freeBlock
  .ok (h.setHead freeBlock)

/-- The merge loop of `kufree`, entered with a nonempty list. -/
def mergeLoop (sys : System) (scans : Nat) (h : Heap) (freeBlock : Nat) :
    Nat → Nat → Except Fault Heap
  | 0, _ => .error .spent
  | rounds + 1, temp =>
    if temp = 0 then insertBlock sys h freeBlock
    else do
      let size ← h.getSize sys temp
      let freeSize ← h.getSize sys freeBlock
      let end1 := add temp size
      let end2 := add freeBlock freeSize
      if end1 = freeBlock then mergeLeft sys h freeBlock temp end2 scans h.head
      else if end2 = temp then mergeRight sys h freeBlock temp scans h.head
      else do
        let next ← h.getNext sys temp
        mergeLoop sys scans h freeBlock rounds next

/-- The last block of the heap goes back to the system at once. -/
def freeLast (sys : System) (h : Heap) (block size : Nat) : Heap :=
  if h.blockEnd = add block size then lowerEnd sys h block size else h

/-- A block that is not the last one is merged or put on the list. -/
def addFree (sys : System) (rounds : Nat) (h : Heap) (block : Nat) : Except Fault Heap :=
  if h.head = 0 then do
    let h ← h.setNext sys block 0
    .ok (h.setHead block)
  else mergeLoop sys rounds h block rounds h.head

/-- `kufree`. -/
def kufree (sys : System) (rounds : Nat) (h : Heap) (ptr : Nat) : Except Fault Heap :=
  if ptr = 0 then .ok h
  else do
    let block := sub ptr blockSize
    let size ← h.getSize sys block
    let freed := freeLast sys h block size
    let trimmed ← trimLoop sys rounds freed freed.head
    if h.blockEnd = add block size then .ok trimmed else addFree sys rounds trimmed block

/-- `kurealloc`. -/
def kurealloc (sys : System) (rounds : Nat) (h : Heap) (ptr size : Nat) :
    Except Fault (Nat × Heap) :=
  if size = 0 ∧ ptr ≠ 0 then do
    let h ← kufree sys rounds h ptr
    .ok (0, h)
  else if ptr = 0 then kumalloc sys rounds h size
  else do
    let header := sub ptr blockSize
    let prevSize ← h.getSize sys header
    if prevSize ≥ size then .ok (ptr, h)
    else do
      let totalSize := sizeAlign (add size blockSize)
      let result ← kumalloc sys rounds h totalSize
      let h ← memcpy sys result.2 result.1 ptr prevSize
      .ok (result.1, h)

end Comp304.Alloc
