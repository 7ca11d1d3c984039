import Comp304.Alloc.Program
import Comp304.Library.Extents
import Comp304.Library.LinkedChain

/-! Runs of the allocator: which calls a client may make, what the allocator
has handed out, and how states follow each other. The live blocks are tracked
from the calls and their results, not from anything the allocator stores. -/
namespace Comp304.Alloc
open Library.ByteMemory Library.Lp64 Library.Extents Library.LinkedChain

namespace Heap

def sizeAt (h : Heap) (node : Nat) : Nat := loadBytes h.mem node 8
def nextAt (h : Heap) (node : Nat) : Nat := loadBytes h.mem (node + 8) 8
def prevAt (h : Heap) (node : Nat) : Nat := loadBytes h.mem (node + 16) 8

/-- The bytes a list node stands for: `[b, b + b->size)`. -/
def extentAt (h : Heap) (node : Nat) : Extent := ⟨node, h.sizeAt node⟩

/-- The free list, from `head` to NULL, is exactly these nodes in this order. -/
def FreeList (h : Heap) (nodes : List Nat) : Prop := Chain 0 h.nextAt h.head nodes

/-- A node reachable from `head` by following `next`. -/
def OnFreeList (h : Heap) (node : Nat) : Prop := Reach 0 h.nextAt h.head node

end Heap

/-- A block the client holds: where its header is, the size its header had when
the block was handed out, and how many bytes the client asked for. -/
structure Block where
  addr : Nat
  total : Nat
  requested : Nat
  deriving DecidableEq, Repr

namespace Block

/-- The pointer the client has. -/
def ptr (b : Block) : Nat := b.addr + 8

/-- The extent of the block as it was allocated. -/
def extent (b : Block) : Extent := ⟨b.addr, b.total⟩

end Block

/-- One call of the interface. -/
inductive Call where
  | kumalloc (size : Nat)
  | kucalloc (nmemb size : Nat)
  | kufree (ptr : Nat)
  | kurealloc (ptr size : Nat)
  deriving DecidableEq, Repr

/-- `size_align(size + BLOCK_SIZE)` as a number. -/
def exactTotal (size : Nat) : Nat := (size + 15) / 8 * 8

/-- No computation `kumalloc` makes on this request wraps, the conversion of the
capacity to `intptr_t` included. -/
def RequestFits (size : Nat) : Prop :=
  size + 15 < 2 ^ 64 ∧ (exactTotal size / 8192 + 1) * 8192 < 2 ^ 63

instance (size : Nat) : Decidable (RequestFits size) := inferInstanceAs (Decidable (_ ∧ _))

namespace Call

/-- What the code does on the call; `kufree` returns nothing, here NULL. -/
def exec (sys : System) (rounds : Nat) (h : Heap) : Call → Except Fault (Nat × Heap)
  | .kumalloc size => Alloc.kumalloc sys rounds h size
  | .kucalloc nmemb size => Alloc.kucalloc sys rounds h nmemb size
  | .kufree ptr => do
    let h ← Alloc.kufree sys rounds h ptr
    .ok (0, h)
  | .kurealloc ptr size => Alloc.kurealloc sys rounds h ptr size

/-- Only live pointers are freed or resized. -/
def Legal (live : List Block) : Call → Prop
  | .kumalloc _ | .kucalloc _ _ => True
  | .kufree ptr => ∃ b ∈ live, b.ptr = ptr
  | .kurealloc ptr _ => ptr = 0 ∨ ∃ b ∈ live, b.ptr = ptr

instance (live : List Block) : (call : Call) → Decidable (call.Legal live)
  | .kumalloc _ => isTrue trivial
  | .kucalloc _ _ => isTrue trivial
  | .kufree ptr => inferInstanceAs (Decidable (∃ b ∈ live, b.ptr = ptr))
  | .kurealloc ptr _ => inferInstanceAs (Decidable (ptr = 0 ∨ ∃ b ∈ live, b.ptr = ptr))

/-- No size computed for the call wraps. -/
def NoWrap : Call → Prop
  | .kumalloc size => RequestFits size
  | .kucalloc nmemb size =>
    nmemb * size + 7 < 2 ^ 64 ∧ RequestFits ((nmemb * size + 7) / 8 * 8)
  | .kufree _ => True
  | .kurealloc _ size => size + 15 < 2 ^ 64 ∧ RequestFits (exactTotal size)

instance : (call : Call) → Decidable call.NoWrap
  | .kumalloc size => inferInstanceAs (Decidable (RequestFits size))
  | .kucalloc _ _ => inferInstanceAs (Decidable (_ ∧ _))
  | .kufree _ => isTrue trivial
  | .kurealloc _ _ => inferInstanceAs (Decidable (_ ∧ _))

end Call

/-- The heap and the blocks the client holds. -/
structure State where
  heap : Heap
  live : List Block

/-- Add the block just handed out, unless the call returned NULL. -/
def handOut (live : List Block) (result requested : Nat) (h : Heap) : List Block :=
  if result = 0 then live else ⟨result - 8, h.sizeAt (result - 8), requested⟩ :: live

/-- The blocks the client holds after a call, from the result and the header the
call left behind. -/
def track (live : List Block) (call : Call) (result : Nat) (h : Heap) : List Block :=
  match call with
  | .kumalloc size => handOut live result size h
  | .kucalloc nmemb size => handOut live result (nmemb * size) h
  | .kufree ptr => live.filter fun b => b.ptr ≠ ptr
  | .kurealloc ptr size => handOut (live.filter fun b => b.ptr ≠ ptr) result size h

/-- One legal call that returns: nothing wraps, every `sbrk` it makes is
granted, and the heap stays below 2^31 bytes. -/
structure Step (sys : System) (s : State) (call : Call) (s' : State) : Prop where
  legal : call.Legal s.live
  noWrap : call.NoWrap
  returns : ∃ rounds result, call.exec sys rounds s.heap = .ok (result, s'.heap) ∧
    s'.live = track s.live call result s'.heap
  granted : s'.heap.sbrkFailures = s.heap.sbrkFailures
  bounded : s'.heap.brk < sys.base + 2 ^ 31

/-- Between calls the client changes only bytes it asked for; bytes outside the
heap are not the allocator's and may change too. -/
def ClientWrites (sys : System) (s : State) (mem : Memory) : Prop :=
  ∀ address, sys.base ≤ address → address < s.heap.brk →
    (∀ b ∈ s.live, ¬ (b.ptr ≤ address ∧ address < b.ptr + b.requested)) →
    mem address = s.heap.mem address

/-- The states reached from the start when every call is an allowed one. -/
inductive Run (sys : System) (allowed : State → Call → Prop) : State → Prop where
  | start (mem : Memory) : Run sys allowed ⟨Heap.initial sys mem, []⟩
  | client : Run sys allowed s → ClientWrites sys s mem →
      Run sys allowed ⟨{ s.heap with mem := mem }, s.live⟩
  | call : Run sys allowed s → allowed s call → Step sys s call s' → Run sys allowed s'

/-- A run stays a run when more calls are allowed. -/
theorem Run.mono {allowed allowed' : State → Call → Prop}
    (weaker : ∀ s call, allowed s call → allowed' s call) (run : Run sys allowed s) :
    Run sys allowed' s := by
  induction run with
  | start mem => exact .start mem
  | client _ writes ih => exact .client ih writes
  | call _ holds step ih => exact .call ih (weaker _ _ holds) step

/-- Calls of `kumalloc`, `kucalloc` and `kufree`. -/
def Call.Plain : Call → Prop
  | .kurealloc _ _ => False
  | _ => True

instance : (call : Call) → Decidable call.Plain
  | .kurealloc _ _ => isFalse id
  | .kumalloc _ => isTrue trivial
  | .kucalloc _ _ => isTrue trivial
  | .kufree _ => isTrue trivial

/-- A valid run: calls of `kumalloc`, `kucalloc` and `kufree`, in any order. -/
abbrev ValidRun (sys : System) : State → Prop := Run sys fun _ call => call.Plain

/-! ### Scripts: runs given by a list of calls -/

theorem region_aligned : 2 ^ 16 % 8 = 0 := by decide

theorem region_above : 4096 ≤ 2 ^ 16 := by decide

theorem region_order : 2 ^ 16 ≤ 2 ^ 16 + 2 ^ 27 := by decide

theorem region_lt : 2 ^ 16 + 2 ^ 27 < 2 ^ 63 := by decide

/-- The system `intercept.c` provides for the tests: a reserved region of 128 MiB
whose pages are mapped up to the one that holds the break. -/
def pagedSystem : System where
  base := 2 ^ 16
  limit := 2 ^ 16 + 2 ^ 27
  granted _ := true
  mapped brk address :=
    2 ^ 16 ≤ address && address < (brk + 4095) / 4096 * 4096 && address < 2 ^ 16 + 2 ^ 27
  base_aligned := region_aligned
  base_above := region_above
  base_le_limit := region_order
  limit_lt := region_lt
  heap_mapped brk address low below high := by
    simp only [Bool.and_eq_true, decide_eq_true_eq]
    omega
  user_mapped brk address mapped := by
    simp only [Bool.and_eq_true, decide_eq_true_eq] at mapped
    omega

/-- The start of the runs below, with all memory zero. -/
def freshState : State := ⟨Heap.initial pagedSystem fun _ => 0, []⟩

/-- Make one call; `none` if it is not legal or does not return as a `Step` must. -/
def playCall (sys : System) (rounds : Nat) (s : State) (call : Call) : Option State :=
  if call.Legal s.live ∧ call.NoWrap then
    match call.exec sys rounds s.heap with
    | .ok (result, h) =>
      if h.sbrkFailures = s.heap.sbrkFailures ∧ h.brk < sys.base + 2 ^ 31 then
        some ⟨h, track s.live call result h⟩
      else none
    | .error _ => none
  else none

theorem step_of_play (played : playCall sys rounds s call = some s') : Step sys s call s' := by
  unfold playCall at played
  split at played
  · next legal =>
    split at played
    · next result h ran =>
      split at played
      · next quiet =>
        cases played
        exact ⟨legal.1, legal.2, ⟨rounds, result, ran, rfl⟩, quiet.1, quiet.2⟩
      · cases played
    · cases played
  · cases played

/-- Make the calls in turn, as long as each passes the check. -/
def playScript (sys : System) (check : State → Call → Bool) (rounds : Nat) :
    State → List Call → Option State
  | s, [] => some s
  | s, call :: calls =>
    if check s call then
      (playCall sys rounds s call).bind fun s' => playScript sys check rounds s' calls
    else none

/-- A script that plays to the end is a run. -/
theorem run_of_script {allowed : State → Call → Prop} {check : State → Call → Bool}
    (sound : ∀ s call, check s call = true → allowed s call) (run : Run sys allowed s)
    (played : playScript sys check rounds s calls = some s') : Run sys allowed s' := by
  induction calls generalizing s with
  | nil =>
    cases played
    exact run
  | cons call calls ih =>
    simp only [playScript] at played
    split at played
    · next passed =>
      obtain ⟨middle, one, rest⟩ := Option.bind_eq_some_iff.mp played
      exact ih (.call run (sound s call passed) (step_of_play one)) rest
    · cases played

/-- A script of plain calls that ends as tested gives a valid run that does. -/
theorem valid_of_script {test : State → Bool}
    (ends : (playScript pagedSystem (fun _ call => call.Plain) 64 freshState calls).any test = true) :
    ∃ s, ValidRun pagedSystem s ∧ test s = true := by
  obtain ⟨s, played, passed⟩ := (Option.any_eq_true _ _).mp ends
  exact ⟨s, run_of_script (fun _ _ plain => of_decide_eq_true plain) (.start _) played, passed⟩

end Comp304.Alloc
