import Comp304.Alloc.Layout

/-! The calls that leave the heap in order. A list node takes 24 bytes, but a
free block may have only 16, and then `prev` is a live neighbour's header; and
`prev` itself is not kept up by every path that changes the list. A clean call
is one whose path neither writes the `prev` of a block too small for it nor
follows a `prev` that is out of date, and whose three-way merge, if it is one,
finds the neighbours in an order the pointer updates are right for. -/
namespace Comp304.Alloc
open Library.LinkedChain

namespace Heap

/-- The block the first-fit search takes. -/
def firstFit (h : Heap) (nodes : List Nat) (total : Nat) : Option Nat :=
  nodes.find? fun n => total ≤ h.sizeAt n

/-- The listed block that ends at the address. -/
def leftOf (h : Heap) (nodes : List Nat) (address : Nat) : Option Nat :=
  nodes.find? fun n => n + h.sizeAt n = address

/-- The node is the first one, or its `prev` is the node before it. -/
def LinkedBack (h : Heap) (nodes : List Nat) (node : Nat) : Prop :=
  ∀ before ∈ nodes, Follows nodes before node → h.prevAt node = before

instance (h : Heap) (nodes : List Nat) (node : Nat) : Decidable (h.LinkedBack nodes node) :=
  inferInstanceAs (Decidable (∀ before ∈ nodes, _ → _))

end Heap

/-- The reused block leaves a remainder that can hold a node, and the node after
it, whose `prev` is written unless the head is reused, can too. -/
def ReusesCleanly (h : Heap) (nodes : List Nat) (total : Nat) : Prop :=
  ∀ block ∈ h.firstFit nodes total, total + 24 ≤ h.sizeAt block ∧
    (block ≠ h.head → ∀ after ∈ nodes, Follows nodes block after → 24 ≤ h.sizeAt after)

instance (h : Heap) (nodes : List Nat) (total : Nat) : Decidable (ReusesCleanly h nodes total) :=
  inferInstanceAs (Decidable (∀ block ∈ h.firstFit nodes total, _ ∧ (_ → ∀ after ∈ nodes, _ → _)))

/-- The block that is trimmed away, if any, is found through the right node. -/
def TrimsCleanly (h : Heap) (nodes : List Nat) (address : Nat) : Prop :=
  ∀ left ∈ h.leftOf nodes address, h.LinkedBack nodes left

instance (h : Heap) (nodes : List Nat) (address : Nat) : Decidable (TrimsCleanly h nodes address) :=
  inferInstanceAs (Decidable (∀ left ∈ h.leftOf nodes address, _))

/-- Both neighbours are listed in an order the pointer updates are right for:
alone and in address order, or the right one directly before the left one. -/
def JoinsCleanly (h : Heap) (nodes : List Nat) (left right : Nat) : Prop :=
  nodes = [left, right] ∧ h.prevAt right = left ∨
    Follows nodes right left ∧ h.LinkedBack nodes right

instance (h : Heap) (nodes : List Nat) (left right : Nat) :
    Decidable (JoinsCleanly h nodes left right) := inferInstanceAs (Decidable (_ ∨ _))

/-- What `kufree` needs on each of its paths, by which neighbours are free. -/
structure FreesCleanly (h : Heap) (nodes : List Nat) (address total : Nat) : Prop where
  last : h.blockEnd = address + total → TrimsCleanly h nodes address
  alone : h.blockEnd ≠ address + total → h.leftOf nodes address = none →
    address + total ∉ nodes → ∀ first ∈ nodes.head?, 24 ≤ h.sizeAt first
  right : h.blockEnd ≠ address + total → h.leftOf nodes address = none →
    address + total ∈ nodes → h.LinkedBack nodes (address + total)
  both : h.blockEnd ≠ address + total → ∀ left ∈ h.leftOf nodes address,
    address + total ∈ nodes → JoinsCleanly h nodes left (address + total)

instance (h : Heap) (nodes : List Nat) (address total : Nat) :
    Decidable (FreesCleanly h nodes address total) :=
  decidable_of_iff
    ((h.blockEnd = address + total → TrimsCleanly h nodes address) ∧
      (h.blockEnd ≠ address + total → h.leftOf nodes address = none →
        address + total ∉ nodes → ∀ first ∈ nodes.head?, 24 ≤ h.sizeAt first) ∧
      (h.blockEnd ≠ address + total → h.leftOf nodes address = none →
        address + total ∈ nodes → h.LinkedBack nodes (address + total)) ∧
      (h.blockEnd ≠ address + total → ∀ left ∈ h.leftOf nodes address,
        address + total ∈ nodes → JoinsCleanly h nodes left (address + total)))
    ⟨fun ⟨last, alone, right, both⟩ => ⟨last, alone, right, both⟩,
      fun ⟨last, alone, right, both⟩ => ⟨last, alone, right, both⟩⟩

/-- The condition on one call, read off the free list before it. -/
def Call.CleanOn (s : State) (nodes : List Nat) : Call → Prop
  | .kumalloc size => 0 < size → ReusesCleanly s.heap nodes (exactTotal size)
  | .kucalloc nmemb size =>
    0 < nmemb * size → ReusesCleanly s.heap nodes (exactTotal ((nmemb * size + 7) / 8 * 8))
  | .kufree ptr => ∀ b ∈ s.live, b.ptr = ptr → FreesCleanly s.heap nodes b.addr b.total
  | .kurealloc _ _ => False

instance (s : State) (nodes : List Nat) : (call : Call) → Decidable (call.CleanOn s nodes)
  | .kumalloc _ => inferInstanceAs (Decidable (_ → _))
  | .kucalloc _ _ => inferInstanceAs (Decidable (_ → _))
  | .kufree ptr => inferInstanceAs (Decidable (∀ b ∈ s.live, b.ptr = ptr → _))
  | .kurealloc _ _ => isFalse id

/-- A clean call of `kumalloc`, `kucalloc` or `kufree`. -/
def Call.Clean (s : State) (call : Call) : Prop :=
  ∀ nodes, s.heap.FreeList nodes → call.CleanOn s nodes

/-- A run of clean calls. -/
abbrev CleanRun (sys : System) : State → Prop := Run sys fun s call => call.Plain ∧ call.Clean s

/-- A clean run is a valid run. -/
theorem CleanRun.valid (run : CleanRun sys s) : ValidRun sys s :=
  run.mono fun _ _ clean => clean.1

/-- The free list as far as the budget reaches, if it ends. -/
def Heap.listed (h : Heap) : Nat → Nat → Option (List Nat)
  | 0, _ => none
  | rounds + 1, node =>
    if node = 0 then some [] else (listed h rounds (h.nextAt node)).map (node :: ·)

theorem Heap.listed_chain {h : Heap} (walked : h.listed rounds node = some nodes) :
    Chain 0 h.nextAt node nodes := by
  induction rounds generalizing node nodes with
  | zero => cases walked
  | succ rounds ih =>
    simp only [listed] at walked
    split at walked
    · next null =>
      cases walked
      exact chain_nil.mpr null
    · next nonnull =>
      obtain ⟨rest, tail, rfl⟩ := Option.map_eq_some_iff.mp walked
      exact chain_cons.mpr ⟨rfl, nonnull, ih tail⟩

/-- A test passed by the list that was walked is passed by the free list. -/
theorem Heap.listed_any {h : Heap} {test : List Nat → Bool}
    (passed : (h.listed rounds h.head).any test = true) (list : h.FreeList nodes) :
    test nodes = true := by
  obtain ⟨walked, found, holds⟩ := (Option.any_eq_true _ _).mp passed
  exact chain_unique (Heap.listed_chain found) list ▸ holds

/-- Whether the call is clean, for scripts. -/
def Call.checkClean (s : State) (call : Call) : Bool :=
  match s.heap.listed 64 s.heap.head with
  | none => false
  | some nodes => call.Plain ∧ call.CleanOn s nodes

theorem Call.checkClean_sound (s : State) (call : Call) (passed : call.checkClean s = true) :
    call.Plain ∧ call.Clean s := by
  unfold checkClean at passed
  split at passed
  · cases passed
  · next nodes walked =>
    have holds := of_decide_eq_true passed
    refine ⟨holds.1, fun nodes' list => ?_⟩
    exact chain_unique (Heap.listed_chain walked) list ▸ holds.2

/-- A script of clean calls that ends as tested gives a clean run that does. -/
theorem clean_of_script {test : State → Bool}
    (ends : (playScript pagedSystem Call.checkClean 64 freshState calls).any test = true) :
    ∃ s, CleanRun pagedSystem s ∧ test s = true := by
  obtain ⟨s, played, passed⟩ := (Option.any_eq_true _ _).mp ends
  exact ⟨s, run_of_script Call.checkClean_sound (.start _) played, passed⟩

end Comp304.Alloc
