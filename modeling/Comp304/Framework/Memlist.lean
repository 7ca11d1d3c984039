import Comp304.Library.Budget
import Comp304.Library.DoubleChain
import Comp304.Library.Lp64
import Mathlib.Algebra.Group.Nat.Defs
import Mathlib.Logic.Function.Basic

/-! The lists of memory regions of the test framework, `memlist.c`. All lists share
one supply of `struct mem_region` objects, which are mapped in batches and kept on a
free list. Objects are numbered in the order in which they are mapped, from 1 on, and
0 is NULL. An access through a pointer to no object is a fault. -/
namespace Comp304.Framework
open Library.Budget Library.LinkedChain Library.Lp64

/-- Why the framework stops: a fault, a budget of rounds that is spent, or one of its
own messages, with the values that it shows. -/
inductive Failure where
  | segv
  | spent
  | unreachable
  | freelistNotEmpty
  | noFreeObject
  | invalidRegion (start stop len : Nat)
  | overlaps (start stop start' stop' : Nat)
  deriving DecidableEq, Repr

/-- `struct mem_region`, the memory `[start, stop)`. -/
structure Region where
  start : Nat
  stop : Nat
  data : Nat
  next : Nat
  prev : Nat
  deriving DecidableEq, Repr

inductive ListName where
  | allocs
  | freedAllocs
  | zeroSizedAllocs
  | freelist
  deriving DecidableEq, Repr

/-- The objects and the lists. Objects from `fresh` on are not mapped yet. -/
structure Store where
  regions : Nat → Region
  head : ListName → Nat
  tail : ListName → Nat
  fresh : Nat

def Store.initial : Store := ⟨fun _ => ⟨0, 0, 0, 0, 0⟩, fun _ => 0, fun _ => 0, 1⟩

namespace Store

def next (st : Store) (p : Nat) : Nat := (st.regions p).next
def prev (st : Store) (p : Nat) : Nat := (st.regions p).prev

/-- There is an object that the pointer leads to. -/
def Mapped (st : Store) (p : Nat) : Prop := p ≠ 0 ∧ p < st.fresh

instance (st : Store) (p : Nat) : Decidable (st.Mapped p) := inferInstanceAs (Decidable (_ ∧ _))

def get (st : Store) (p : Nat) : Except Failure Region :=
  if st.Mapped p then .ok (st.regions p) else .error .segv

/-- The store with one object changed. -/
def put (st : Store) (p : Nat) (change : Region → Region) : Store :=
  { st with regions := Function.update st.regions p (change (st.regions p)) }

def set (st : Store) (p : Nat) (change : Region → Region) : Except Failure Store :=
  if st.Mapped p then .ok (st.put p change) else .error .segv

/-- `if (p) p->... = ...;` -/
def setIf (st : Store) (p : Nat) (change : Region → Region) : Except Failure Store :=
  if p = 0 then .ok st else st.set p change

def setHead (st : Store) (list : ListName) (p : Nat) : Store :=
  { st with head := Function.update st.head list p }

def setTail (st : Store) (list : ListName) (p : Nat) : Store :=
  { st with tail := Function.update st.tail list p }

end Store

/-- `memlist_insert_front`, which leaves the `prev` of the new object as it is. -/
def insertFront (list : ListName) (new : Nat) (st : Store) : Except Failure Store := do
  let head := st.head list
  let st ← st.set new fun r => { r with next := head }
  let st ← st.setIf head fun r => { r with prev := new }
  let st := st.setHead list new
  return if st.tail list = 0 then st.setTail list new else st

/-- `memlist_insert_after` -/
def insertAfter (list : ListName) (after new : Nat) (st : Store) : Except Failure Store := do
  let next := (← st.get after).next
  let st ← st.set new fun r => { r with next := next, prev := after }
  let st ← st.set after fun r => { r with next := new }
  let next := (← st.get new).next
  if next ≠ 0 then st.set next fun r => { r with prev := new } else .ok (st.setTail list new)

/-- `memlist_remove` -/
def remove (list : ListName) (obj : Nat) (st : Store) : Except Failure Store := do
  let o ← st.get obj
  let st ← st.setIf o.next fun r => { r with prev := o.prev }
  let o ← st.get obj
  let st ← st.setIf o.prev fun r => { r with next := o.next }
  let o ← st.get obj
  let st := if st.head list = obj then st.setHead list o.next else st
  let st := if st.tail list = obj then st.setTail list o.prev else st
  st.set obj fun r => { r with next := 0, prev := 0 }

/-- How many objects fit in the sixteen pages that are mapped at a time. -/
def objectsMapped : Nat := 16 * 4096 / 40

/-- `populate_freelist` -/
def populateFreelist (st : Store) : Except Failure Store :=
  if st.head .freelist ≠ 0 then .error .freelistNotEmpty
  else (List.range' st.fresh objectsMapped).foldlM (fun st p => insertFront .freelist p st)
    { st with fresh := st.fresh + objectsMapped }

/-- `if (!freelist.head) populate_freelist();` -/
def supply (st : Store) : Except Failure Store :=
  if st.head .freelist = 0 then populateFreelist st else .ok st

/-- `alloc_region_object`: the object, with the `data` of its last use. -/
def allocRegionObject (start stop : Nat) (st : Store) : Except Failure (Nat × Store) := do
  let st ← supply st
  let ret := st.head .freelist
  if ret = 0 then .error .noFreeObject
  else
    let st ← remove .freelist ret st
    let st ← st.set ret fun r => { r with start := start, stop := stop }
    return (ret, st)

/-- `memlist_free_region_object` -/
def freeRegionObject (obj : Nat) (st : Store) : Except Failure Store := insertFront .freelist obj st

/-- `regions_overlap` -/
def regionsOverlap (region1 region2 : Region) : Bool :=
  !(region1.stop ≤ region2.start || region1.start ≥ region2.stop)

/-- The loop of `memlist_find_overlap`. -/
def overlapLoop (region : Region) (st : Store) : Nat → Nat → Except Failure Bool
  | 0, _ => .error .spent
  | rounds + 1, tmp =>
    if tmp = 0 then .ok false
    else do
      let r ← st.get tmp
      if regionsOverlap r region then return true
      else if r.stop ≤ region.start then return false
      else overlapLoop region st rounds r.next

/-- `memlist_find_overlap`, which returns its argument or NULL. -/
def findOverlap (rounds : Nat) (list : ListName) (region : Region) (st : Store) :
    Except Failure Bool :=
  if st.head list = 0 then .ok false
  else do
    let first ← st.get (st.head list)
    if region.stop ≤ first.start then return false
    else
      let last ← st.get (st.tail list)
      if region.start ≥ last.stop then return false
      else overlapLoop region st rounds (st.head list)

/-- The loop of `memlist_find_overlap_unsorted`. -/
def overlapUnsortedLoop (region : Region) (st : Store) : Nat → Nat → Except Failure Bool
  | 0, _ => .error .spent
  | rounds + 1, tmp =>
    if tmp = 0 then .ok false
    else do
      let r ← st.get tmp
      if regionsOverlap r region then return true
      else overlapUnsortedLoop region st rounds r.next

def findOverlapUnsorted (rounds : Nat) (list : ListName) (region : Region) (st : Store) :
    Except Failure Bool := overlapUnsortedLoop region st rounds (st.head list)

/-- The loop of `memlist_add_region`: behind which object the new one goes. -/
def placeLoop (start stop : Nat) (new : Region) (st : Store) : Nat → Nat → Except Failure Nat
  | 0, _ => .error .spent
  | rounds + 1, region =>
    if region = 0 then .error .unreachable
    else do
      let r ← st.get region
      if regionsOverlap new r then .error (.overlaps start stop r.start r.stop)
      else if start ≥ r.stop then
        if r.next = 0 then return region
        else
          let follower ← st.get r.next
          if follower.start ≥ stop then return region
          else placeLoop start stop new st rounds r.next
      else placeLoop start stop new st rounds r.next

/-- Whether there is no region on the list that begins before `stop`. -/
def goesFirst (list : ListName) (stop : Nat) (st : Store) : Except Failure Bool :=
  if st.head list = 0 then .ok true
  else do
    let first ← st.get (st.head list)
    return decide (stop ≤ first.start)

/-- The part of `memlist_add_region` that puts the new object into the list. -/
def placeRegion (rounds : Nat) (list : ListName) (start stop new : Nat) (st : Store) :
    Except Failure Store := do
  if ← goesFirst list stop st then insertFront list new st
  else
    let last ← st.get (st.tail list)
    if start ≥ last.stop then insertAfter list (st.tail list) new st
    else
      let object ← st.get new
      let region ← placeLoop start stop object st rounds (st.head list)
      insertAfter list region new st

/-- `memlist_add_region` -/
def addRegion (rounds : Nat) (list : ListName) (start len : Nat) (st : Store) :
    Except Failure (Nat × Store) := do
  let stop := (start + len) % 2 ^ 64
  if ¬ start < stop then .error (.invalidRegion start stop len)
  else
    let (new, st) ← allocRegionObject start stop st
    let st ← placeRegion rounds list start stop new st
    return (new, st)

/-- `memlist_find`: the object of the region that contains `ptr`, or NULL. -/
def findLoop (ptr : Nat) (st : Store) : Nat → Nat → Except Failure Nat
  | 0, _ => .error .spent
  | rounds + 1, region =>
    if region = 0 then .ok 0
    else do
      let r ← st.get region
      if ptr < r.start then return 0
      else if ptr < r.stop then return region
      else findLoop ptr st rounds r.next

def find (rounds : Nat) (list : ListName) (ptr : Nat) (st : Store) : Except Failure Nat :=
  findLoop ptr st rounds (st.head list)

/-- `memlist_length` -/
def lengthLoop (st : Store) : Nat → Nat → Nat → Except Failure Nat
  | 0, _, _ => .error .spent
  | rounds + 1, region, cnt =>
    if region = 0 then .ok cnt
    else do
      let r ← st.get region
      lengthLoop st rounds r.next (cnt + 1)

def length (rounds : Nat) (list : ListName) (st : Store) : Except Failure Nat :=
  lengthLoop st rounds (st.head list) 0

/-- `memlist_byte_size` -/
def byteSizeLoop (st : Store) : Nat → Nat → Nat → Except Failure Nat
  | 0, _, _ => .error .spent
  | rounds + 1, region, cnt =>
    if region = 0 then .ok cnt
    else do
      let r ← st.get region
      byteSizeLoop st rounds r.next (add cnt (sub r.stop r.start))

def byteSize (rounds : Nat) (list : ListName) (st : Store) : Except Failure Nat :=
  byteSizeLoop st rounds (st.head list) 0

/-! ### The shape of the lists -/

/-- The lists have these objects, in this order. No object is on two lists, and the
objects that are not mapped yet are zero. -/
structure Shape (st : Store) (lists : ListName → List Nat) : Prop where
  doubly : ∀ list, Doubly 0 st.next st.prev (st.head list) (st.tail list) (lists list)
  apart : ∀ {list list' p}, p ∈ lists list → p ∈ lists list' → list = list'
  mapped : ∀ {list p}, p ∈ lists list → st.Mapped p
  blank : ∀ p, st.fresh ≤ p → st.prev p = 0
  fresh : 0 < st.fresh

/-- An object that is on no list, and is ready to be put on one. -/
structure Loose (st : Store) (lists : ListName → List Nat) (p : Nat) : Prop where
  mapped : st.Mapped p
  unlisted : ∀ list, p ∉ lists list
  prev : st.prev p = 0

/-- No region has been changed, only links. -/
def SameRegions (st st' : Store) : Prop := ∀ p, (st'.regions p).start = (st.regions p).start ∧
  (st'.regions p).stop = (st.regions p).stop ∧ (st'.regions p).data = (st.regions p).data

section
variable {st st' : Store} {lists : ListName → List Nat} {list : ListName} {p : Nat}
  {change : Region → Region}

theorem get_ok (mapped : st.Mapped p) : st.get p = .ok (st.regions p) := if_pos mapped

theorem set_ok (mapped : st.Mapped p) : st.set p change = .ok (st.put p change) := if_pos mapped

/-- The store after a write through a pointer that may be NULL. -/
def Store.putIf (st : Store) (p : Nat) (change : Region → Region) : Store :=
  if p = 0 then st else st.put p change

theorem setIf_ok (mapped : p ≠ 0 → st.Mapped p) : st.setIf p change = .ok (st.putIf p change) := by
  by_cases null : p = 0
  · rw [Store.setIf, Store.putIf, if_pos null, if_pos null]
  · rw [Store.setIf, Store.putIf, if_neg null, if_neg null, set_ok (mapped null)]

@[simp] theorem put_mapped (st : Store) (p q : Nat) : (st.put p change).Mapped q ↔ st.Mapped q := Iff.rfl

@[simp] theorem putIf_mapped (st : Store) (p q : Nat) :
    (st.putIf p change).Mapped q ↔ st.Mapped q := by
  unfold Store.putIf
  split <;> rfl

@[simp] theorem setHead_mapped (st : Store) (q : Nat) :
    (st.setHead list p).Mapped q ↔ st.Mapped q := Iff.rfl

@[simp] theorem setTail_mapped (st : Store) (q : Nat) :
    (st.setTail list p).Mapped q ↔ st.Mapped q := Iff.rfl

@[simp] theorem putIf_head (st : Store) (p : Nat) : (st.putIf p change).head = st.head := by
  unfold Store.putIf
  split <;> rfl

@[simp] theorem putIf_tail (st : Store) (p : Nat) : (st.putIf p change).tail = st.tail := by
  unfold Store.putIf
  split <;> rfl

@[simp] theorem putIf_fresh (st : Store) (p : Nat) : (st.putIf p change).fresh = st.fresh := by
  unfold Store.putIf
  split <;> rfl

@[simp] theorem put_head (st : Store) (p : Nat) : (st.put p change).head = st.head := rfl
@[simp] theorem put_tail (st : Store) (p : Nat) : (st.put p change).tail = st.tail := rfl
@[simp] theorem put_fresh (st : Store) (p : Nat) : (st.put p change).fresh = st.fresh := rfl
@[simp] theorem setHead_regions (st : Store) : (st.setHead list p).regions = st.regions := rfl
@[simp] theorem setHead_tail (st : Store) : (st.setHead list p).tail = st.tail := rfl
@[simp] theorem setHead_fresh (st : Store) : (st.setHead list p).fresh = st.fresh := rfl
@[simp] theorem setTail_regions (st : Store) : (st.setTail list p).regions = st.regions := rfl
@[simp] theorem setTail_head (st : Store) : (st.setTail list p).head = st.head := rfl
@[simp] theorem setTail_fresh (st : Store) : (st.setTail list p).fresh = st.fresh := rfl

@[simp] theorem setHead_head (st : Store) (list' : ListName) :
    (st.setHead list p).head list' = if list' = list then p else st.head list' := by
  simp [Store.setHead, Function.update_apply]

@[simp] theorem setTail_tail (st : Store) (list' : ListName) :
    (st.setTail list p).tail list' = if list' = list then p else st.tail list' := by
  simp [Store.setTail, Function.update_apply]

@[simp] theorem put_regions (st : Store) (p q : Nat) :
    (st.put p change).regions q = if q = p then change (st.regions p) else st.regions q := by
  simp [Store.put, Function.update_apply]

@[simp] theorem putIf_regions (st : Store) (p q : Nat) : (st.putIf p change).regions q =
    if p ≠ 0 ∧ q = p then change (st.regions p) else st.regions q := by
  unfold Store.putIf
  split
  · next null => simp [null]
  · next nonnull => simp [nonnull]

theorem Shape.get (shape : Shape st lists) (inside : p ∈ lists list) :
    st.get p = .ok (st.regions p) := get_ok (shape.mapped inside)

theorem shape_initial : Shape .initial fun _ => [] where
  doubly _ := doubly_nil
  apart := nofun
  mapped := nofun
  blank _ _ := rfl
  fresh := Nat.one_pos

theorem mem_update {nodes : List Nat} {list' : ListName}
    (inside : p ∈ Function.update lists list nodes list') :
    list' = list ∧ p ∈ nodes ∨ list' ≠ list ∧ p ∈ lists list' := by
  by_cases same : list' = list
  · subst same
    rw [Function.update_self] at inside
    exact Or.inl ⟨rfl, inside⟩
  · rw [Function.update_of_ne same] at inside
    exact Or.inr ⟨same, inside⟩

/-- One list is edited. Its objects were on it before, or on none. -/
theorem Shape.edit (shape : Shape st lists) {nodes : List Nat}
    (doubly : Doubly 0 st'.next st'.prev (st'.head list) (st'.tail list) nodes)
    (heads : ∀ list' ≠ list, st'.head list' = st.head list')
    (tails : ∀ list' ≠ list, st'.tail list' = st.tail list')
    (links : ∀ p, p ∉ lists list → p ∉ nodes → st'.next p = st.next p ∧ st'.prev p = st.prev p)
    (members : ∀ p ∈ nodes, p ∈ lists list ∨ st.Mapped p ∧ ∀ list, p ∉ lists list)
    (fresh : st'.fresh = st.fresh) : Shape st' (Function.update lists list nodes) where
  doubly list' := by
    by_cases same : list' = list
    · subst same
      rw [Function.update_self]
      exact doubly
    · rw [Function.update_of_ne same, heads list' same, tails list' same]
      have elsewhere : ∀ p ∈ lists list', p ∉ lists list ∧ p ∉ nodes := by
        intro p inside
        have other : p ∉ lists list := fun inside' => same (shape.apart inside inside')
        refine ⟨other, fun inside' => ?_⟩
        obtain member | ⟨-, unlisted⟩ := members p inside'
        · exact other member
        · exact unlisted list' inside
      exact (shape.doubly list').congr
        (fun p inside => (links p (elsewhere p inside).1 (elsewhere p inside).2).1)
        (fun p inside => (links p (elsewhere p inside).1 (elsewhere p inside).2).2)
  apart {list₁ list₂ p} inside₁ inside₂ := by
    have alone {list'} (other : list' ≠ list) (inside : p ∈ nodes) : p ∉ lists list' := by
      obtain member | ⟨-, unlisted⟩ := members p inside
      · exact fun inside' => other (shape.apart inside' member)
      · exact unlisted list'
    obtain ⟨rfl, own₁⟩ | ⟨other₁, kept₁⟩ := mem_update inside₁
    · obtain ⟨rfl, -⟩ | ⟨other₂, kept₂⟩ := mem_update inside₂
      · rfl
      · exact absurd kept₂ (alone other₂ own₁)
    · obtain ⟨rfl, own₂⟩ | ⟨-, kept₂⟩ := mem_update inside₂
      · exact absurd kept₁ (alone other₁ own₂)
      · exact shape.apart kept₁ kept₂
  mapped {list' p} inside := by
    rw [Store.Mapped, fresh]
    obtain ⟨-, own⟩ | ⟨-, inside⟩ := mem_update inside
    · exact (members p own).elim shape.mapped And.left
    · exact shape.mapped inside
  blank p unmapped := by
    rw [fresh] at unmapped
    have unlisted : p ∉ lists list := fun inside => absurd (shape.mapped inside).2 (by omega)
    have other : p ∉ nodes := fun inside =>
      (members p inside).elim unlisted fun ⟨mapped, _⟩ => absurd mapped.2 (by omega)
    rw [(links p unlisted other).2, shape.blank p unmapped]
  fresh := fresh ▸ shape.fresh

/-- What an edit of one list leaves as it was. -/
structure Edit (list : ListName) (st st' : Store) : Prop where
  heads : ∀ list' ≠ list, st'.head list' = st.head list'
  tails : ∀ list' ≠ list, st'.tail list' = st.tail list'
  regions : SameRegions st st'
  fresh : st'.fresh = st.fresh

theorem SameRegions.refl (st : Store) : SameRegions st st := fun _ => ⟨rfl, rfl, rfl⟩

theorem SameRegions.trans {st'' : Store} (first : SameRegions st st') (second : SameRegions st' st'') :
    SameRegions st st'' := fun p =>
  ⟨(second p).1.trans (first p).1, (second p).2.1.trans (first p).2.1,
    (second p).2.2.trans (first p).2.2⟩

theorem Edit.refl (list : ListName) (st : Store) : Edit list st st :=
  ⟨fun _ _ => rfl, fun _ _ => rfl, .refl st, rfl⟩

theorem Edit.trans {st'' : Store} (first : Edit list st st') (second : Edit list st' st'') :
    Edit list st st'' where
  heads other apart := (second.heads other apart).trans (first.heads other apart)
  tails other apart := (second.tails other apart).trans (first.tails other apart)
  regions := first.regions.trans second.regions
  fresh := second.fresh.trans first.fresh

/-- The writes of `memlist_insert_front`. -/
theorem insertFront_run (list : ListName) (mapped : st.Mapped p)
    (first : st.head list ≠ 0 → st.Mapped (st.head list)) (other : st.head list ≠ p) :
    ∃ st', insertFront list p st = .ok st' ∧ Edit list st st' ∧ st'.head list = p ∧
      st'.tail list = (if st.tail list = 0 then p else st.tail list) ∧
      (∀ q, st'.next q = if q = p then st.head list else st.next q) ∧
      ∀ q, st'.prev q = if st.head list ≠ 0 ∧ q = st.head list then p else st.prev q := by
  simp only [insertFront, set_ok mapped, ok_bind]
  rw [setIf_ok (by simpa using first), ok_bind]
  refine ⟨_, rfl, ⟨fun list' other' => ?_, fun list' other' => ?_, fun q => ?_, ?_⟩, ?_, ?_, fun q => ?_, fun q => ?_⟩
  · split_ifs <;> simp [other']
  · split_ifs <;> simp [other']
  · split_ifs <;> simp <;> split_ifs <;> simp_all
  · split_ifs <;> simp
  · split_ifs <;> simp
  · simp only [setHead_tail, putIf_tail, put_tail]
    split_ifs <;> simp
  · simp only [Store.next]
    split_ifs <;> simp <;> split_ifs <;> simp_all
  · simp only [Store.prev]
    split_ifs <;> simp <;> split_ifs <;> simp_all

theorem Shape.head_mapped (shape : Shape st lists) (nonnull : st.head list ≠ 0) :
    st.head list ∈ lists list := by
  have chain := (shape.doubly list).forward
  cases same : lists list with
  | nil =>
    rw [same] at chain
    exact absurd (chain_nil.mp chain) nonnull
  | cons first rest =>
    rw [same] at chain
    rw [chain.head_eq]
    exact List.mem_cons_self

/-- `memlist_insert_front` puts the object first. -/
theorem insertFront_spec (shape : Shape st lists) (list : ListName) (loose : Loose st lists p) :
    ∃ st', insertFront list p st = .ok st' ∧ Edit list st st' ∧
      Shape st' (Function.update lists list (p :: lists list)) ∧
      ∀ q, q ≠ p → q ∉ lists list → st'.prev q = st.prev q := by
  have unlisted := loose.unlisted list
  have other : st.head list ≠ p := fun same =>
    unlisted (same ▸ shape.head_mapped (same ▸ loose.mapped.1))
  obtain ⟨st', ran, edit, head, tail, next, prev⟩ := insertFront_run list loose.mapped
    (fun nonnull => shape.mapped (shape.head_mapped nonnull)) other
  have apart : ∀ q ∈ lists list, q ≠ p := fun q inside same => unlisted (same ▸ inside)
  have prevs : ∀ q, q ∉ lists list → st'.prev q = st.prev q := by
    intro q outside
    rw [prev, if_neg]
    rintro ⟨nonnull, rfl⟩
    exact outside (shape.head_mapped nonnull)
  refine ⟨st', ran, edit, shape.edit ?_ edit.heads edit.tails (fun q outside outside' => ⟨?_, prevs q outside⟩)
    (fun q inside => ?_) edit.fresh, fun q _ outside => prevs q outside⟩
  · rw [head]
    refine (shape.doubly list).push loose.mapped.1 ?_ ?_ (fun q inside => ?_) (fun q inside => ?_) tail
    · rw [next, if_pos rfl]
    · rw [prevs p unlisted, loose.prev]
    · rw [next, if_neg (apart q inside)]
    · rw [prev]
      refine if_congr ⟨fun same => same.2.symm, fun same => ⟨?_, same.symm⟩⟩ rfl rfl
      exact same ▸ (shape.mapped inside).1
  · have apart : q ≠ p := fun same => outside' (same ▸ List.mem_cons_self)
    rw [next, if_neg apart]
  · obtain rfl | inside := List.mem_cons.mp inside
    · exact Or.inr ⟨loose.mapped, loose.unlisted⟩
    · exact Or.inl inside

/-- The writes of `memlist_insert_after`. -/
theorem insertAfter_run (list : ListName) {after : Nat} (mapped : st.Mapped p)
    (mapped' : st.Mapped after) (other : p ≠ after)
    (onward : st.next after ≠ 0 → st.Mapped (st.next after)) (apart : st.next after ≠ p) :
    ∃ st', insertAfter list after p st = .ok st' ∧ Edit list st st' ∧
      st'.head list = st.head list ∧
      st'.tail list = (if st.next after = 0 then p else st.tail list) ∧
      (∀ q, st'.next q = if q = after then p else if q = p then st.next after else st.next q) ∧
      ∀ q, st'.prev q = if st.next after ≠ 0 ∧ q = st.next after then p
        else if q = p then after else st.prev q := by
  let linked := (st.put p fun r => { r with next := st.next after, prev := after }).put after
    fun r => { r with next := p }
  have reread : (linked.regions p).next = st.next after := by simp [linked, other]
  have ran : insertAfter list after p st = if st.next after ≠ 0 then
      linked.set (st.next after) fun r => { r with prev := p } else .ok (linked.setTail list p) := by
    simp only [insertAfter, get_ok mapped', ok_bind, set_ok mapped]
    rw [set_ok (by simpa using mapped'), ok_bind, get_ok (by simpa using mapped), ok_bind, ← reread]
    rfl
  by_cases last : st.next after = 0
  · rw [if_neg (not_not.mpr last)] at ran
    refine ⟨_, ran, ⟨fun list' other' => rfl, fun list' other' => ?_, fun q => ?_, rfl⟩, rfl, ?_,
      fun q => ?_, fun q => ?_⟩
    · simp [linked, other']
    · simp only [linked, setTail_regions, put_regions]
      split_ifs <;> simp_all
    · simp [last]
    · simp only [Store.next, linked, setTail_regions, put_regions]
      split_ifs <;> simp_all
    · simp only [Store.prev, linked, setTail_regions, put_regions]
      split_ifs <;> simp_all
  · have onward' : linked.Mapped (st.next after) := onward last
    rw [if_pos last, set_ok onward'] at ran
    refine ⟨_, ran, ⟨fun list' other' => rfl, fun list' other' => rfl, fun q => ?_, rfl⟩, rfl, ?_,
      fun q => ?_, fun q => ?_⟩
    · simp only [linked, put_regions]
      split_ifs <;> simp_all
    · rw [if_neg last]
      rfl
    · simp only [Store.next, linked, put_regions]
      grind
    · simp only [Store.prev, linked, put_regions]
      grind

/-- The writes of `memlist_remove`. -/
theorem remove_run (list : ListName) (mapped : st.Mapped p)
    (onward : st.next p ≠ 0 → st.Mapped (st.next p)) (back : st.prev p ≠ 0 → st.Mapped (st.prev p))
    (other : st.next p ≠ p) (other' : st.prev p ≠ p) :
    ∃ st', remove list p st = .ok st' ∧ Edit list st st' ∧
      st'.head list = (if st.head list = p then st.next p else st.head list) ∧
      st'.tail list = (if st.tail list = p then st.prev p else st.tail list) ∧
      (∀ q, st'.next q = if q = p then 0
        else if st.prev p ≠ 0 ∧ q = st.prev p then st.next p else st.next q) ∧
      ∀ q, st'.prev q = if q = p then 0
        else if st.next p ≠ 0 ∧ q = st.next p then st.prev p else st.prev q := by
  let after := st.putIf (st.next p) fun r => { r with prev := st.prev p }
  let around := after.putIf (st.prev p) fun r => { r with next := st.next p }
  have first : (after.regions p) = st.regions p := by
    simp only [after, putIf_regions]
    grind
  have second : (around.regions p) = st.regions p := by
    simp only [around, putIf_regions, first]
    grind
  let headed := if around.head list = p then around.setHead list (st.next p) else around
  let tailed := if headed.tail list = p then headed.setTail list (st.prev p) else headed
  have mapped₁ : ∀ q, after.Mapped q ↔ st.Mapped q := putIf_mapped st (st.next p)
  have mapped₂ : ∀ q, around.Mapped q ↔ st.Mapped q := fun q =>
    (putIf_mapped after (st.prev p) q).trans (mapped₁ q)
  have mapped₃ : tailed.Mapped p := by
    simp only [tailed, headed]
    split_ifs <;> simpa [mapped₂] using mapped
  have ran : remove list p st = .ok (tailed.put p fun r => { r with next := 0, prev := 0 }) := by
    have one : st.setIf (st.regions p).next (fun r => { r with prev := (st.regions p).prev }) =
        .ok after := setIf_ok onward
    have two : after.setIf (st.regions p).prev (fun r => { r with next := (st.regions p).next }) =
        .ok around := setIf_ok fun nonnull => (mapped₁ _).mpr (back nonnull)
    simp only [remove, get_ok mapped, ok_bind]
    rw [one, ok_bind, get_ok ((mapped₁ p).mpr mapped), ok_bind, first, two, ok_bind,
      get_ok ((mapped₂ p).mpr mapped), ok_bind, second]
    exact set_ok mapped₃
  have regions : tailed.regions = around.regions := by
    simp only [tailed, headed]
    split_ifs <;> rfl
  refine ⟨_, ran, ⟨fun list' other => ?_, fun list' other => ?_, fun q => ?_, ?_⟩, ?_, ?_, fun q => ?_,
    fun q => ?_⟩
  · simp only [put_head, tailed, headed]
    split_ifs <;> simp [around, after, other]
  · simp only [put_tail, tailed, headed]
    split_ifs <;> simp [around, after, other]
  · simp only [put_regions, regions, around, after, putIf_regions]
    grind
  · simp only [put_fresh, tailed, headed]
    split_ifs <;> simp [around, after]
  · have same : around.head list = st.head list := by simp [around, after]
    simp only [put_head, tailed, headed, same]
    split_ifs <;> simp [same]
  · have same : around.tail list = st.tail list := by simp [around, after]
    simp only [put_tail, tailed, headed]
    split_ifs <;> simp_all
  · simp only [Store.next, put_regions, regions, around, after, putIf_regions]
    grind
  · simp only [Store.prev, put_regions, regions, around, after, putIf_regions]
    grind

theorem Shape.next_mem (shape : Shape st lists) (inside : p ∈ lists list) (nonnull : st.next p ≠ 0) :
    st.next p ∈ lists list := ((shape.doubly list).forward.next_mem inside).resolve_left nonnull

theorem Shape.prev_mem (shape : Shape st lists) (inside : p ∈ lists list) (nonnull : st.prev p ≠ 0) :
    st.prev p ∈ lists list := by
  have member := (shape.doubly list).backward.next_mem (List.mem_reverse.mpr inside)
  exact List.mem_reverse.mp (member.resolve_left nonnull)

/-- `memlist_insert_after` puts the object behind the given one. -/
theorem insertAfter_spec (shape : Shape st lists) (loose : Loose st lists p)
    (split : lists list = front ++ after :: back) :
    ∃ st', insertAfter list after p st = .ok st' ∧ Edit list st st' ∧
      Shape st' (Function.update lists list (front ++ after :: p :: back)) := by
  have inside : after ∈ lists list := by simp [split]
  have apart : ∀ q ∈ lists list, q ≠ p := fun q inside same => loose.unlisted list (same ▸ inside)
  have doubly := shape.doubly list
  obtain ⟨st', ran, edit, head, tail, next, prev⟩ := insertAfter_run list loose.mapped
    (shape.mapped inside) (apart after inside).symm
    (fun nonnull => shape.mapped (shape.next_mem inside nonnull))
    (fun same => apart _ (shape.next_mem inside (same ▸ loose.mapped.1)) same)
  have prevs : ∀ q ≠ p, st'.prev q =
      if st.next after ≠ 0 ∧ q = st.next after then p else st.prev q := by
    intro q other
    rw [prev, if_neg other]
  refine ⟨st', ran, edit, shape.edit ?_ edit.heads edit.tails (fun q outside outside' => ?_)
    (fun q member => ?_) edit.fresh⟩
  · rw [head]
    have forward : ∀ q ∈ lists list, st.next after = q ↔ st.prev q = after :=
      fun q member => doubly.next_eq_iff inside member
    have ends := doubly.tail_eq_iff inside
    rw [split] at doubly apart forward
    refine doubly.insert loose.mapped.1 ?_ ?_ (fun q member => ?_) ?_ (fun q member => ?_) ?_
    · rw [next, if_pos rfl]
    · rw [next, if_neg (apart after (by simp)).symm, if_pos rfl]
    · have other : q ≠ after := fun same => doubly.forward.not_mem_rest (same ▸ member)
      have member' : q ∈ front ++ after :: back := by
        simp only [List.mem_append, List.mem_cons] at member ⊢
        exact member.imp_right Or.inr
      rw [next, if_neg other, if_neg (apart q member')]
    · rw [prev, if_neg, if_pos rfl]
      rintro ⟨nonnull, same⟩
      exact apart _ (split ▸ shape.next_mem inside nonnull) same.symm
    · rw [prevs q (apart q member)]
      refine if_congr ⟨fun ⟨_, same⟩ => (forward q member).mp same.symm, fun same => ?_⟩ rfl rfl
      have linked := (forward q member).mpr same
      exact ⟨linked ▸ doubly.forward.ne_null member, linked.symm⟩
    · rw [tail]
      exact if_congr ends.symm rfl rfl
  · have other : q ≠ p := fun same => outside' (by simp [same])
    have other' : q ≠ after := fun same => outside (same ▸ inside)
    refine ⟨by rw [next, if_neg other', if_neg other], ?_⟩
    rw [prevs q other, if_neg]
    rintro ⟨nonnull, rfl⟩
    exact outside (shape.next_mem inside nonnull)
  · by_cases same : q = p
    · exact Or.inr (same ▸ ⟨loose.mapped, loose.unlisted⟩)
    · refine Or.inl ?_
      rw [split]
      simpa [same] using member

/-- `memlist_remove` takes the object out. -/
theorem remove_spec (shape : Shape st lists) (split : lists list = front ++ p :: back) :
    ∃ st', remove list p st = .ok st' ∧ Edit list st st' ∧
      Shape st' (Function.update lists list (front ++ back)) ∧
      Loose st' (Function.update lists list (front ++ back)) p := by
  have inside : p ∈ lists list := by simp [split]
  have doubly := shape.doubly list
  obtain ⟨st', ran, edit, head, tail, next, prev⟩ := remove_run list (shape.mapped inside)
    (fun nonnull => shape.mapped (shape.next_mem inside nonnull))
    (fun nonnull => shape.mapped (shape.prev_mem inside nonnull))
    (doubly.forward.no_loop inside) (doubly.backward.no_loop (List.mem_reverse.mpr inside))
  have absent := (split ▸ doubly).forward.not_mem_rest
  have kept : ∀ q ∈ front ++ back, q ∈ lists list := fun q member => by
    rw [split]
    simp only [List.mem_append, List.mem_cons] at member ⊢
    exact member.imp_right Or.inr
  have gone : ∀ list', p ∉ Function.update lists list (front ++ back) list' := by
    intro list' member
    obtain ⟨-, rest⟩ | ⟨other, member⟩ := mem_update member
    · exact absent rest
    · exact other (shape.apart member inside)
  refine ⟨st', ran, edit, shape.edit ?_ edit.heads edit.tails (fun q outside outside' => ?_)
    (fun q member => Or.inl (kept q member)) edit.fresh, ?_, gone, ?_⟩
  · refine (split ▸ doubly).remove (fun q member => ?_) (fun q member => ?_) head tail
    · have other : q ≠ p := fun same => absent (same ▸ member)
      rw [next, if_neg other]
      refine if_congr ?_ rfl rfl
      rw [doubly.next_eq_iff (kept q member) inside]
      exact ⟨fun same => same.2.symm, fun same => ⟨same ▸ (shape.mapped (kept q member)).1, same.symm⟩⟩
    · have other : q ≠ p := fun same => absent (same ▸ member)
      rw [prev, if_neg other]
      refine if_congr ?_ rfl rfl
      rw [← doubly.next_eq_iff inside (kept q member)]
      exact ⟨fun same => same.2.symm, fun same => ⟨same ▸ (shape.mapped (kept q member)).1, same.symm⟩⟩
  · have other : q ≠ p := fun same => outside (same ▸ inside)
    constructor
    · rw [next, if_neg other, if_neg]
      rintro ⟨nonnull, rfl⟩
      exact outside (shape.prev_mem inside nonnull)
    · rw [prev, if_neg other, if_neg]
      rintro ⟨nonnull, rfl⟩
      exact outside (shape.next_mem inside nonnull)
  · rw [Store.Mapped, edit.fresh]
    exact shape.mapped inside
  · rw [prev, if_pos rfl]

/-! ### The supply of objects -/

/-- Some objects that are on no list come onto the free list one after the other. -/
theorem populate_fold (shape : Shape st lists) (first count : Nat) (bound : first + count ≤ st.fresh)
    (unlisted : ∀ q, first ≤ q → ∀ list, q ∉ lists list) (blank : ∀ q, first ≤ q → st.prev q = 0)
    (pos : first ≠ 0) :
    ∃ st', (List.range' first count).foldlM (fun st q => insertFront .freelist q st) st = .ok st' ∧
      Edit .freelist st st' ∧ Shape st' (Function.update lists .freelist
        ((List.range' first count).reverse ++ lists .freelist)) := by
  induction count generalizing first st lists with
  | zero =>
    refine ⟨st, rfl, .refl _ st, ?_⟩
    simpa using shape
  | succ count ih =>
    have loose : Loose st lists first :=
      ⟨⟨pos, by omega⟩, unlisted first (Nat.le_refl _), blank first (Nat.le_refl _)⟩
    obtain ⟨st₁, ran, edit, shape₁, prevs⟩ := insertFront_spec shape .freelist loose
    have unlisted₁ : ∀ q, first + 1 ≤ q → ∀ list,
        q ∉ Function.update lists .freelist (first :: lists .freelist) list := by
      intro q later list member
      obtain ⟨-, own⟩ | ⟨-, member⟩ := mem_update member
      · obtain rfl | member := List.mem_cons.mp own
        · omega
        · exact unlisted q (by omega) _ member
      · exact unlisted q (by omega) list member
    obtain ⟨st₂, rest, edit', shape₂⟩ := ih shape₁ (first + 1) (by rw [edit.fresh]; omega) unlisted₁
      (fun q later => (prevs q (by omega) (unlisted q (by omega) _)).trans (blank q (by omega)))
      (Nat.succ_ne_zero first)
    refine ⟨st₂, ?_, edit.trans edit', ?_⟩
    · rw [List.range'_succ, List.foldlM_cons, ran, ok_bind]
      exact rest
    · rw [Function.update_idem, Function.update_self] at shape₂
      rwa [List.range'_succ, List.reverse_cons, List.append_assoc, List.singleton_append]

theorem Shape.head_eq_zero_iff (shape : Shape st lists) (list : ListName) :
    st.head list = 0 ↔ lists list = [] := by
  have chain := (shape.doubly list).forward
  constructor
  · exact fun null => by_contra fun some => chain.start_ne_null some null
  · intro empty
    rw [empty] at chain
    exact chain_nil.mp chain

/-- Sixteen pages more are mapped. -/
theorem Shape.map (shape : Shape st lists) (more : Nat) :
    Shape { st with fresh := st.fresh + more } lists where
  doubly := shape.doubly
  apart := shape.apart
  mapped inside := ⟨(shape.mapped inside).1, Nat.lt_add_right more (shape.mapped inside).2⟩
  blank p unmapped := shape.blank p (Nat.le_of_add_right_le unmapped)
  fresh := Nat.add_pos_left shape.fresh more

/-- An empty free list is filled. -/
theorem populateFreelist_spec (shape : Shape st lists) (empty : lists .freelist = []) :
    ∃ st' free, populateFreelist st = .ok st' ∧ SameRegions st st' ∧
      Shape st' (Function.update lists .freelist free) ∧ free ≠ [] := by
  have unlisted : ∀ q, st.fresh ≤ q → ∀ list, q ∉ lists list := fun q above list member =>
    absurd (shape.mapped member).2 (Nat.not_lt.mpr above)
  obtain ⟨st', ran, edit, shape'⟩ := populate_fold (shape.map objectsMapped) st.fresh objectsMapped
    (Nat.le_refl _) unlisted shape.blank (Nat.pos_iff_ne_zero.mp shape.fresh)
  refine ⟨st', _, ?_, edit.regions, shape', ?_⟩
  · rw [populateFreelist, if_neg (not_not.mpr ((shape.head_eq_zero_iff _).mpr empty))]
    exact ran
  · have several : objectsMapped ≠ 0 := by decide
    simp [several]

/-- A write that touches no link. -/
theorem Shape.put (shape : Shape st lists) (nexts : ∀ r, (change r).next = r.next)
    (prevs : ∀ r, (change r).prev = r.prev) (p : Nat) : Shape (st.put p change) lists := by
  have next : (st.put p change).next = st.next := by
    funext q
    simp only [Store.next, put_regions]
    split_ifs with same
    · rw [nexts, same]
    · rfl
  have prev : (st.put p change).prev = st.prev := by
    funext q
    simp only [Store.prev, put_regions]
    split_ifs with same
    · rw [prevs, same]
    · rfl
  exact ⟨fun list => by rw [next, prev]; exact shape.doubly list, shape.apart, shape.mapped,
    fun q above => by rw [prev]; exact shape.blank q above, shape.fresh⟩

/-- Every region but this one is as it was. -/
def SameBut (new : Nat) (st st' : Store) : Prop := ∀ q ≠ new,
  (st'.regions q).start = (st.regions q).start ∧ (st'.regions q).stop = (st.regions q).stop ∧
    (st'.regions q).data = (st.regions q).data

theorem supply_spec (shape : Shape st lists) : ∃ st' first free, supply st = .ok st' ∧
    SameRegions st st' ∧ Shape st' (Function.update lists .freelist (first :: free)) := by
  by_cases empty : lists .freelist = []
  · obtain ⟨st', free, ran, same, shape', some⟩ := populateFreelist_spec shape empty
    obtain ⟨first, rest, rfl⟩ := List.exists_cons_of_ne_nil some
    refine ⟨st', first, rest, ?_, same, shape'⟩
    rw [supply, if_pos ((shape.head_eq_zero_iff _).mpr empty), ran]
  · obtain ⟨first, rest, split⟩ := List.exists_cons_of_ne_nil empty
    refine ⟨st, first, rest, if_neg (mt (shape.head_eq_zero_iff _).mp empty), .refl st, ?_⟩
    rw [← split, Function.update_eq_self]
    exact shape

/-- `alloc_region_object` takes an object from the free list. -/
theorem allocRegionObject_spec (shape : Shape st lists) (start stop : Nat) :
    ∃ new st' free, allocRegionObject start stop st = .ok (new, st') ∧
      Shape st' (Function.update lists .freelist free) ∧
      Loose st' (Function.update lists .freelist free) new ∧
      (st'.regions new).start = start ∧ (st'.regions new).stop = stop ∧ SameBut new st st' := by
  obtain ⟨st₁, first, free, ran, same, shape₁⟩ := supply_spec shape
  have split : Function.update lists .freelist (first :: free) .freelist = [] ++ first :: free :=
    Function.update_self ..
  obtain ⟨st₂, removed, edit, shape₂, loose⟩ := remove_spec shape₁ split
  rw [Function.update_idem, List.nil_append] at shape₂ loose
  have head : st₁.head .freelist = first := (split ▸ shape₁.doubly .freelist).forward.head_eq
  let change (r : Region) : Region := { r with start := start, stop := stop }
  have shape₃ : Shape (st₂.put first change) (Function.update lists .freelist free) := by
    refine shape₂.put ?_ ?_ first <;> exact fun _ => rfl
  refine ⟨first, st₂.put first change, free, ?_, shape₃, ⟨loose.mapped, loose.unlisted, ?_⟩,
    by simp [change], by simp [change], fun q other => ?_⟩
  · rw [allocRegionObject, ran, ok_bind]
    simp only [head]
    rw [if_neg loose.mapped.1, removed, ok_bind, set_ok loose.mapped]
    rfl
  · simp only [Store.prev, put_regions, if_pos]
    exact loose.prev
  · simp only [put_regions, if_neg other]
    have both := same.trans edit.regions
    exact both q

end

end Comp304.Framework
