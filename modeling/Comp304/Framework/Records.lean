import Comp304.Framework.Regions
import Mathlib.Order.BooleanAlgebra.Set

/-! What the lists record, as sets of areas with their `data`. An addition, a removal or
a mark changes one record of one list. -/
namespace Comp304.Framework
open Library.Budget Library.LinkedChain Library.Extents

/-- The area and the `data` of an object. -/
def Store.record (st : Store) (p : Nat) : Extent × Nat := (st.area p, (st.regions p).data)

/-- What a list records. -/
def Store.records (st : Store) (list : ListName) : Set (Extent × Nat) :=
  {r | ∃ p, Reach 0 st.next (st.head list) p ∧ st.record p = r}

theorem allocs_sorted : ListName.allocs.Sorted := trivial

theorem zeroSizedAllocs_sorted : ListName.zeroSizedAllocs.Sorted := trivial

section
variable {st st' : Store} {lists lists' : ListName → List Nat} {list : ListName}
  {p new start stop : Nat} {nodes : List Nat}

theorem Shape.mem_records (shape : Shape st lists) {r : Extent × Nat} :
    r ∈ st.records list ↔ ∃ p ∈ lists list, st.record p = r := by
  simp only [Store.records, Set.mem_ofPred_eq, Chain.reach_iff (shape.doubly list).forward]

/-- At the start nothing is recorded. -/
theorem records_initial (list : ListName) : Store.initial.records list = ∅ := by
  ext r
  rw [valid_initial.mem_records]
  exact ⟨fun ⟨p, inside, _⟩ => absurd inside List.not_mem_nil, fun none => none.elim⟩

/-- Objects with the same record are one. -/
theorem Ordered.record_inj (ordered : Ordered st nodes) (inside : p ∈ nodes) (inside' : q ∈ nodes)
    (same : st.record p = st.record q) : p = q :=
  ordered.start_inj inside inside' (congrArg (fun r => r.1.lo) same)

theorem Valid.records_apart (valid : Valid st lists) (sorted : list.Sorted) {r s : Extent × Nat}
    (inside : r ∈ st.records list) (inside' : s ∈ st.records list) (different : r ≠ s) :
    r.1.Apart s.1 := by
  obtain ⟨p, listed, rfl⟩ := valid.mem_records.mp inside
  obtain ⟨q, listed', rfl⟩ := valid.mem_records.mp inside'
  have ordered := valid.ordered list sorted
  have apart : (lists list).Pairwise fun p q => (st.area p).Apart (st.area q) := by
    refine ordered.sorted.imp_of_mem fun {p q} inside inside' before => ?_
    refine (Extent.apart_iff ?_ ?_).mpr (Or.inl ?_)
    · exact Nat.sub_pos_of_lt (ordered.nonempty p inside)
    · exact Nat.sub_pos_of_lt (ordered.nonempty q inside')
    · rw [ordered.area_stop inside]
      exact before
  have symmetric : Std.Symm fun p q => (st.area p).Apart (st.area q) := ⟨fun _ _ => Extent.Apart.symm⟩
  exact apart.forall listed listed' fun same => different (same ▸ rfl)

theorem Added.record_kept (added : Added list start stop st lists new st' lists') (other : p ≠ new) :
    st'.record p = st.record p := by
  obtain ⟨begins, ends, data⟩ := added.same p other
  rw [Store.record, Store.area, Region.extent, begins, ends, data]
  rfl

/-- One record more. -/
theorem Added.records (sorted : list.Sorted) (added : Added list start stop st lists new st' lists')
    (valid : Valid st lists) :
    st'.records list = insert (st'.record new) (st.records list) ∧
      ∀ other, other ≠ list → other ≠ .freelist → st'.records other = st.records other := by
  constructor
  · obtain ⟨front, back, split, split'⟩ := added.place
    ext r
    rw [Set.mem_insert_iff, added.valid.mem_records, valid.mem_records, split, split']
    simp only [List.mem_append, List.mem_cons]
    constructor
    · rintro ⟨p, inside, rfl⟩
      by_cases other : p = new
      · exact Or.inl (other ▸ rfl)
      · refine Or.inr ⟨p, ?_, (added.record_kept other).symm⟩
        exact inside.imp_right fun rest => rest.resolve_left other
    · rintro (rfl | ⟨p, inside, rfl⟩)
      · exact ⟨new, Or.inr (Or.inl rfl), rfl⟩
      · have other : p ≠ new := fun same =>
          added.unlisted list sorted.ne_freelist (same ▸ split ▸ List.mem_append.mpr inside)
        exact ⟨p, inside.imp_right Or.inr, added.record_kept other⟩
  · intro other apart listed
    ext r
    rw [added.valid.mem_records, valid.mem_records, added.others other apart listed]
    refine exists_congr fun p => and_congr_right fun inside => ?_
    rw [added.record_kept fun same => added.unlisted other listed (same ▸ inside)]

/-- One record less. -/
theorem Valid.removed_records (valid : Valid st lists) (sorted : list.Sorted) (inside : p ∈ lists list)
    (same : SameRegions st st')
    (valid' : Valid st' (Function.update lists list ((lists list).erase p))) :
    st'.records list = st.records list \ {st.record p} ∧
      ∀ other ≠ list, st'.records other = st.records other := by
  have kept : ∀ q, st'.record q = st.record q := fun q => by
    rw [Store.record, Store.area, Region.extent, (same q).1, (same q).2.1, (same q).2.2]
    rfl
  constructor
  · ext r
    rw [Set.mem_sdiff, Set.mem_singleton_iff, valid'.mem_records, valid.mem_records,
      Function.update_self]
    simp only [kept]
    constructor
    · rintro ⟨q, member, rfl⟩
      refine ⟨⟨q, List.mem_of_mem_erase member, rfl⟩, fun equal => ?_⟩
      have one := (valid.ordered list sorted).record_inj (List.mem_of_mem_erase member) inside equal
      have distinct := (valid.doubly list).forward.nodup
      exact distinct.not_mem_erase (one ▸ member)
    · rintro ⟨⟨q, member, rfl⟩, different⟩
      have other : q ≠ p := fun equal => different (equal ▸ rfl)
      exact ⟨q, (List.mem_erase_of_ne other).mpr member, rfl⟩
  · intro other apart
    ext r
    rw [valid'.mem_records, valid.mem_records, Function.update_of_ne apart]
    simp only [kept]

/-- What is pushed onto one list is not recorded on another. -/
theorem Valid.pushed_records (valid : Valid st lists) (same : SameRegions st st')
    (valid' : Valid st' (Function.update lists list nodes)) (other : ListName) (apart : other ≠ list) :
    st'.records other = st.records other := by
  ext r
  rw [valid'.mem_records, valid.mem_records, Function.update_of_ne apart]
  refine exists_congr fun q => and_congr_right fun _ => ?_
  rw [Store.record, Store.area, Region.extent, (same q).1, (same q).2.1, (same q).2.2]
  rfl

/-- One record is exchanged for one with other `data`. -/
theorem Valid.marked_records (valid : Valid st lists) (valid' : Valid st' lists) (sorted : list.Sorted)
    (inside : p ∈ lists list) {data : Nat}
    (areas : ∀ q, (st'.regions q).extent = (st.regions q).extent)
    (marks : ∀ q, (st'.regions q).data = if q = p then data else (st.regions q).data) :
    st'.records list = insert (st.area p, data) (st.records list \ {st.record p}) ∧
      ∀ other ≠ list, st'.records other = st.records other := by
  have own : st'.record p = (st.area p, data) := by
    rw [Store.record, Store.area, areas, marks, if_pos rfl]
    rfl
  have kept : ∀ q ≠ p, st'.record q = st.record q := fun q other => by
    rw [Store.record, Store.area, areas, marks, if_neg other]
    rfl
  constructor
  · ext r
    rw [Set.mem_insert_iff, Set.mem_sdiff, Set.mem_singleton_iff, valid'.mem_records, valid.mem_records]
    constructor
    · rintro ⟨q, member, rfl⟩
      by_cases other : q = p
      · exact Or.inl (other ▸ own)
      · refine Or.inr ⟨⟨q, member, (kept q other).symm⟩, fun equal => other ?_⟩
        exact (valid.ordered list sorted).record_inj member inside ((kept q other).symm.trans equal)
    · rintro (rfl | ⟨⟨q, member, rfl⟩, different⟩)
      · exact ⟨p, inside, own⟩
      · exact ⟨q, member, kept q fun equal => different (equal ▸ rfl)⟩
  · intro other apart
    ext r
    rw [valid'.mem_records, valid.mem_records]
    refine exists_congr fun q => and_congr_right fun member => ?_
    rw [kept q fun equal => apart (valid.apart (equal ▸ member) inside)]

/-- The record of a new region. -/
structure Recorded (list : ListName) (start len : Nat) (st : Store) (lists : ListName → List Nat)
    (new : Nat) (st' : Store) (lists' : ListName → List Nat) : Prop where
  valid : Valid st' lists'
  inside : new ∈ lists' list
  count : (lists' list).length = (lists list).length + 1
  area : st'.area new = ⟨start, len⟩
  fresh : st'.record new ∉ st.records list
  records : st'.records list = insert (st'.record new) (st.records list)
  others : ∀ other, other ≠ list → other ≠ .freelist → st'.records other = st.records other

/-- A region that overlaps no record of the list. -/
structure Fresh (list : ListName) (start len : Nat) (st : Store) : Prop where
  positive : 0 < len
  fits : start + len < 2 ^ 64
  apart : ∀ r ∈ st.records list, r.1.Apart ⟨start, len⟩

theorem Added.recorded {len : Nat} (valid : Valid st lists) (sorted : list.Sorted) (positive : 0 < len)
    (added : Added list start (start + len) st lists new st' lists') :
    Recorded list start len st lists new st' lists' ∧ ∀ r ∈ st.records list, r.1.Apart ⟨start, len⟩ := by
  obtain ⟨front, back, split, split'⟩ := added.place
  have area : st'.area new = ⟨start, len⟩ := by
    rw [added.area, Nat.add_sub_cancel_left]
  obtain ⟨records, others⟩ := added.records sorted valid
  have apart : ∀ r ∈ st.records list, r.1.Apart ⟨start, len⟩ := by
    intro r recorded
    obtain ⟨p, listed, rfl⟩ := valid.mem_records.mp recorded
    by_contra overlap
    have shared := ((valid.ordered list sorted).overlaps_iff listed positive).mp overlap
    have order := added.apart sorted listed
    omega
  have count : (lists' list).length = (lists list).length + 1 := by
    simp only [split, split', List.length_append, List.length_cons]
    omega
  refine ⟨⟨added.valid, by simp [split'], count, area, fun recorded => ?_, records, others⟩, apart⟩
  have own : (st'.record new).1 = ⟨start, len⟩ := area
  exact apart _ recorded start (own ▸ Extent.holds_lo positive) (Extent.holds_lo positive)

/-- An addition that returns has recorded a fresh region. -/
theorem addRegion_recorded {rounds len : Nat} (valid : Valid st lists) (sorted : list.Sorted)
    (short : len < 2 ^ 64) (ran : addRegion rounds list start len st = .ok (new, st')) :
    Fresh list start len st ∧ ∃ lists', Recorded list start len st lists new st' lists' := by
  obtain ⟨lists', grows, added⟩ := addRegion_returned valid sorted ran
  have positive : 0 < len := by omega
  have fits : start + len < 2 ^ 64 := by omega
  rw [Nat.mod_eq_of_lt fits] at added
  obtain ⟨recorded, apart⟩ := added.recorded valid sorted positive
  exact ⟨⟨positive, fits, apart⟩, lists', recorded⟩

/-- And a fresh region is added. -/
theorem addRegion_fresh {rounds len : Nat} (valid : Valid st lists) (sorted : list.Sorted)
    (enough : (lists list).length < rounds) (fresh : Fresh list start len st) :
    ∃ new st', addRegion rounds list start len st = .ok (new, st') := by
  have fits := fresh.fits
  have positive := fresh.positive
  have grows : start < (start + len) % 2 ^ 64 := by omega
  obtain ⟨new, st', -, -, settles⟩ | ⟨q, inside, overlap, -⟩ := addRegion_settles valid sorted grows
  · exact ⟨new, st', (settles rounds).reached enough⟩
  · rw [Nat.mod_eq_of_lt fits] at overlap
    exact absurd (fresh.apart _ (valid.mem_records.mpr ⟨q, inside, rfl⟩))
      (((valid.ordered list sorted).overlaps_iff inside positive).mpr overlap)

/-- What `memlist_find_overlap` says of the area of an object. -/
theorem findOverlap_records (valid : Valid st lists) (sorted : list.Sorted) {region : Region}
    (positive : region.start < region.stop) :
    ∃ found, (∀ rounds, Settles .spent 0 rounds (findOverlap rounds list region st) (.ok found)) ∧
      (found = false ↔ ∀ r ∈ st.records list,
        (∀ s ∈ st.records list, r.1.lo ≤ s.1.lo) → r.1.Apart region.extent) := by
  have ordered := valid.ordered list sorted
  refine ⟨_, findOverlap_settles valid.toShape ordered, ?_⟩
  cases nodes : lists list with
  | nil =>
    refine ⟨fun _ r recorded => ?_, fun _ => rfl⟩
    obtain ⟨p, listed, -⟩ := valid.mem_records.mp recorded
    exact absurd (nodes ▸ listed) List.not_mem_nil
  | cons p rest =>
    rw [nodes] at ordered
    have listed : p ∈ lists list := nodes ▸ List.mem_cons_self
    have nonempty := ordered.nonempty p List.mem_cons_self
    rw [List.head?_cons, Option.any_some, Bool.eq_false_iff, Ne,
      regionsOverlap_iff_not_apart nonempty positive, not_not]
    constructor
    · rintro apart r recorded lowest
      obtain ⟨q, listed', rfl⟩ := valid.mem_records.mp recorded
      -- only the first region begins as low as it does
      have below := lowest _ (valid.mem_records.mpr ⟨p, listed, rfl⟩)
      have above := ordered.head_le (nodes ▸ listed')
      rw [ordered.start_inj (nodes ▸ listed') List.mem_cons_self (Nat.le_antisymm below above)]
      exact apart
    · intro each
      refine each _ (valid.mem_records.mpr ⟨p, listed, rfl⟩) fun s recorded => ?_
      obtain ⟨q, listed', rfl⟩ := valid.mem_records.mp recorded
      exact ordered.head_le (nodes ▸ listed')

/-- A search finds the record whose area contains the pointer. -/
theorem find_records (valid : Valid st lists) (sorted : list.Sorted) (rounds ptr : Nat) :
    ∃ p, Settles .spent (lists list).length rounds (find rounds list ptr st) (.ok p) ∧
      (p = 0 → ∀ r ∈ st.records list, ¬ r.1.Holds ptr) ∧
      (p ≠ 0 → p ∈ lists list ∧ (st.record p).1.Holds ptr) := by
  refine ⟨_, find_settles valid sorted ptr rounds, ?_⟩
  cases found : (lists list).find? (st.contains ptr) with
  | none =>
    refine ⟨fun _ r recorded holds => ?_, fun some => absurd rfl some⟩
    obtain ⟨q, inside, rfl⟩ := valid.mem_records.mp recorded
    exact List.find?_eq_none.mp found q inside (decide_eq_true holds)
  | some q =>
    have inside := List.mem_of_find?_eq_some found
    have holds : st.contains ptr q = true := List.find?_some found
    exact ⟨fun null => absurd null (valid.mapped inside).1, fun _ => ⟨inside, of_decide_eq_true holds⟩⟩

theorem find_missed {rounds ptr : Nat} (valid : Valid st lists) (sorted : list.Sorted)
    (ran : find rounds list ptr st = .ok 0) : ∀ r ∈ st.records list, ¬ r.1.Holds ptr := by
  obtain ⟨p, settles, missed, -⟩ := find_records valid sorted rounds ptr
  exact missed (Except.ok.inj (settles.returned ran))

/-- The object of a record whose area contains the pointer. -/
theorem find_recorded {rounds ptr : Nat} {r : Extent × Nat} (valid : Valid st lists)
    (sorted : list.Sorted) (enough : (lists list).length < rounds) (recorded : r ∈ st.records list)
    (holds : r.1.Holds ptr) :
    ∃ p, find rounds list ptr st = .ok p ∧ p ∈ lists list ∧ st.record p = r := by
  obtain ⟨p, settles, missed, found⟩ := find_records valid sorted rounds ptr
  have some : p ≠ 0 := fun none => missed none r recorded holds
  obtain ⟨inside, holds'⟩ := found some
  refine ⟨p, settles.reached enough, inside, by_contra fun different => ?_⟩
  exact valid.records_apart sorted (valid.mem_records.mpr ⟨p, inside, rfl⟩) recorded different ptr
    holds' holds

/-- A recorded area is found by its first address. -/
theorem Valid.record_holds (valid : Valid st lists) (sorted : list.Sorted) {r : Extent × Nat}
    (recorded : r ∈ st.records list) : r.1.Holds r.1.lo := by
  obtain ⟨p, inside, rfl⟩ := valid.mem_records.mp recorded
  exact Extent.holds_lo (Nat.sub_pos_of_lt ((valid.ordered list sorted).nonempty p inside))

end

end Comp304.Framework
