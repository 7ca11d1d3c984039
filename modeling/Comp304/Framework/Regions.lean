import Comp304.Framework.Memlist
import Comp304.Library.Extents
import Mathlib.Algebra.Ring.Nat

/-! What the lists of `memlist.c` hold. `allocs` and `zero_sized_allocs` are kept in
the order of their addresses, and a new region goes to its place among them, unless
it overlaps one that is there. So such a list is a set of regions that are apart. -/
namespace Comp304.Framework
open Library.Budget Library.LinkedChain Library.Lp64 Library.Extents

/-- The memory of a region. -/
def Region.extent (r : Region) : Extent := ⟨r.start, r.stop - r.start⟩

/-- These objects hold nonempty regions, in the order of their addresses. -/
structure Ordered (st : Store) (nodes : List Nat) : Prop where
  nonempty : ∀ p ∈ nodes, (st.regions p).start < (st.regions p).stop
  sorted : nodes.Pairwise fun p q => (st.regions p).stop ≤ (st.regions q).start

section
variable {st st' : Store} {lists : ListName → List Nat} {list : ListName} {p new start stop : Nat}
  {nodes front back : List Nat} {region : Region}

theorem Ordered.nil : Ordered st [] := ⟨by simp, .nil⟩

theorem Ordered.tail (ordered : Ordered st (p :: nodes)) : Ordered st nodes :=
  ⟨fun q inside => ordered.nonempty q (List.mem_cons_of_mem p inside), ordered.sorted.of_cons⟩

theorem Ordered.head_before (ordered : Ordered st (p :: nodes)) (inside : q ∈ nodes) :
    (st.regions p).stop ≤ (st.regions q).start := (List.pairwise_cons.mp ordered.sorted).1 q inside

/-- The first region begins first. -/
theorem Ordered.head_le (ordered : Ordered st (p :: nodes)) (inside : q ∈ p :: nodes) :
    (st.regions p).start ≤ (st.regions q).start := by
  obtain rfl | inside := List.mem_cons.mp inside
  · exact Nat.le_refl _
  · have first := ordered.nonempty p List.mem_cons_self
    have before := ordered.head_before inside
    omega

/-- The last region ends last. -/
theorem Ordered.le_last (ordered : Ordered st (nodes ++ [p])) (inside : q ∈ nodes ++ [p]) :
    (st.regions q).stop ≤ (st.regions p).stop := by
  have last := ordered.nonempty p (by simp)
  obtain inside | inside := List.mem_append.mp inside
  · have before := (List.pairwise_append.mp ordered.sorted).2.2 q inside p (by simp)
    omega
  · rw [List.mem_singleton.mp inside]

/-- Only the memory of the regions matters. -/
theorem Ordered.congr (ordered : Ordered st nodes)
    (same : ∀ p ∈ nodes, (st'.regions p).start = (st.regions p).start ∧
      (st'.regions p).stop = (st.regions p).stop) : Ordered st' nodes where
  nonempty p inside := by
    rw [(same p inside).1, (same p inside).2]
    exact ordered.nonempty p inside
  sorted := ordered.sorted.imp_of_mem fun {p q} inside inside' before => by
    rw [(same p inside).2, (same q inside').1]
    exact before

theorem Ordered.sublist (ordered : Ordered st nodes) (sub : nodes'.Sublist nodes) :
    Ordered st nodes' :=
  ⟨fun p inside => ordered.nonempty p (sub.subset inside), ordered.sorted.sublist sub⟩

/-- A region between two parts of the list. -/
theorem Ordered.insert (ordered : Ordered st (front ++ back))
    (positive : (st.regions new).start < (st.regions new).stop)
    (below : ∀ p ∈ front, (st.regions p).stop ≤ (st.regions new).start)
    (above : ∀ p ∈ back, (st.regions new).stop ≤ (st.regions p).start) :
    Ordered st (front ++ new :: back) := by
  obtain ⟨first, second, across⟩ := List.pairwise_append.mp ordered.sorted
  refine ⟨fun p inside => ?_, List.pairwise_append.mpr
    ⟨first, List.pairwise_cons.mpr ⟨above, second⟩, fun p inside q inside' => ?_⟩⟩
  · rw [List.mem_append, List.mem_cons] at inside
    obtain inside | rfl | inside := inside
    · exact ordered.nonempty p (List.mem_append_left _ inside)
    · exact positive
    · exact ordered.nonempty p (List.mem_append_right _ inside)
  · obtain rfl | inside' := List.mem_cons.mp inside'
    · exact below p inside
    · exact across p inside q inside'

/-! ### Overlaps -/

theorem regionsOverlap_iff (r s : Region) :
    regionsOverlap r s = true ↔ s.start < r.stop ∧ r.start < s.stop := by
  simp [regionsOverlap]

/-- Nonempty regions overlap when they share an address. -/
theorem regionsOverlap_iff_not_apart {r s : Region} (positive : r.start < r.stop)
    (positive' : s.start < s.stop) : regionsOverlap r s = true ↔ ¬ r.extent.Apart s.extent := by
  have first : 0 < r.extent.len := Nat.sub_pos_of_lt positive
  have second : 0 < s.extent.len := Nat.sub_pos_of_lt positive'
  rw [regionsOverlap_iff, Extent.apart_iff first second]
  simp only [Region.extent, Extent.stop]
  omega

/-- What the loop of `memlist_find_overlap` says is decided at its first object. -/
theorem overlapLoop_settles (chain : Chain 0 st.next p (p :: nodes)) (mapped : st.Mapped p)
    (above : (st.regions p).start < region.stop) (rounds : Nat) :
    Settles .spent 0 rounds (overlapLoop region st rounds p)
      (.ok (regionsOverlap (st.regions p) region)) := by
  cases rounds with
  | zero => exact .out_of_rounds _
  | succ rounds =>
    refine .of_eq ?_
    rw [overlapLoop, if_neg (chain.ne_null List.mem_cons_self), get_ok mapped, ok_bind]
    by_cases overlap : regionsOverlap (st.regions p) region = true
    · rw [if_pos overlap, overlap]
      rfl
    · have before : (st.regions p).stop ≤ region.start := by
        rw [regionsOverlap_iff] at overlap
        omega
      rw [if_neg overlap, if_pos before, Bool.eq_false_iff.mpr overlap]
      rfl

/-- On an ordered list `memlist_find_overlap` reports whether the region overlaps the
first one. No other region is looked at: `tmp->end <= region->start` ends the search,
where only regions beyond `region->end` could not overlap. -/
theorem findOverlap_settles (shape : Shape st lists) (ordered : Ordered st (lists list)) (rounds : Nat) :
    Settles .spent 0 rounds (findOverlap rounds list region st)
      (.ok ((lists list).head?.any fun p => regionsOverlap (st.regions p) region)) := by
  have chain := (shape.doubly list).forward
  cases nodes : lists list with
  | nil => exact .of_eq (by rw [findOverlap, if_pos ((shape.head_eq_zero_iff list).mpr nodes)]; rfl)
  | cons p rest =>
    obtain ⟨front, last, split⟩ := (List.eq_nil_or_concat (p :: rest)).resolve_left (by simp)
    have inside : last ∈ lists list := by simp [nodes, split]
    have ends : st.tail list = last := by
      have backward := (shape.doubly list).backward
      rw [nodes, split, List.concat_eq_append, List.reverse_append] at backward
      exact backward.head_eq
    have longest : (st.regions p).stop ≤ (st.regions last).stop := by
      rw [nodes, split, List.concat_eq_append] at ordered
      refine ordered.le_last ?_
      rw [← List.concat_eq_append, ← split]
      exact List.mem_cons_self
    rw [nodes] at chain
    have first : st.head list = p := chain.head_eq
    have mapped : st.Mapped p := shape.mapped (nodes ▸ List.mem_cons_self)
    rw [findOverlap, first, if_neg (chain.ne_null List.mem_cons_self), get_ok mapped, ok_bind]
    have missed (outside : region.stop ≤ (st.regions p).start ∨ (st.regions p).stop ≤ region.start) :
        regionsOverlap (st.regions p) region = false := by
      rw [Bool.eq_false_iff, Ne, regionsOverlap_iff]
      omega
    rw [List.head?_cons, Option.any_some]
    split_ifs with below
    · rw [missed (Or.inl below)]
      exact .refl _
    · rw [ends, shape.get inside, ok_bind]
      split_ifs with above
      · rw [missed (Or.inr (by omega))]
        exact .refl _
      · exact overlapLoop_settles (first ▸ chain) mapped (by omega) rounds

/-- `memlist_find_overlap_unsorted` looks at every region. -/
theorem overlapUnsortedLoop_settles (chain : Chain 0 st.next p nodes)
    (mapped : ∀ q ∈ nodes, st.Mapped q) (rounds : Nat) :
    Settles .spent nodes.length rounds (overlapUnsortedLoop region st rounds p)
      (.ok (nodes.any fun q => regionsOverlap (st.regions q) region)) := by
  induction nodes generalizing p rounds with
  | nil =>
    cases rounds with
    | zero => exact .out_of_rounds _
    | succ rounds => exact .of_eq (if_pos (chain_nil.mp chain))
  | cons q nodes ih =>
    cases rounds with
    | zero => exact .out_of_rounds _
    | succ rounds =>
      obtain rfl : p = q := chain.head_eq
      rw [overlapUnsortedLoop, if_neg (chain.ne_null List.mem_cons_self),
        get_ok (mapped p List.mem_cons_self), ok_bind, List.any_cons]
      by_cases overlap : regionsOverlap (st.regions p) region = true
      · exact .of_eq (by rw [if_pos overlap, overlap]; rfl)
      · rw [if_neg overlap, Bool.eq_false_iff.mpr overlap, Bool.false_or]
        have rest : Chain 0 st.next (st.next p) nodes := chain.rest
        exact (ih rest (fun r inside => mapped r (List.mem_cons_of_mem p inside)) rounds).succ

/-! ### Additions -/

/-- A region that is in the way stops the loop. -/
theorem placeLoop_stops (mapped : st.Mapped p) (overlap : regionsOverlap region (st.regions p) = true)
    (rounds : Nat) : placeLoop start stop region st (rounds + 1) p =
      .error (.overlaps start stop (st.regions p).start (st.regions p).stop) := by
  rw [placeLoop, if_neg mapped.1, get_ok mapped, ok_bind, if_pos overlap]

/-- The place is behind this region when the next one begins above it. -/
theorem placeLoop_here (mapped : st.Mapped p) (clear : ¬ regionsOverlap region (st.regions p) = true)
    (before : (st.regions p).stop ≤ start) (onward : st.next p = follower)
    (mapped' : st.Mapped follower) (beyond : (st.regions follower).start ≥ stop) (rounds : Nat) :
    placeLoop start stop region st (rounds + 1) p = .ok p := by
  rw [placeLoop, if_neg mapped.1, get_ok mapped, ok_bind, if_neg clear, if_pos before,
    show (st.regions p).next = follower from onward, if_neg mapped'.1, get_ok mapped', ok_bind,
    if_pos beyond]
  rfl

theorem placeLoop_onward (mapped : st.Mapped p) (clear : ¬ regionsOverlap region (st.regions p) = true)
    (before : (st.regions p).stop ≤ start) (onward : st.next p = follower)
    (mapped' : st.Mapped follower) (near : ¬ (st.regions follower).start ≥ stop) (rounds : Nat) :
    placeLoop start stop region st (rounds + 1) p = placeLoop start stop region st rounds follower := by
  rw [placeLoop, if_neg mapped.1, get_ok mapped, ok_bind, if_neg clear, if_pos before,
    show (st.regions p).next = follower from onward, if_neg mapped'.1, get_ok mapped', ok_bind,
    if_neg near]

/-- The loop of `memlist_add_region` finds where the region goes, or the lowest region
that it overlaps. It never gets to the end of the list. -/
theorem placeLoop_settles (chain : Chain 0 st.next p (p :: nodes))
    (mapped : ∀ q ∈ p :: nodes, st.Mapped q) (ordered : Ordered st (p :: nodes))
    (same : region.start = start) (same' : region.stop = stop)
    (first : (st.regions p).start < stop) (last : ∃ q ∈ p :: nodes, start < (st.regions q).stop) :
    (∃ front after back, p :: nodes = front ++ after :: back ∧
      (∀ q ∈ front ++ [after], (st.regions q).stop ≤ start) ∧
      (∀ q ∈ back, stop ≤ (st.regions q).start) ∧
      ∀ rounds, Settles .spent nodes.length rounds (placeLoop start stop region st rounds p)
        (.ok after)) ∨
    ∃ q ∈ p :: nodes, regionsOverlap region (st.regions q) = true ∧
      (∀ r ∈ p :: nodes, regionsOverlap region (st.regions r) = true →
        (st.regions q).start ≤ (st.regions r).start) ∧
      ∀ rounds, Settles .spent nodes.length rounds (placeLoop start stop region st rounds p)
        (.error (.overlaps start stop (st.regions q).start (st.regions q).stop)) := by
  induction nodes generalizing p with
  | nil =>
    -- the only region ends beyond `start` and begins below `stop`
    obtain ⟨q, inside, beyond⟩ := last
    obtain rfl := List.mem_singleton.mp inside
    have overlap : regionsOverlap region (st.regions q) = true := by
      rw [regionsOverlap_iff, same, same']
      exact ⟨first, beyond⟩
    refine Or.inr ⟨q, inside, overlap, fun r inside' _ => ?_,
      .first_round rfl (placeLoop_stops (mapped q inside) overlap)⟩
    rw [List.mem_singleton.mp inside']
  | cons follower nodes ih =>
    have here := mapped p List.mem_cons_self
    by_cases overlap : regionsOverlap region (st.regions p) = true
    · exact Or.inr ⟨p, List.mem_cons_self, overlap, fun r inside _ => ordered.head_le inside,
        .first_round rfl (placeLoop_stops here overlap)⟩
    have before : (st.regions p).stop ≤ start := by
      rw [regionsOverlap_iff, same, same'] at overlap
      omega
    have onward : st.next p = follower := chain.second
    have rest : Chain 0 st.next (st.next p) (follower :: nodes) := chain.rest
    rw [onward] at rest
    have mapped' : ∀ q ∈ follower :: nodes, st.Mapped q := fun q inside =>
      mapped q (List.mem_cons_of_mem p inside)
    have behind := mapped' follower List.mem_cons_self
    by_cases beyond : (st.regions follower).start ≥ stop
    · refine Or.inl ⟨[], p, follower :: nodes, rfl, ?_, fun q inside => ?_, ?_⟩
      · simpa using before
      · exact Nat.le_trans beyond (ordered.tail.head_le inside)
      · exact .first_round rfl (placeLoop_here here overlap before onward behind beyond)
    -- neither here nor first behind here: the rest of the list decides
    have step := placeLoop_onward here overlap before onward behind beyond
    have last' : ∃ q ∈ follower :: nodes, start < (st.regions q).stop := by
      obtain ⟨q, inside, above⟩ := last
      obtain rfl | inside := List.mem_cons.mp inside
      · omega
      · exact ⟨q, inside, above⟩
    obtain ⟨front, after, back, split, below, above, ends⟩ | ⟨q, inside, overlap', lowest, ends⟩ :=
      ih rest mapped' ordered.tail (by omega) last'
    · refine Or.inl ⟨p :: front, after, back, by rw [split]; rfl, fun q inside => ?_, above,
        .later_round rfl step ends⟩
      obtain rfl | inside := List.mem_cons.mp inside
      · exact before
      · exact below q inside
    · refine Or.inr ⟨q, List.mem_cons_of_mem p inside, overlap', fun r inside' shared => ?_,
        .later_round rfl step ends⟩
      obtain rfl | inside' := List.mem_cons.mp inside'
      · exact absurd shared overlap
      · exact lowest r inside' shared

end

/-- The lists that `memlist_add_region` builds. -/
def ListName.Sorted : ListName → Prop
  | .allocs | .zeroSizedAllocs => True
  | .freedAllocs | .freelist => False

/-- The lists are what they should be. -/
structure Valid (st : Store) (lists : ListName → List Nat) : Prop extends Shape st lists where
  ordered : ∀ list, list.Sorted → Ordered st (lists list)

/-- An object from the free list has been put on a sorted list. -/
structure Added (list : ListName) (start stop : Nat) (st : Store) (lists : ListName → List Nat)
    (new : Nat) (st' : Store) (lists' : ListName → List Nat) : Prop where
  valid : Valid st' lists'
  start : (st'.regions new).start = start
  stop : (st'.regions new).stop = stop
  place : ∃ front back, lists list = front ++ back ∧ lists' list = front ++ new :: back
  others : ∀ other, other ≠ list → other ≠ .freelist → lists' other = lists other
  unlisted : ∀ other, other ≠ .freelist → new ∉ lists other
  same : SameBut new st st'

section
variable {st st' : Store} {lists : ListName → List Nat} {list : ListName} {p new start stop : Nat}
  {nodes front back : List Nat} {region : Region}

theorem ListName.Sorted.ne_freelist (sorted : list.Sorted) : list ≠ .freelist := by
  rintro rfl
  exact sorted

theorem valid_initial : Valid .initial fun _ => [] := ⟨shape_initial, fun _ _ => .nil⟩

theorem SameBut.of_same (same : SameRegions st st') (p : Nat) : SameBut p st st' :=
  fun q _ => same q

theorem SameBut.trans {st'' : Store} (first : SameBut new st st') (second : SameBut new st' st'') :
    SameBut new st st'' := fun q other =>
  ⟨(second q other).1.trans (first q other).1, (second q other).2.1.trans (first q other).2.1,
    (second q other).2.2.trans (first q other).2.2⟩

/-- The order of a list without the changed object stays. -/
theorem Ordered.of_same (ordered : Ordered st nodes) (same : SameBut new st st') (other : new ∉ nodes) :
    Ordered st' nodes :=
  ordered.congr fun q inside =>
    have apart : q ≠ new := fun equal => other (equal ▸ inside)
    ⟨(same q apart).1, (same q apart).2.1⟩

/-- A new object that has been put in its place. -/
theorem Valid.added (valid : Valid st lists) (sorted : list.Sorted) {st₁ : Store} {free : List Nat}
    (same : SameBut new st st₁) (loose : Loose st₁ (Function.update lists .freelist free) new)
    (start' : (st₁.regions new).start = start) (stop' : (st₁.regions new).stop = stop)
    (positive : start < stop) (split : lists list = front ++ back) (edit : Edit list st₁ st')
    (shape : Shape st' (Function.update (Function.update lists .freelist free) list
      (front ++ new :: back)))
    (below : ∀ q ∈ front, (st.regions q).stop ≤ start)
    (above : ∀ q ∈ back, stop ≤ (st.regions q).start) :
    Added list start stop st lists new st'
      (Function.update (Function.update lists .freelist free) list (front ++ new :: back)) := by
  have outside : ∀ other, other ≠ .freelist → new ∉ lists other := fun other apart inside =>
    loose.unlisted other (by rwa [Function.update_of_ne apart])
  have here : new ∉ front ++ back := split ▸ outside list sorted.ne_freelist
  have apart : ∀ q ∈ front ++ back, q ≠ new := fun q inside equal => here (equal ▸ inside)
  have whole : SameBut new st st' := same.trans (.of_same edit.regions new)
  have begins : (st'.regions new).start = start := (edit.regions new).1.trans start'
  have ends : (st'.regions new).stop = stop := (edit.regions new).2.1.trans stop'
  have others : ∀ other, other ≠ list → other ≠ .freelist →
      Function.update (Function.update lists .freelist free) list (front ++ new :: back) other =
        lists other := fun other other' free' => by
    rw [Function.update_of_ne other', Function.update_of_ne free']
  refine ⟨⟨shape, fun other sorted' => ?_⟩, begins, ends,
    ⟨front, back, split, Function.update_self ..⟩, others, outside, whole⟩
  by_cases equal : other = list
  · rw [equal, Function.update_self]
    have ordered := (split ▸ valid.ordered list sorted).of_same whole here
    refine ordered.insert (by rw [begins, ends]; exact positive) (fun q inside => ?_)
      (fun q inside => ?_)
    · rw [begins, (whole q (apart q (List.mem_append_left _ inside))).2.1]
      exact below q inside
    · rw [ends, (whole q (apart q (List.mem_append_right _ inside))).1]
      exact above q inside
  · rw [others other equal sorted'.ne_freelist]
    exact (valid.ordered other sorted').of_same whole (outside other sorted'.ne_freelist)

theorem goesFirst_spec (shape : Shape st lists) (split : lists list = p :: nodes) (stop : Nat) :
    goesFirst list stop st = .ok (decide (stop ≤ (st.regions p).start)) := by
  have inside : p ∈ lists list := by simp [split]
  have chain := (shape.doubly list).forward
  rw [split] at chain
  rw [goesFirst, chain.head_eq, if_neg (chain.ne_null List.mem_cons_self), shape.get inside, ok_bind]
  rfl

theorem Shape.tail_eq (shape : Shape st lists) (split : lists list = front ++ [p]) :
    st.tail list = p := by
  have backward := (shape.doubly list).backward
  rw [split, List.reverse_append] at backward
  exact backward.head_eq

/-- Into which place a new region goes, or which one it overlaps. -/
theorem placeRegion_settles (shape : Shape st lists) (ordered : Ordered st (lists list))
    (loose : Loose st lists new) (begins : (st.regions new).start = start)
    (ends : (st.regions new).stop = stop) :
    (∃ st' front back, lists list = front ++ back ∧ Edit list st st' ∧
      Shape st' (Function.update lists list (front ++ new :: back)) ∧
      (∀ q ∈ front, (st.regions q).stop ≤ start) ∧ (∀ q ∈ back, stop ≤ (st.regions q).start) ∧
      ∀ rounds, Settles .spent (lists list).length rounds (placeRegion rounds list start stop new st)
        (.ok st')) ∨
    ∃ q ∈ lists list, regionsOverlap (st.regions new) (st.regions q) = true ∧
      (∀ r ∈ lists list, regionsOverlap (st.regions new) (st.regions r) = true →
        (st.regions q).start ≤ (st.regions r).start) ∧
      ∀ rounds, Settles .spent (lists list).length rounds (placeRegion rounds list start stop new st)
        (.error (.overlaps start stop (st.regions q).start (st.regions q).stop)) := by
  cases split : lists list with
  | nil =>
    obtain ⟨st', ran, edit, shape', -⟩ := insertFront_spec shape list loose
    rw [split] at shape'
    refine Or.inl ⟨st', [], [], rfl, edit, shape', by simp, by simp, fun rounds => .of_eq ?_⟩
    rw [placeRegion, goesFirst, if_pos ((shape.head_eq_zero_iff list).mpr split), ok_bind]
    exact ran
  | cons p rest =>
    have first := goesFirst_spec shape split stop
    by_cases below : stop ≤ (st.regions p).start
    · obtain ⟨st', ran, edit, shape', -⟩ := insertFront_spec shape list loose
      rw [split] at shape' ordered
      refine Or.inl ⟨st', [], p :: rest, rfl, edit, shape', by simp,
        fun q inside => Nat.le_trans below (ordered.head_le inside), fun rounds => .of_eq ?_⟩
      rw [placeRegion, first, decide_eq_true below, ok_bind]
      exact ran
    · obtain ⟨init, last, concat⟩ := (List.eq_nil_or_concat (p :: rest)).resolve_left (by simp)
      rw [List.concat_eq_append] at concat
      have split' : lists list = init ++ [last] := split.trans concat
      have inside : last ∈ lists list := by simp [split']
      have tail := shape.tail_eq split'
      by_cases above : start ≥ (st.regions last).stop
      · obtain ⟨st', ran, edit, shape'⟩ := insertAfter_spec shape loose split'
        refine Or.inl ⟨st', init ++ [last], [], by simp [concat], edit, by simpa using shape',
          fun q inside => ?_, by simp, fun rounds => .of_eq ?_⟩
        · exact Nat.le_trans ((split' ▸ ordered).le_last inside) above
        · rw [placeRegion, first, decide_eq_false below, ok_bind, tail, shape.get inside, ok_bind]
          simp only [Bool.false_eq_true, if_false, if_pos above]
          exact ran
      · have chain := (shape.doubly list).forward
        rw [split] at chain
        have head := chain.head_eq
        have search : ∀ rounds, placeRegion rounds list start stop new st =
            (placeLoop start stop (st.regions new) st rounds p >>= fun region =>
              insertAfter list region new st) := by
          intro rounds
          rw [placeRegion, first, decide_eq_false below, ok_bind, tail, shape.get inside, ok_bind]
          simp only [Bool.false_eq_true, if_false, if_neg above]
          rw [get_ok loose.mapped, ok_bind, head]
        have mapped : ∀ q ∈ p :: rest, st.Mapped q := fun q inside => shape.mapped (split ▸ inside)
        rw [split] at inside
        obtain ⟨front, after, back, place, before, beyond, found⟩ | ⟨q, inside, overlap, lowest, found⟩ :=
          placeLoop_settles (head ▸ chain) mapped (split ▸ ordered) begins ends (by omega)
            ⟨last, inside, by omega⟩
        · obtain ⟨st', ran, edit, shape'⟩ := insertAfter_spec shape loose (split.trans place)
          refine Or.inl ⟨st', front ++ [after], back, by simp [place], edit, by simpa using shape',
            before, beyond, fun rounds => ?_⟩
          rw [search]
          exact ((found rounds).weaken (Nat.le_succ _)).bind (.of_eq ran)
        · refine Or.inr ⟨q, inside, overlap, lowest, fun rounds => ?_⟩
          rw [search]
          exact ((found rounds).weaken (Nat.le_succ _)).stop _

/-- A region that is empty or runs over the end of the addresses is refused. -/
theorem addRegion_invalid (invalid : (start + len) % 2 ^ 64 ≤ start) (rounds : Nat) :
    addRegion rounds list start len st =
      .error (.invalidRegion start ((start + len) % 2 ^ 64) len) := by
  rw [addRegion, if_pos (Nat.not_lt.mpr invalid)]

/-- Any other one is put in its place, or the lowest region that it overlaps is
reported. -/
theorem addRegion_settles (valid : Valid st lists) (sorted : list.Sorted)
    (positive : start < (start + len) % 2 ^ 64) :
    (∃ new st' lists', Added list start ((start + len) % 2 ^ 64) st lists new st' lists' ∧
      ∀ rounds, Settles .spent (lists list).length rounds (addRegion rounds list start len st)
        (.ok (new, st'))) ∨
    ∃ q ∈ lists list,
      (start < (st.regions q).stop ∧ (st.regions q).start < (start + len) % 2 ^ 64) ∧
      (∀ r ∈ lists list, start < (st.regions r).stop → (st.regions r).start < (start + len) % 2 ^ 64 →
        (st.regions q).start ≤ (st.regions r).start) ∧
      ∀ rounds, Settles .spent (lists list).length rounds (addRegion rounds list start len st)
        (.error (.overlaps start ((start + len) % 2 ^ 64) (st.regions q).start (st.regions q).stop)) := by
  generalize stopIs : (start + len) % 2 ^ 64 = stop at positive ⊢
  obtain ⟨new, st₁, free, took, shape₁, loose, begins, ends, same⟩ :=
    allocRegionObject_spec valid.toShape start stop
  have kept : Function.update lists .freelist free list = lists list :=
    Function.update_of_ne sorted.ne_freelist ..
  have outside : new ∉ lists list := kept ▸ loose.unlisted list
  have alike : ∀ q ∈ lists list, (st₁.regions q).start = (st.regions q).start ∧
      (st₁.regions q).stop = (st.regions q).stop := by
    intro q inside
    have apart : q ≠ new := fun equal => outside (equal ▸ inside)
    exact ⟨(same q apart).1, (same q apart).2.1⟩
  have ordered : Ordered st₁ (Function.update lists .freelist free list) :=
    kept ▸ (valid.ordered list sorted).of_same same outside
  have unfolded : ∀ rounds, addRegion rounds list start len st =
      (placeRegion rounds list start stop new st₁ >>= fun st' => .ok (new, st')) := by
    intro rounds
    rw [addRegion, stopIs, if_neg (not_not.mpr positive), took, ok_bind]
    rfl
  obtain ⟨st', front, back, split, edit, shape', below, above, placed⟩ |
    ⟨q, inside, overlap, lowest, found⟩ := placeRegion_settles shape₁ ordered loose begins ends
  · rw [kept] at split placed
    refine Or.inl ⟨new, st', _, valid.added sorted same loose begins ends positive split edit shape'
      (fun q inside => ?_) (fun q inside => ?_), fun rounds => ?_⟩
    · rw [← (alike q (by simp [split, inside])).2]
      exact below q inside
    · rw [← (alike q (by simp [split, inside])).1]
      exact above q inside
    · rw [unfolded]
      exact (placed rounds).bind (.refl _)
  · rw [kept] at inside lowest found
    simp only [regionsOverlap_iff, begins, ends] at overlap lowest
    rw [(alike q inside).1, (alike q inside).2] at overlap
    refine Or.inr ⟨q, inside, ⟨overlap.2, overlap.1⟩, fun r inside' above below => ?_, fun rounds => ?_⟩
    · rw [← (alike q inside).1, ← (alike r inside').1]
      refine lowest r inside' ⟨?_, ?_⟩
      · rwa [(alike r inside').1]
      · rwa [(alike r inside').2]
    · rw [unfolded, ← (alike q inside).1, ← (alike q inside).2]
      exact (found rounds).stop _

theorem addRegion_returned (valid : Valid st lists) (sorted : list.Sorted)
    (ran : addRegion rounds list start len st = .ok (new, st')) :
    ∃ lists', start < (start + len) % 2 ^ 64 ∧
      Added list start ((start + len) % 2 ^ 64) st lists new st' lists' := by
  by_cases positive : start < (start + len) % 2 ^ 64
  · obtain ⟨_, _, lists', added, settles⟩ | ⟨_, _, _, _, settles⟩ :=
      addRegion_settles valid sorted positive
    · cases (settles rounds).returned ran
      exact ⟨lists', positive, added⟩
    · exact nomatch (settles rounds).returned ran
  · exact nomatch (addRegion_invalid (Nat.not_lt.mp positive) rounds).symm.trans ran

/-! ### Searches -/

theorem Region.extent_holds (r : Region) (ptr : Nat) :
    r.extent.Holds ptr ↔ r.start ≤ ptr ∧ ptr < r.stop := by
  simp only [Region.extent, Extent.Holds, Extent.stop]
  omega

/-- The region of the object contains the address. -/
def Store.contains (st : Store) (ptr q : Nat) : Bool := decide ((st.regions q).extent.Holds ptr)

/-- `memlist_find` stops at the first region that begins beyond the pointer, and so
does not miss one that contains it. -/
theorem findLoop_settles (chain : Chain 0 st.next p nodes) (mapped : ∀ q ∈ nodes, st.Mapped q)
    (ordered : Ordered st nodes) (ptr rounds : Nat) :
    Settles .spent nodes.length rounds (findLoop ptr st rounds p)
      (.ok ((nodes.find? (st.contains ptr)).getD 0)) := by
  induction nodes generalizing p rounds with
  | nil =>
    cases rounds with
    | zero => exact .out_of_rounds _
    | succ rounds => exact .of_eq (if_pos (chain_nil.mp chain))
  | cons q nodes ih =>
    cases rounds with
    | zero => exact .out_of_rounds _
    | succ rounds =>
      obtain rfl : p = q := chain.head_eq
      rw [findLoop, if_neg (chain.ne_null List.mem_cons_self),
        get_ok (mapped p List.mem_cons_self), ok_bind]
      have holds := (st.regions p).extent_holds ptr
      by_cases below : ptr < (st.regions p).start
      · refine .of_eq ?_
        have nothing : ∀ r ∈ p :: nodes, ¬ st.contains ptr r = true := by
          intro r inside
          have order := ordered.head_le inside
          rw [Store.contains, decide_eq_true_eq, Region.extent_holds]
          omega
        rw [if_pos below, List.find?_eq_none.mpr nothing]
        rfl
      · rw [if_neg below]
        by_cases above : ptr < (st.regions p).stop
        · have found : st.contains ptr p = true :=
            decide_eq_true (holds.mpr ⟨by omega, above⟩)
          exact .of_eq (by rw [if_pos above, List.find?_cons_of_pos found]; rfl)
        · have missed : ¬ st.contains ptr p = true := by
            rw [Store.contains, decide_eq_true_eq, holds]
            omega
          rw [if_neg above, List.find?_cons_of_neg missed]
          have rest : Chain 0 st.next (st.next p) nodes := chain.rest
          exact (ih rest (fun r inside => mapped r (List.mem_cons_of_mem p inside)) ordered.tail
            rounds).succ

theorem find_settles (valid : Valid st lists) (sorted : list.Sorted) (ptr rounds : Nat) :
    Settles .spent (lists list).length rounds (find rounds list ptr st)
      (.ok (((lists list).find? (st.contains ptr)).getD 0)) :=
  findLoop_settles (valid.doubly list).forward (fun _ inside => valid.mapped inside)
    (valid.ordered list sorted) ptr rounds

/-- What `memlist_find` returns, unless it is NULL, is on the list and contains the
pointer. -/
theorem find_returned (valid : Valid st lists) (sorted : list.Sorted)
    (ran : find rounds list ptr st = .ok p) (some : p ≠ 0) :
    p ∈ lists list ∧ (st.regions p).extent.Holds ptr := by
  have outcome := (find_settles valid sorted ptr rounds).returned ran
  cases found : (lists list).find? (st.contains ptr) with
  | none =>
    rw [found] at outcome
    exact absurd (Except.ok.inj outcome).symm some
  | some q =>
    rw [found] at outcome
    obtain rfl : q = p := Except.ok.inj outcome
    have holds : st.contains ptr q = true := List.find?_some found
    exact ⟨List.mem_of_find?_eq_some found, of_decide_eq_true holds⟩

/-- `memlist_length` counts the objects. -/
theorem lengthLoop_settles (chain : Chain 0 st.next p nodes) (mapped : ∀ q ∈ nodes, st.Mapped q)
    (rounds cnt : Nat) : Settles .spent nodes.length rounds (lengthLoop st rounds p cnt)
      (.ok (cnt + nodes.length)) := by
  induction nodes generalizing p rounds cnt with
  | nil =>
    cases rounds with
    | zero => exact .out_of_rounds _
    | succ rounds => exact .of_eq (if_pos (chain_nil.mp chain))
  | cons q nodes ih =>
    cases rounds with
    | zero => exact .out_of_rounds _
    | succ rounds =>
      obtain rfl : p = q := chain.head_eq
      rw [lengthLoop, if_neg (chain.ne_null List.mem_cons_self),
        get_ok (mapped p List.mem_cons_self), ok_bind, List.length_cons,
        show cnt + (nodes.length + 1) = cnt + 1 + nodes.length by omega]
      have rest : Chain 0 st.next (st.next p) nodes := chain.rest
      exact (ih rest (fun r inside => mapped r (List.mem_cons_of_mem p inside)) rounds _).succ

/-- `memlist_byte_size` adds up the lengths, as far as the sum fits. -/
theorem byteSizeLoop_settles (chain : Chain 0 st.next p nodes) (mapped : ∀ q ∈ nodes, st.Mapped q)
    (proper : ∀ q ∈ nodes, (st.regions q).start ≤ (st.regions q).stop ∧ (st.regions q).stop < 2 ^ 64)
    (rounds cnt : Nat) (fits : cnt + (nodes.map fun q => (st.regions q).extent.len).sum < 2 ^ 64) :
    Settles .spent nodes.length rounds (byteSizeLoop st rounds p cnt)
      (.ok (cnt + (nodes.map fun q => (st.regions q).extent.len).sum)) := by
  induction nodes generalizing p rounds cnt with
  | nil =>
    cases rounds with
    | zero => exact .out_of_rounds _
    | succ rounds => exact .of_eq (if_pos (chain_nil.mp chain))
  | cons q nodes ih =>
    cases rounds with
    | zero => exact .out_of_rounds _
    | succ rounds =>
      obtain rfl : p = q := chain.head_eq
      obtain ⟨ordered, below⟩ := proper p List.mem_cons_self
      rw [List.map_cons, List.sum_cons, ← Nat.add_assoc] at fits ⊢
      have sum : add cnt (sub (st.regions p).stop (st.regions p).start) =
          cnt + (st.regions p).extent.len := by
        rw [sub_of_le ordered below]
        exact add_of_lt (Nat.lt_of_le_of_lt (Nat.le_add_right _ _) fits)
      rw [byteSizeLoop, if_neg (chain.ne_null List.mem_cons_self),
        get_ok (mapped p List.mem_cons_self), ok_bind, sum]
      have rest : Chain 0 st.next (st.next p) nodes := chain.rest
      exact (ih rest (fun r inside => mapped r (List.mem_cons_of_mem p inside))
        (fun r inside => proper r (List.mem_cons_of_mem p inside)) rounds _ fits).succ

/-! ### Removals -/

/-- An object that is taken off a list leaves the lists as they should be. -/
theorem Valid.removed (valid : Valid st lists) (inside : p ∈ lists list) :
    ∃ st', remove list p st = .ok st' ∧ SameRegions st st' ∧
      Valid st' (Function.update lists list ((lists list).erase p)) ∧
      Loose st' (Function.update lists list ((lists list).erase p)) p := by
  obtain ⟨front, back, split⟩ := List.append_of_mem inside
  obtain ⟨st', ran, edit, shape, loose⟩ := remove_spec valid.toShape split
  have absent : p ∉ front := fun member =>
    (split ▸ valid.doubly list).forward.not_mem_rest (List.mem_append_left _ member)
  have rest : (lists list).erase p = front ++ back := by
    rw [split, List.erase_append_right _ absent, List.erase_cons_head]
  refine ⟨st', ran, edit.regions, ⟨rest ▸ shape, fun other sorted => ?_⟩, rest ▸ loose⟩
  have same (nodes : List Nat) (ordered : Ordered st nodes) : Ordered st' nodes :=
    ordered.congr fun q _ => ⟨(edit.regions q).1, (edit.regions q).2.1⟩
  by_cases equal : other = list
  · subst equal
    rw [Function.update_self]
    exact same _ ((valid.ordered other sorted).sublist List.erase_sublist)
  · rw [Function.update_of_ne equal]
    exact same _ (valid.ordered other sorted)

/-- A loose object is put on a list that has no order. -/
theorem Valid.pushed (valid : Valid st lists) (list : ListName) (unsorted : ¬ list.Sorted)
    (loose : Loose st lists p) :
    ∃ st', insertFront list p st = .ok st' ∧ SameRegions st st' ∧
      Valid st' (Function.update lists list (p :: lists list)) := by
  obtain ⟨st', ran, edit, shape, -⟩ := insertFront_spec valid.toShape list loose
  refine ⟨st', ran, edit.regions, ⟨shape, fun other sorted => ?_⟩⟩
  have apart : other ≠ list := fun equal => unsorted (equal ▸ sorted)
  rw [Function.update_of_ne apart]
  exact (valid.ordered other sorted).congr fun q _ => ⟨(edit.regions q).1, (edit.regions q).2.1⟩

theorem set_mapped {change : Region → Region} (ran : st.set p change = .ok st') : st.Mapped p := by
  by_contra unmapped
  rw [Store.set, if_neg unmapped] at ran
  exact nomatch ran

/-- The `data` of an object is written. -/
theorem Valid.marked (valid : Valid st lists) (mapped : st.Mapped p) (data : Nat) :
    ∃ st', st.set p (fun r => { r with data := data }) = .ok st' ∧ Valid st' lists ∧
      (∀ q, (st'.regions q).extent = (st.regions q).extent) ∧
      ∀ q, (st'.regions q).data = if q = p then data else (st.regions q).data := by
  let change (r : Region) : Region := { r with data := data }
  have bounds : ∀ q, ((st.put p change).regions q).start = (st.regions q).start ∧
      ((st.put p change).regions q).stop = (st.regions q).stop := by
    intro q
    rw [put_regions]
    split_ifs with same
    · exact same ▸ ⟨rfl, rfl⟩
    · exact ⟨rfl, rfl⟩
  have shape : Shape (st.put p change) lists := by
    refine valid.toShape.put ?_ ?_ p <;> exact fun _ => rfl
  refine ⟨st.put p change, set_ok mapped,
    ⟨shape, fun list sorted => (valid.ordered list sorted).congr fun q _ => bounds q⟩, fun q => ?_,
    fun q => ?_⟩
  · rw [Region.extent, (bounds q).1, (bounds q).2, Region.extent]
  · rw [put_regions]
    split_ifs with same
    · rfl
    · rfl

end

/-! ### Runs -/

/-- The states that the framework's use of the lists leads to. A region is added to a
sorted list. An object that a search has found there is marked, or taken off, and then
dropped, recycled, or put on the list of the freed ones. -/
inductive Reached : Store → Prop where
  | start : Reached .initial
  | add : Reached st → list.Sorted → addRegion rounds list start len st = .ok (new, st') → Reached st'
  | mark (data : Nat) : Reached st → list.Sorted → find rounds list ptr st = .ok p →
      st.set p (fun r => { r with data := data }) = .ok st' → Reached st'
  | drop : Reached st → list.Sorted → find rounds list ptr st = .ok p → p ≠ 0 →
      remove list p st = .ok st' → Reached st'
  | recycle : Reached st → list.Sorted → find rounds list ptr st = .ok p → p ≠ 0 →
      remove list p st = .ok st₁ → freeRegionObject p st₁ = .ok st' → Reached st'
  | retire : Reached st → list.Sorted → find rounds list ptr st = .ok p → p ≠ 0 →
      remove list p st = .ok st₁ → insertFront .freedAllocs p st₁ = .ok st' → Reached st'

section
variable {st st' : Store} {lists : ListName → List Nat} {list : ListName}
  {p new start stop len : Nat} {nodes : List Nat} {areas : List Extent} {region : Region}

/-- In every state that is reached the lists are what they should be. -/
theorem Reached.valid (reached : Reached st) : ∃ lists, Valid st lists := by
  induction reached with
  | start => exact ⟨_, valid_initial⟩
  | add _ sorted ran ih =>
    obtain ⟨lists, valid⟩ := ih
    obtain ⟨lists', -, added⟩ := addRegion_returned valid sorted ran
    exact ⟨lists', added.valid⟩
  | mark data _ sorted found ran ih =>
    obtain ⟨lists, valid⟩ := ih
    obtain ⟨_, ran', valid', -⟩ := valid.marked (set_mapped ran) data
    cases ran'.symm.trans ran
    exact ⟨lists, valid'⟩
  | drop _ sorted found some ran ih =>
    obtain ⟨lists, valid⟩ := ih
    obtain ⟨_, ran', -, valid', -⟩ := valid.removed (find_returned valid sorted found some).1
    cases ran'.symm.trans ran
    exact ⟨_, valid'⟩
  | recycle _ sorted found some ran ran₂ ih =>
    obtain ⟨lists, valid⟩ := ih
    obtain ⟨_, ran', -, valid₁, loose⟩ := valid.removed (find_returned valid sorted found some).1
    cases ran'.symm.trans ran
    obtain ⟨_, ran₂', -, valid'⟩ := valid₁.pushed .freelist id loose
    cases ran₂'.symm.trans ran₂
    exact ⟨_, valid'⟩
  | retire _ sorted found some ran ran₂ ih =>
    obtain ⟨lists, valid⟩ := ih
    obtain ⟨_, ran', -, valid₁, loose⟩ := valid.removed (find_returned valid sorted found some).1
    cases ran'.symm.trans ran
    obtain ⟨_, ran₂', -, valid'⟩ := valid₁.pushed .freedAllocs id loose
    cases ran₂'.symm.trans ran₂
    exact ⟨_, valid'⟩

/-- No region reaches beyond the last address. -/
theorem Reached.bounded (reached : Reached st) (q : Nat) : (st.regions q).stop < 2 ^ 64 := by
  induction reached with
  | start => exact Nat.two_pow_pos 64
  | add before sorted ran ih =>
    obtain ⟨lists, valid⟩ := before.valid
    obtain ⟨lists', -, added⟩ := addRegion_returned valid sorted ran
    by_contra high
    have other := added.same q fun equal =>
      high (equal ▸ added.stop.symm ▸ Nat.mod_lt _ (Nat.two_pow_pos 64))
    exact high (other.2.1.symm ▸ ih)
  | mark data _ _ _ ran ih =>
    rw [Store.set, if_pos (set_mapped ran)] at ran
    cases ran
    rw [put_regions]
    split_ifs with same
    · exact same ▸ ih
    · exact ih
  | drop before sorted found some ran ih =>
    obtain ⟨lists, valid⟩ := before.valid
    obtain ⟨_, ran', same, -⟩ := valid.removed (find_returned valid sorted found some).1
    cases ran'.symm.trans ran
    exact (same q).2.1.symm ▸ ih
  | recycle before sorted found some ran ran₂ ih =>
    obtain ⟨lists, valid⟩ := before.valid
    obtain ⟨_, ran', same, valid₁, loose⟩ := valid.removed (find_returned valid sorted found some).1
    cases ran'.symm.trans ran
    obtain ⟨_, ran₂', same', -⟩ := valid₁.pushed .freelist id loose
    cases ran₂'.symm.trans ran₂
    exact ((same' q).2.1.trans (same q).2.1).symm ▸ ih
  | retire before sorted found some ran ran₂ ih =>
    obtain ⟨lists, valid⟩ := before.valid
    obtain ⟨_, ran', same, valid₁, loose⟩ := valid.removed (find_returned valid sorted found some).1
    cases ran'.symm.trans ran
    obtain ⟨_, ran₂', same', -⟩ := valid₁.pushed .freedAllocs id loose
    cases ran₂'.symm.trans ran₂
    exact ((same' q).2.1.trans (same q).2.1).symm ▸ ih

/-- The memory of an object's region. -/
def Store.area (st : Store) (p : Nat) : Extent := (st.regions p).extent

/-- The list holds these areas, forwards from its head and backwards from its tail. -/
def Store.Holds (st : Store) (list : ListName) (areas : List Extent) : Prop :=
  ∃ nodes, Doubly 0 st.next st.prev (st.head list) (st.tail list) nodes ∧ nodes.map st.area = areas

theorem Shape.holds (shape : Shape st lists) (list : ListName) :
    st.Holds list ((lists list).map st.area) := ⟨_, shape.doubly list, rfl⟩

theorem Shape.holds_iff (shape : Shape st lists) :
    st.Holds list areas ↔ (lists list).map st.area = areas := by
  constructor
  · rintro ⟨nodes, doubly, same⟩
    rw [chain_unique (shape.doubly list).forward doubly.forward]
    exact same
  · rintro rfl
    exact shape.holds list

/-- An area on an ordered list shares an address with another one. -/
theorem Ordered.overlaps_iff (ordered : Ordered st nodes) (inside : p ∈ nodes) (positive : 0 < len) :
    ¬ (st.area p).Apart ⟨start, len⟩ ↔
      start < (st.regions p).stop ∧ (st.regions p).start < start + len := by
  have nonempty := ordered.nonempty p inside
  have first : 0 < (st.area p).len := Nat.sub_pos_of_lt nonempty
  rw [Extent.apart_iff first positive]
  simp only [Store.area, Region.extent, Extent.stop]
  omega

theorem Ordered.area_stop (ordered : Ordered st nodes) (inside : p ∈ nodes) :
    (st.area p).stop = (st.regions p).stop := by
  have nonempty := ordered.nonempty p inside
  simp only [Store.area, Region.extent, Extent.stop]
  omega

/-- No two regions begin at the same address. -/
theorem Ordered.start_inj (ordered : Ordered st nodes) (inside : p ∈ nodes) (inside' : q ∈ nodes)
    (same : (st.regions p).start = (st.regions q).start) : p = q := by
  have distinct : (nodes.map fun p => (st.regions p).start).Nodup := by
    refine List.pairwise_map.mpr (ordered.sorted.imp_of_mem fun {p q} inside _ before equal => ?_)
    have nonempty := ordered.nonempty p inside
    omega
  exact List.inj_on_of_nodup_map distinct inside inside' same

/-- The area of a new object. -/
theorem Added.area {lists' : ListName → List Nat}
    (added : Added list start stop st lists new st' lists') :
    st'.area new = ⟨start, stop - start⟩ := by
  rw [Store.area, Region.extent, added.start, added.stop]

/-- The areas of the objects that were there before. -/
theorem Added.kept {lists' : ListName → List Nat} {other : ListName}
    (added : Added list start stop st lists new st' lists') (listed : other ≠ .freelist)
    (sub : nodes ⊆ lists other) : nodes.map st'.area = nodes.map st.area := by
  refine List.map_congr_left fun p inside => ?_
  have apart : p ≠ new := fun equal => added.unlisted other listed (equal ▸ sub inside)
  rw [Store.area, Region.extent, (added.same p apart).1, (added.same p apart).2.1]
  rfl

/-- The regions in front of it end where it begins or before, and those behind it begin
where it ends or after. -/
theorem Added.between {lists' : ListName → List Nat} (sorted : list.Sorted)
    (added : Added list start stop st lists new st' lists') :
    ∃ front back, lists list = front ++ back ∧ lists' list = front ++ new :: back ∧
      (∀ p ∈ front, (st.regions p).stop ≤ start) ∧ ∀ p ∈ back, stop ≤ (st.regions p).start := by
  obtain ⟨front, back, split, split'⟩ := added.place
  have other : ∀ p ∈ lists list, p ≠ new := fun p inside equal =>
    added.unlisted list sorted.ne_freelist (equal ▸ inside)
  have ordered := (split' ▸ added.valid.ordered list sorted).sorted
  obtain ⟨-, second, across⟩ := List.pairwise_append.mp ordered
  refine ⟨front, back, split, split', fun p inside => ?_, fun p inside => ?_⟩
  · have apart := other p (split ▸ List.mem_append_left back inside)
    rw [← (added.same p apart).2.1, ← added.start]
    exact across p inside new List.mem_cons_self
  · have apart := other p (split ▸ List.mem_append_right front inside)
    rw [← (added.same p apart).1, ← added.stop]
    exact (List.pairwise_cons.mp second).1 p inside

/-- It overlaps none of them. -/
theorem Added.apart {lists' : ListName → List Nat} (sorted : list.Sorted)
    (added : Added list start stop st lists new st' lists') (inside : p ∈ lists list) :
    (st.regions p).stop ≤ start ∨ stop ≤ (st.regions p).start := by
  obtain ⟨front, back, split, -, below, above⟩ := added.between sorted
  rw [split, List.mem_append] at inside
  exact inside.imp (below p) (above p)

theorem Reached.holds_unique (reached : Reached st) (one : st.Holds list areas)
    (other : st.Holds list areas') : areas = areas' := by
  obtain ⟨lists, valid⟩ := reached.valid
  exact (valid.holds_iff.mp one).symm.trans (valid.holds_iff.mp other)

/-- An area above all others is the last one. -/
theorem Reached.above (reached : Reached st) (sorted : list.Sorted) (holds : st.Holds list areas)
    (start len : Nat) (positive : 0 < len) (fits : start + len < 2 ^ 64) (below : ∀ e ∈ areas, e.stop ≤ start) :
    ∃ st', Reached st' ∧ st'.Holds list (areas ++ [⟨start, len⟩]) := by
  obtain ⟨lists, valid⟩ := reached.valid
  have ordered := valid.ordered list sorted
  have same := valid.holds_iff.mp holds
  have exact : (start + len) % 2 ^ 64 = start + len := Nat.mod_eq_of_lt fits
  have positive' : start < (start + len) % 2 ^ 64 := by omega
  have under : ∀ q ∈ lists list, (st.regions q).stop ≤ start := fun q inside =>
    ordered.area_stop inside ▸ below _ (same ▸ List.mem_map_of_mem inside)
  obtain ⟨new, st', lists', added, settles⟩ | ⟨q, inside, overlap, -⟩ :=
    addRegion_settles valid sorted positive'
  · obtain ⟨front, back, split, split'⟩ := added.place
    have last : back = [] := by
      -- nothing comes behind what ends above everything
      refine List.eq_nil_iff_forall_not_mem.mpr fun q inside => ?_
      have listed : q ∈ lists list := by simp [split, inside]
      have order := (split' ▸ added.valid.ordered list sorted).sorted
      have behind := (List.pairwise_cons.mp (List.pairwise_append.mp order).2.1).1 q inside
      have other : q ≠ new := fun equal => added.unlisted list sorted.ne_freelist (equal ▸ listed)
      rw [added.stop, (added.same q other).1] at behind
      have nonempty := ordered.nonempty q listed
      have under := under q listed
      omega
    subst last
    refine ⟨st', reached.add sorted ((settles _).reached (Nat.lt_succ_self _)),
      added.valid.holds_iff.mpr ?_⟩
    rw [List.append_nil] at split
    rw [split', List.map_append, List.map_singleton, added.area, exact, Nat.add_sub_cancel_left,
      added.kept sorted.ne_freelist (split ▸ List.Subset.refl _), ← split, same]
  · have under := under q inside
    omega

/-- Two areas on one list. -/
theorem reached_two : ∃ st, Reached st ∧ st.Holds .allocs [⟨4096, 64⟩, ⟨8192, 16⟩] := by
  have sorted : ListName.allocs.Sorted := trivial
  obtain ⟨st, reached, holds⟩ := Reached.start.above sorted (valid_initial.holds _) 4096 64 (by decide)
    (by decide) (by simp)
  exact reached.above sorted holds 8192 16 (by decide) (by decide) (by simp [Extent.stop])

theorem Ordered.in_order (ordered : Ordered st nodes) : (∀ e ∈ nodes.map st.area, 0 < e.len) ∧
    (nodes.map st.area).Pairwise fun e f => e.stop ≤ f.lo := by
  constructor
  · intro e member
    obtain ⟨p, inside, rfl⟩ := List.mem_map.mp member
    exact Nat.sub_pos_of_lt (ordered.nonempty p inside)
  · refine List.pairwise_map.mpr (ordered.sorted.imp_of_mem fun inside _ before => ?_)
    rw [ordered.area_stop inside]
    exact before

/-- In every state that is reached a list is a set of areas in the order of their addresses,
and an area is added to it at its place unless it is empty, runs over the end of the
addresses, or shares an address with one that is there. Then the message shows the lowest
such area. -/
theorem reached_add (reached : Reached st) (sorted : list.Sorted) (low : start < 2 ^ 64)
    (short : len < 2 ^ 64) : ∃ areas, st.Holds list areas ∧ (∀ e ∈ areas, 0 < e.len) ∧
      areas.Pairwise (fun e f => e.stop ≤ f.lo) ∧ ∀ rounds, areas.length < rounds →
      (len = 0 ∨ 2 ^ 64 ≤ start + len → addRegion rounds list start len st =
        .error (.invalidRegion start ((start + len) % 2 ^ 64) len)) ∧
      (0 < len → start + len < 2 ^ 64 → (∀ e ∈ areas, e.Apart ⟨start, len⟩) →
        ∃ new st' front back, addRegion rounds list start len st = .ok (new, st') ∧
          areas = front ++ back ∧ (∀ e ∈ front, e.stop ≤ start) ∧ (∀ e ∈ back, start + len ≤ e.lo) ∧
          st'.area new = ⟨start, len⟩ ∧ st'.Holds list (front ++ ⟨start, len⟩ :: back) ∧
          ∀ other, other ≠ list → other ≠ .freelist →
            ∀ kept, st.Holds other kept → st'.Holds other kept) ∧
      (0 < len → start + len < 2 ^ 64 → ∀ e ∈ areas, ¬ e.Apart ⟨start, len⟩ →
        (∀ f ∈ areas, ¬ f.Apart ⟨start, len⟩ → e.lo ≤ f.lo) →
          addRegion rounds list start len st =
            .error (.overlaps start (start + len) e.lo e.stop)) := by
  obtain ⟨lists, valid⟩ := reached.valid
  have ordered := valid.ordered list sorted
  obtain ⟨nonempty, ascending⟩ := ordered.in_order
  refine ⟨_, valid.holds list, nonempty, ascending, fun rounds enough => ?_⟩
  rw [List.length_map] at enough
  by_cases wrong : len = 0 ∨ 2 ^ 64 ≤ start + len
  · refine ⟨fun _ => addRegion_invalid ?_ rounds, fun positive fits => ?_, fun positive fits => ?_⟩
    all_goals omega
  · have positive : 0 < len := by omega
    have fits : start + len < 2 ^ 64 := by omega
    have positive' : start < (start + len) % 2 ^ 64 := by omega
    have outcome := addRegion_settles valid sorted positive'
    rw [Nat.mod_eq_of_lt fits] at outcome
    refine ⟨fun invalid => absurd invalid wrong, fun _ _ apart => ?_, fun _ _ e inside shared lowest => ?_⟩
    · obtain ⟨new, st', lists', added, settles⟩ | ⟨q, inside, overlap, -⟩ := outcome
      · obtain ⟨front, back, split, split', below, above⟩ := added.between sorted
        refine ⟨new, st', front.map st.area, back.map st.area, (settles rounds).reached enough,
          by rw [split, List.map_append], fun e member => ?_, fun e member => ?_, ?_,
          added.valid.holds_iff.mpr ?_,
          fun other apart' listed kept holds => added.valid.holds_iff.mpr ?_⟩
        · obtain ⟨p, inside, rfl⟩ := List.mem_map.mp member
          rw [ordered.area_stop (split ▸ List.mem_append_left back inside)]
          exact below p inside
        · obtain ⟨p, inside, rfl⟩ := List.mem_map.mp member
          exact above p inside
        · rw [added.area, Nat.add_sub_cancel_left]
        · rw [split', List.map_append, List.map_cons, added.area, Nat.add_sub_cancel_left,
            added.kept sorted.ne_freelist (split ▸ List.subset_append_left front back),
            added.kept sorted.ne_freelist (split ▸ List.subset_append_right front back)]
        · rw [added.others other apart' listed, added.kept listed (List.Subset.refl _)]
          exact valid.holds_iff.mp holds
      · exact absurd (apart _ (List.mem_map_of_mem inside))
          ((ordered.overlaps_iff inside positive).mpr overlap)
    · obtain ⟨p, listed, rfl⟩ := List.mem_map.mp inside
      have overlap := (ordered.overlaps_iff listed positive).mp shared
      obtain ⟨new, st', lists', added, -⟩ | ⟨q, listed', overlap', lowest', settles⟩ := outcome
      · have apart := added.apart sorted listed
        omega
      · -- both are the lowest
        have below := lowest _ (List.mem_map_of_mem listed')
          ((ordered.overlaps_iff listed' positive).mpr overlap')
        have same := ordered.start_inj listed listed'
          (Nat.le_antisymm below (lowest' p listed overlap.1 overlap.2))
        rw [(settles rounds).reached enough, ordered.area_stop listed, same]
        rfl

/-- The lower of two areas is shown. -/
theorem reached_add_overlapping : ∃ st, st.Holds .allocs [⟨4096, 64⟩, ⟨8192, 16⟩] ∧
    addRegion 3 .allocs 4100 5000 st = .error (.overlaps 4100 9100 4096 4160) := by
  obtain ⟨st, reached, holds⟩ := reached_two
  have sorted : ListName.allocs.Sorted := trivial
  have low : 4100 < 2 ^ 64 := by decide
  have short : 5000 < 2 ^ 64 := by decide
  refine ⟨st, holds, ?_⟩
  obtain ⟨areas, holds', -, -, outcome⟩ := reached_add reached sorted low short
  obtain rfl := reached.holds_unique holds' holds
  exact (outcome 3 (by decide)).2.2 (by decide) (by decide) ⟨4096, 64⟩ (by decide)
    (by rw [Extent.apart_iff] <;> decide) (by simp)

/-- Areas in ascending order take no more room than lies below their end. -/
theorem sum_len_le (order : areas.Pairwise fun e f => e.stop ≤ f.lo) (high : ∀ e ∈ areas, e.stop ≤ stop)
    (low : ∀ e ∈ areas, start ≤ e.lo) (ordered : start ≤ stop) :
    start + (areas.map Extent.len).sum ≤ stop := by
  induction areas generalizing start with
  | nil => exact ordered
  | cons e areas ih =>
    obtain ⟨above, order⟩ := List.pairwise_cons.mp order
    have first := low e List.mem_cons_self
    have rest := ih order (fun f inside => high f (List.mem_cons_of_mem e inside)) above
      (high e List.mem_cons_self)
    simp only [Extent.stop] at rest
    rw [List.map_cons, List.sum_cons]
    omega

/-- In every state that is reached a sorted list holds nonempty areas in the order of
their addresses, and a search finds the one that contains the pointer, if there is one. -/
theorem reached_search (reached : Reached st) (sorted : list.Sorted) :
    ∃ areas, st.Holds list areas ∧ (∀ e ∈ areas, 0 < e.len) ∧
      areas.Pairwise (fun e f => e.stop ≤ f.lo) ∧ ∀ rounds, areas.length < rounds →
        length rounds list st = .ok areas.length ∧
        byteSize rounds list st = .ok (areas.map Extent.len).sum ∧
        ∀ ptr, ∃ p, find rounds list ptr st = .ok p ∧
          (p ≠ 0 → st.area p ∈ areas ∧ (st.area p).Holds ptr) ∧
          (p = 0 → ∀ e ∈ areas, ¬ e.Holds ptr) := by
  obtain ⟨lists, valid⟩ := reached.valid
  have chain := (valid.doubly list).forward
  have mapped : ∀ q ∈ lists list, st.Mapped q := fun _ inside => valid.mapped inside
  obtain ⟨positive, order⟩ := (valid.ordered list sorted).in_order
  refine ⟨_, valid.holds list, positive, order, fun rounds enough => ?_⟩
  rw [List.length_map] at enough ⊢
  refine ⟨?_, ?_, fun ptr => ?_⟩
  · rw [length, (lengthLoop_settles chain mapped rounds 0).reached enough, Nat.zero_add]
  · have proper : ∀ q ∈ lists list, (st.regions q).start ≤ (st.regions q).stop ∧
        (st.regions q).stop < 2 ^ 64 := fun q inside =>
      ⟨Nat.le_of_lt ((valid.ordered list sorted).nonempty q inside), reached.bounded q⟩
    have high : ∀ e ∈ (lists list).map st.area, e.stop ≤ 2 ^ 64 - 1 := by
      intro e member
      obtain ⟨q, inside, rfl⟩ := List.mem_map.mp member
      rw [(valid.ordered list sorted).area_stop inside]
      exact Nat.le_sub_one_of_lt (reached.bounded q)
    have room : 0 + (((lists list).map st.area).map Extent.len).sum ≤ 2 ^ 64 - 1 :=
      sum_len_le order high (fun _ _ => Nat.zero_le _) (Nat.zero_le _)
    have fits : 0 + ((lists list).map fun q => (st.regions q).extent.len).sum < 2 ^ 64 := by
      rw [List.map_map] at room
      exact Nat.lt_of_le_of_lt room (by decide)
    rw [byteSize, (byteSizeLoop_settles chain mapped proper rounds 0 fits).reached enough, Nat.zero_add,
      List.map_map]
    rfl
  · have ran := (find_settles valid sorted ptr rounds).reached enough
    refine ⟨_, ran, fun some => ?_, fun none e member holds => ?_⟩
    · obtain ⟨inside, holds⟩ := find_returned valid sorted ran some
      exact ⟨List.mem_map_of_mem inside, holds⟩
    · obtain ⟨q, inside, rfl⟩ := List.mem_map.mp member
      cases found : (lists list).find? (st.contains ptr) with
      | none => exact List.find?_eq_none.mp found q inside (decide_eq_true holds)
      | some r =>
        rw [found] at none
        exact (mapped r (List.mem_of_find?_eq_some found)).1 none

/-- The last byte of the second area. -/
theorem reached_search_second : ∃ st p, find 3 .allocs 8207 st = .ok p ∧ p ≠ 0 ∧
    (st.area p).Holds 8207 := by
  obtain ⟨st, reached, holds⟩ := reached_two
  have sorted : ListName.allocs.Sorted := trivial
  obtain ⟨areas, holds', -, -, outcome⟩ := reached_search reached sorted
  obtain rfl := reached.holds_unique holds' holds
  obtain ⟨p, ran, found, missed⟩ := (outcome 3 (by decide)).2.2 8207
  have some : p ≠ 0 := fun none => missed none ⟨8192, 16⟩ (by decide) (by decide)
  exact ⟨st, p, ran, some, (found some).2⟩

/-- In every state that is reached `memlist_find_overlap` says whether the region shares
an address with the lowest area of the list. The search that is meant for unsorted lists
says whether it shares one with any area. -/
theorem reached_overlap (reached : Reached st) (sorted : list.Sorted)
    (positive : region.start < region.stop) :
    ∃ areas, st.Holds list areas ∧ ∀ rounds, areas.length < rounds →
      (∃ found, findOverlap rounds list region st = .ok found ∧
        (found = true ↔ ∃ e ∈ areas.head?, ¬ e.Apart region.extent)) ∧
      ∃ found, findOverlapUnsorted rounds list region st = .ok found ∧
        (found = true ↔ ∃ e ∈ areas, ¬ e.Apart region.extent) := by
  obtain ⟨lists, valid⟩ := reached.valid
  have ordered := valid.ordered list sorted
  have mapped : ∀ q ∈ lists list, st.Mapped q := fun _ inside => valid.mapped inside
  have overlaps : ∀ p ∈ lists list, regionsOverlap (st.regions p) region = true ↔
      ¬ (st.area p).Apart region.extent := fun p inside =>
    regionsOverlap_iff_not_apart (ordered.nonempty p inside) positive
  refine ⟨_, valid.holds list, fun rounds enough => ?_⟩
  rw [List.length_map] at enough
  refine ⟨⟨_, (findOverlap_settles valid.toShape ordered rounds).reached (by omega), ?_⟩,
    ⟨_, (overlapUnsortedLoop_settles (valid.doubly list).forward mapped _).reached enough, ?_⟩⟩
  · cases nodes : lists list with
    | nil => simp
    | cons p rest => simpa using overlaps p (nodes ▸ List.mem_cons_self)
  · simp only [List.any_eq_true, List.mem_map]
    constructor
    · rintro ⟨p, inside, shared⟩
      exact ⟨_, ⟨p, inside, rfl⟩, (overlaps p inside).mp shared⟩
    · rintro ⟨_, ⟨p, inside, rfl⟩, shared⟩
      exact ⟨p, inside, (overlaps p inside).mpr shared⟩

/-- The second of two areas is missed. -/
theorem reached_overlap_missed : ∃ st, st.Holds .allocs [⟨4096, 64⟩, ⟨8192, 16⟩] ∧
    findOverlap 3 .allocs ⟨8192, 8200, 0, 0, 0⟩ st = .ok false ∧
    findOverlapUnsorted 3 .allocs ⟨8192, 8200, 0, 0, 0⟩ st = .ok true := by
  obtain ⟨st, reached, holds⟩ := reached_two
  have sorted : ListName.allocs.Sorted := trivial
  have positive : Region.start ⟨8192, 8200, 0, 0, 0⟩ < Region.stop ⟨8192, 8200, 0, 0, 0⟩ := by decide
  obtain ⟨areas, holds', outcome⟩ := reached_overlap reached sorted positive
  obtain rfl := reached.holds_unique holds' holds
  obtain ⟨⟨found, ran, first⟩, found', ran', any⟩ := outcome 3 (by decide)
  have before : (⟨4096, 64⟩ : Extent).Apart ⟨8192, 8⟩ := by rw [Extent.apart_iff] <;> decide
  have shared : ¬ (⟨8192, 16⟩ : Extent).Apart ⟨8192, 8⟩ := by rw [Extent.apart_iff] <;> decide
  have missed : found ≠ true := by
    rw [Ne, first]
    rintro ⟨e, head, other⟩
    cases head
    exact other before
  have seen : found' = true := any.mpr ⟨_, List.mem_cons_of_mem _ List.mem_cons_self, shared⟩
  exact ⟨st, holds, by rw [ran, Bool.eq_false_iff.mpr missed], by rw [ran', seen]⟩

end

end Comp304.Framework
