import Mathlib.Data.List.Pairwise
import Mathlib.Data.List.Perm.Basic

/-! Address ranges cut into extents. A tiling gives every address of a range
to exactly one extent. A space is a tiling whose extents are in use or free,
with the free ones fully coalesced and none left at the top; such a space is
determined by its bottom and by what is in use. -/
namespace Comp304.Library.Extents

/-- A run of `len` addresses from `lo`. -/
structure Extent where
  lo : Nat
  len : Nat
  deriving DecidableEq, Repr

namespace Extent

def stop (e : Extent) : Nat := e.lo + e.len

/-- The address lies in the extent. -/
def Holds (e : Extent) (x : Nat) : Prop := e.lo ≤ x ∧ x < e.stop

instance (e : Extent) (x : Nat) : Decidable (e.Holds x) := inferInstanceAs (Decidable (_ ∧ _))

/-- No address lies in both. -/
def Apart (e f : Extent) : Prop := ∀ x, e.Holds x → ¬ f.Holds x

theorem Apart.symm (apart : Apart e f) : Apart f e := fun x inF inE => apart x inE inF

instance : Std.Symm Apart := ⟨fun _ _ => Apart.symm⟩

theorem holds_lo (positive : 0 < e.len) : Holds e e.lo := by
  simp only [Holds, stop]
  omega

/-- Nonempty extents are apart when one ends before the other begins. -/
theorem apart_iff (positive : 0 < e.len) (positive' : 0 < f.len) :
    Apart e f ↔ e.stop ≤ f.lo ∨ f.stop ≤ e.lo := by
  simp only [Apart, Holds, stop]
  constructor
  · intro apart
    by_contra overlap
    have first := apart (max e.lo f.lo)
    omega
  · intro order x inE inF
    omega

end Extent

/-- Every address of the range lies in exactly one of the extents. -/
structure Tiling (lo hi : Nat) (tiles : List Extent) : Prop where
  ordered : lo ≤ hi
  positive : ∀ e ∈ tiles, 0 < e.len
  inside : ∀ e ∈ tiles, lo ≤ e.lo ∧ e.stop ≤ hi
  apart : tiles.Pairwise Extent.Apart
  cover : ∀ x, lo ≤ x → x < hi → ∃ e ∈ tiles, e.Holds x

namespace Tiling

theorem perm (same : tiles.Perm tiles') (tiling : Tiling lo hi tiles) : Tiling lo hi tiles' where
  ordered := tiling.ordered
  positive e member := tiling.positive e (same.mem_iff.mpr member)
  inside e member := tiling.inside e (same.mem_iff.mpr member)
  apart := (same.pairwise_iff fun apart => apart.symm).mp tiling.apart
  cover x low high := by
    obtain ⟨e, member, holds⟩ := tiling.cover x low high
    exact ⟨e, same.mem_iff.mp member, holds⟩

/-- An empty range has no extents. -/
theorem empty (lo : Nat) : Tiling lo lo [] where
  ordered := Nat.le_refl lo
  positive := by simp
  inside := by simp
  apart := List.Pairwise.nil
  cover x low high := by omega

theorem head_apart (tiling : Tiling lo hi (e :: tiles)) (member : f ∈ tiles) : e.Apart f :=
  (List.pairwise_cons.mp tiling.apart).1 f member

/-- Two extents of a tiling that share an address are one extent. -/
theorem eq_of_holds (tiling : Tiling lo hi tiles) (memberE : e ∈ tiles) (memberF : f ∈ tiles)
    (inE : e.Holds x) (inF : f.Holds x) : e = f := by
  by_contra different
  exact (tiling.apart.forall memberE memberF different) x inE inF

/-- Different extents of a tiling lie one after the other. -/
theorem order (tiling : Tiling lo hi tiles) (memberE : e ∈ tiles) (memberF : f ∈ tiles)
    (different : e ≠ f) : e.stop ≤ f.lo ∨ f.stop ≤ e.lo :=
  (Extent.apart_iff (tiling.positive e memberE) (tiling.positive f memberF)).mp
    (tiling.apart.forall memberE memberF different)

/-- Whatever ends below the top is followed directly by another extent. -/
theorem follower (tiling : Tiling lo hi tiles) (member : e ∈ tiles) (below : e.stop < hi) :
    ∃ f ∈ tiles, f.lo = e.stop := by
  have low := (tiling.inside e member).1
  have positive := tiling.positive e member
  obtain ⟨f, memberF, holds⟩ := tiling.cover e.stop (by simp only [Extent.stop]; omega) below
  refine ⟨f, memberF, ?_⟩
  by_contra different
  -- an extent that holds the end without starting there would overlap `e`
  have same : e = f := by
    apply tiling.eq_of_holds (x := e.stop - 1) member memberF <;>
      simp only [Extent.Holds, Extent.stop] at holds different ⊢ <;> omega
  subst same
  simp only [Extent.Holds] at holds
  omega

/-- The range grows by one extent at its top. -/
theorem grow (tiling : Tiling lo hi tiles) (positive : 0 < len) :
    Tiling lo (hi + len) (⟨hi, len⟩ :: tiles) where
  ordered := Nat.le_trans tiling.ordered (Nat.le_add_right _ _)
  positive e member := by
    rcases List.mem_cons.mp member with rfl | member
    · exact positive
    · exact tiling.positive e member
  inside e member := by
    rcases List.mem_cons.mp member with rfl | member
    · exact ⟨tiling.ordered, Nat.le_refl _⟩
    · have inside := tiling.inside e member
      exact ⟨inside.1, Nat.le_trans inside.2 (Nat.le_add_right _ _)⟩
  apart := by
    refine List.pairwise_cons.mpr ⟨?_, tiling.apart⟩
    intro e member x inNew inOld
    have inside := tiling.inside e member
    simp only [Extent.Holds] at inNew inOld
    omega
  cover x low high := by
    by_cases old : x < hi
    · obtain ⟨e, member, holds⟩ := tiling.cover x low old
      exact ⟨e, List.mem_cons_of_mem _ member, holds⟩
    · exact ⟨⟨hi, len⟩, List.mem_cons_self, by simp only [Extent.Holds, Extent.stop]; omega⟩

/-- The range shrinks by the extent at its top. -/
theorem shrink (tiling : Tiling lo hi (e :: tiles)) (top : e.stop = hi) :
    Tiling lo e.lo tiles where
  ordered := (tiling.inside e List.mem_cons_self).1
  positive f member := tiling.positive f (List.mem_cons_of_mem _ member)
  inside f member := by
    have inside := tiling.inside f (List.mem_cons_of_mem _ member)
    have posE := tiling.positive e List.mem_cons_self
    have posF := tiling.positive f (List.mem_cons_of_mem _ member)
    have order := (Extent.apart_iff posE posF).mp (tiling.head_apart member)
    simp only [Extent.stop] at order inside top ⊢
    omega
  apart := (List.pairwise_cons.mp tiling.apart).2
  cover x low high := by
    have inside := tiling.inside e List.mem_cons_self
    obtain ⟨f, member, holds⟩ := tiling.cover x low (by simp only [Extent.stop] at inside; omega)
    rcases List.mem_cons.mp member with rfl | member
    · simp only [Extent.Holds] at holds
      omega
    · exact ⟨f, member, holds⟩

/-- One extent is cut in two. -/
theorem split (tiling : Tiling lo hi (⟨a, s + t⟩ :: tiles)) (posS : 0 < s) (posT : 0 < t) :
    Tiling lo hi (⟨a, s⟩ :: ⟨a + s, t⟩ :: tiles) where
  ordered := tiling.ordered
  positive e member := by
    simp only [List.mem_cons] at member
    rcases member with rfl | rfl | member
    · exact posS
    · exact posT
    · exact tiling.positive e (List.mem_cons_of_mem _ member)
  inside e member := by
    have whole := tiling.inside _ List.mem_cons_self
    simp only [List.mem_cons] at member
    simp only [Extent.stop] at whole ⊢
    rcases member with rfl | rfl | member
    · simp only; omega
    · simp only; omega
    · exact tiling.inside e (List.mem_cons_of_mem _ member)
  apart := by
    have rest := (List.pairwise_cons.mp tiling.apart).2
    have whole : ∀ e ∈ tiles, Extent.Apart ⟨a, s + t⟩ e := fun e member => tiling.head_apart member
    refine List.pairwise_cons.mpr ⟨?_, List.pairwise_cons.mpr ⟨?_, rest⟩⟩
    · intro e member x inNew inOld
      rcases List.mem_cons.mp member with rfl | member
      · simp only [Extent.Holds, Extent.stop] at inNew inOld
        omega
      · refine whole e member x ?_ inOld
        simp only [Extent.Holds, Extent.stop] at inNew ⊢
        omega
    · intro e member x inNew inOld
      refine whole e member x ?_ inOld
      simp only [Extent.Holds, Extent.stop] at inNew ⊢
      omega
  cover x low high := by
    obtain ⟨e, member, holds⟩ := tiling.cover x low high
    rcases List.mem_cons.mp member with rfl | member
    · by_cases first : x < a + s
      · refine ⟨⟨a, s⟩, by simp, ?_⟩
        simp only [Extent.Holds, Extent.stop] at holds ⊢
        omega
      · refine ⟨⟨a + s, t⟩, by simp, ?_⟩
        simp only [Extent.Holds, Extent.stop] at holds ⊢
        omega
    · exact ⟨e, by simp [member], holds⟩

/-- Two adjacent extents become one. -/
theorem join (tiling : Tiling lo hi (⟨a, s⟩ :: ⟨a + s, t⟩ :: tiles)) :
    Tiling lo hi (⟨a, s + t⟩ :: tiles) where
  ordered := tiling.ordered
  positive e member := by
    have posS := tiling.positive ⟨a, s⟩ (by simp)
    rcases List.mem_cons.mp member with rfl | member
    · simp only at posS ⊢; omega
    · exact tiling.positive e (by simp [member])
  inside e member := by
    have left := tiling.inside ⟨a, s⟩ (by simp)
    have right := tiling.inside ⟨a + s, t⟩ (by simp)
    rcases List.mem_cons.mp member with rfl | member
    · simp only [Extent.stop] at left right ⊢; omega
    · exact tiling.inside e (by simp [member])
  apart := by
    obtain ⟨left, rest⟩ := List.pairwise_cons.mp tiling.apart
    obtain ⟨right, rest⟩ := List.pairwise_cons.mp rest
    refine List.pairwise_cons.mpr ⟨?_, rest⟩
    intro e member x inNew inOld
    by_cases first : x < a + s
    · refine left e (List.mem_cons_of_mem _ member) x ?_ inOld
      simp only [Extent.Holds, Extent.stop] at inNew ⊢
      omega
    · refine right e member x ?_ inOld
      simp only [Extent.Holds, Extent.stop] at inNew ⊢
      omega
  cover x low high := by
    obtain ⟨e, member, holds⟩ := tiling.cover x low high
    have posT := tiling.positive ⟨a + s, t⟩ (by simp)
    simp only [List.mem_cons] at member
    rcases member with rfl | rfl | member
    · refine ⟨⟨a, s + t⟩, by simp, ?_⟩
      simp only [Extent.Holds, Extent.stop] at holds ⊢
      omega
    · refine ⟨⟨a, s + t⟩, by simp, ?_⟩
      simp only [Extent.Holds, Extent.stop] at holds ⊢
      omega
    · exact ⟨e, by simp [member], holds⟩

end Tiling

/-- A tiling into used and free extents in which free extents never touch each
other and none of them reaches the top. -/
structure Space (lo hi : Nat) (used free : List Extent) : Prop where
  tiling : Tiling lo hi (used ++ free)
  separated : ∀ e ∈ free, ∀ f ∈ free, e.stop ≠ f.lo
  trimmed : ∀ e ∈ free, e.stop ≠ hi

namespace Space

theorem perm (sameUsed : used.Perm used') (sameFree : free.Perm free')
    (space : Space lo hi used free) : Space lo hi used' free' where
  tiling := space.tiling.perm (sameUsed.append sameFree)
  separated e memberE f memberF :=
    space.separated e (sameFree.mem_iff.mpr memberE) f (sameFree.mem_iff.mpr memberF)
  trimmed e member := space.trimmed e (sameFree.mem_iff.mpr member)

theorem empty (lo : Nat) : Space lo lo [] [] :=
  ⟨by simpa using Tiling.empty lo, by simp, by simp⟩

/-- Fresh addresses at the top come into use. -/
theorem grow (space : Space lo hi used free) (positive : 0 < len) :
    Space lo (hi + len) (⟨hi, len⟩ :: used) free where
  tiling := space.tiling.grow positive
  separated := space.separated
  trimmed e member := by
    have inside := (space.tiling.inside e (List.mem_append_right _ member)).2
    omega

/-- The front of a free extent comes into use, the rest stays free. -/
theorem carve (space : Space lo hi used (⟨a, s + t⟩ :: free)) (posS : 0 < s) (posT : 0 < t) :
    Space lo hi (⟨a, s⟩ :: used) (⟨a + s, t⟩ :: free) where
  tiling := by
    have cut := (space.tiling.perm List.perm_middle).split posS posT
    exact cut.perm (List.Perm.cons _ List.perm_middle.symm)
  separated e memberE f memberF := by
    have whole := space.separated
    rcases List.mem_cons.mp memberE with rfl | inE <;>
      rcases List.mem_cons.mp memberF with rfl | inF
    · simp only [Extent.stop]; omega
    · have sep := whole ⟨a, s + t⟩ (by simp) f (by simp [inF])
      simp only [Extent.stop] at sep ⊢
      omega
    · -- nothing free ends inside the extent that was cut
      have tiling := space.tiling.perm List.perm_middle
      have apart := tiling.head_apart (List.mem_append_right used inE)
      have positive := tiling.positive e (by simp [inE])
      rw [Extent.apart_iff (by simp only; omega) positive] at apart
      simp only [Extent.stop] at apart ⊢
      omega
    · exact whole e (by simp [inE]) f (by simp [inF])
  trimmed e member := by
    rcases List.mem_cons.mp member with rfl | member
    · have top := space.trimmed ⟨a, s + t⟩ (by simp)
      simp only [Extent.stop] at top ⊢
      omega
    · exact space.trimmed e (by simp [member])

/-- An extent with no free neighbour becomes free. -/
theorem release_alone (space : Space lo hi (e :: used) free)
    (noLeft : ∀ f ∈ free, f.stop ≠ e.lo) (noRight : ∀ f ∈ free, e.stop ≠ f.lo)
    (below : e.stop ≠ hi) : Space lo hi used (e :: free) where
  tiling := space.tiling.perm List.perm_middle.symm
  separated f memberF g memberG := by
    have positive := space.tiling.positive e (by simp)
    rcases List.mem_cons.mp memberF with rfl | inF <;>
      rcases List.mem_cons.mp memberG with rfl | inG
    · simp only [Extent.stop]; omega
    · exact noRight g inG
    · exact noLeft f inF
    · exact space.separated f inF g inG
  trimmed f member := by
    rcases List.mem_cons.mp member with rfl | member
    · exact below
    · exact space.trimmed f member

/-- An extent right after a free one joins it. -/
theorem release_left (space : Space lo hi (⟨a + s, t⟩ :: used) (⟨a, s⟩ :: free))
    (noRight : ∀ f ∈ free, a + s + t ≠ f.lo) (below : a + s + t ≠ hi) :
    Space lo hi used (⟨a, s + t⟩ :: free) where
  tiling := by
    have pair := space.tiling.perm (List.Perm.cons _ List.perm_middle)
    exact (pair.perm (List.Perm.swap _ _ _)).join.perm List.perm_middle.symm
  separated f memberF g memberG := by
    have positive := space.tiling.positive ⟨a + s, t⟩ (by simp)
    rcases List.mem_cons.mp memberF with rfl | inF <;>
      rcases List.mem_cons.mp memberG with rfl | inG
    · simp only [Extent.stop] at positive ⊢; omega
    · have sep := noRight g inG
      simp only [Extent.stop] at sep ⊢
      omega
    · exact space.separated f (by simp [inF]) ⟨a, s⟩ (by simp)
    · exact space.separated f (by simp [inF]) g (by simp [inG])
  trimmed f member := by
    rcases List.mem_cons.mp member with rfl | member
    · simp only [Extent.stop]; omega
    · exact space.trimmed f (by simp [member])

/-- An extent right before a free one absorbs it. -/
theorem release_right (space : Space lo hi (⟨a, s⟩ :: used) (⟨a + s, t⟩ :: free))
    (noLeft : ∀ f ∈ free, f.stop ≠ a) : Space lo hi used (⟨a, s + t⟩ :: free) where
  tiling := by
    have pair := space.tiling.perm (List.Perm.cons _ List.perm_middle)
    exact pair.join.perm List.perm_middle.symm
  separated f memberF g memberG := by
    have positive := space.tiling.positive ⟨a, s⟩ (by simp)
    rcases List.mem_cons.mp memberF with rfl | inF <;>
      rcases List.mem_cons.mp memberG with rfl | inG
    · simp only [Extent.stop] at positive ⊢; omega
    · have sep := space.separated ⟨a + s, t⟩ (by simp) g (by simp [inG])
      simp only [Extent.stop] at sep ⊢
      omega
    · exact noLeft f inF
    · exact space.separated f (by simp [inF]) g (by simp [inG])
  trimmed f member := by
    rcases List.mem_cons.mp member with rfl | member
    · have top := space.trimmed ⟨a + s, t⟩ (by simp)
      simp only [Extent.stop] at top ⊢
      omega
    · exact space.trimmed f (by simp [member])

/-- An extent between two free ones joins both. -/
theorem release_both (space : Space lo hi (⟨a + s, t⟩ :: used) (⟨a, s⟩ :: ⟨a + s + t, u⟩ :: free)) :
    Space lo hi used (⟨a, s + t + u⟩ :: free) where
  tiling := by
    have first := space.tiling.perm (List.Perm.cons _ List.perm_middle)
    have second := (first.perm (List.Perm.swap _ _ _)).join.perm (List.Perm.cons _ List.perm_middle)
    rw [Nat.add_assoc a s t] at second
    exact second.join.perm List.perm_middle.symm
  separated f memberF g memberG := by
    have positive := space.tiling.positive ⟨a + s, t⟩ (by simp)
    rcases List.mem_cons.mp memberF with rfl | inF <;>
      rcases List.mem_cons.mp memberG with rfl | inG
    · simp only [Extent.stop] at positive ⊢; omega
    · have sep := space.separated ⟨a + s + t, u⟩ (by simp) g (by simp [inG])
      simp only [Extent.stop] at sep ⊢
      omega
    · exact space.separated f (by simp [inF]) ⟨a, s⟩ (by simp)
    · exact space.separated f (by simp [inF]) g (by simp [inG])
  trimmed f member := by
    rcases List.mem_cons.mp member with rfl | member
    · have top := space.trimmed ⟨a + s + t, u⟩ (by simp)
      simp only [Extent.stop] at top ⊢
      omega
    · exact space.trimmed f (by simp [member])

/-- The last extent goes, and nothing free is left at the new top. -/
theorem release_top (space : Space lo hi (e :: used) free) (top : e.stop = hi)
    (noLeft : ∀ f ∈ free, f.stop ≠ e.lo) : Space lo e.lo used free where
  tiling := space.tiling.shrink top
  separated := space.separated
  trimmed := noLeft

/-- The last extent goes together with the free one before it. -/
theorem release_top_left (space : Space lo hi (⟨a + s, t⟩ :: used) (⟨a, s⟩ :: free))
    (top : a + s + t = hi) : Space lo a used free where
  tiling := by
    have short := space.tiling.shrink top
    exact (short.perm List.perm_middle).shrink rfl
  separated f memberF g memberG :=
    space.separated f (by simp [memberF]) g (by simp [memberG])
  trimmed f member := space.separated f (by simp [member]) ⟨a, s⟩ (by simp)

theorem used_apart_free (space : Space lo hi used free) (inUsed : e ∈ used) (inFree : f ∈ free) :
    e.Apart f := (List.pairwise_append.mp space.tiling.apart).2.2 e inUsed f inFree

/-- The address before a free extent is in use, unless it is below the range. -/
theorem used_before (space : Space lo hi used free) (inFree : e ∈ free) (above : lo < e.lo) :
    ∃ f ∈ used, f.Holds (e.lo - 1) := by
  have tiling := space.tiling
  have inTiles : e ∈ used ++ free := List.mem_append_right _ inFree
  have inside := tiling.inside e inTiles
  have positive := tiling.positive e inTiles
  obtain ⟨f, member, holds⟩ := tiling.cover (e.lo - 1) (by omega)
    (by simp only [Extent.stop] at inside; omega)
  rcases List.mem_append.mp member with inUsed | inFree'
  · exact ⟨f, inUsed, holds⟩
  · have sep := space.separated f inFree' e inFree
    have different : f ≠ e := by
      rintro rfl
      simp only [Extent.Holds] at holds
      omega
    have order := tiling.order member inTiles different
    simp only [Extent.Holds, Extent.stop] at holds sep order
    omega

/-- The address after a free extent is in use. -/
theorem used_after (space : Space lo hi used free) (inFree : e ∈ free) :
    ∃ f ∈ used, f.Holds e.stop := by
  have tiling := space.tiling
  have inTiles : e ∈ used ++ free := List.mem_append_right _ inFree
  have inside := tiling.inside e inTiles
  obtain ⟨f, member, start⟩ := tiling.follower inTiles
    (Nat.lt_of_le_of_ne inside.2 (space.trimmed e inFree))
  rcases List.mem_append.mp member with inUsed | inFree'
  · exact ⟨f, inUsed, start ▸ Extent.holds_lo (tiling.positive f member)⟩
  · exact absurd start.symm (space.separated e inFree f inFree')

private theorem top_le (first : Space lo hi used free) (second : Space lo hi' used' free')
    (same : ∀ e, e ∈ used ↔ e ∈ used') : hi ≤ hi' := by
  by_contra larger
  have above : lo < hi := by have := second.tiling.ordered; omega
  obtain ⟨e, member, holds⟩ := first.tiling.cover (hi - 1) (by omega) (by omega)
  have inside := first.tiling.inside e member
  rcases List.mem_append.mp member with inUsed | inFree
  · have inside' := second.tiling.inside e (List.mem_append_left _ ((same e).mp inUsed))
    simp only [Extent.Holds] at holds
    omega
  · have trimmed := first.trimmed e inFree
    simp only [Extent.Holds] at holds
    omega

/-- Where the top is follows from what is in use. -/
theorem top_unique (first : Space lo hi used free) (second : Space lo hi' used' free')
    (same : ∀ e, e ∈ used ↔ e ∈ used') : hi = hi' :=
  Nat.le_antisymm (top_le first second same) (top_le second first fun e => (same e).symm)

private theorem free_subset (first : Space lo hi used free) (second : Space lo hi' used' free')
    (same : ∀ e, e ∈ used ↔ e ∈ used') (inFree : e ∈ free) : e ∈ free' := by
  have inTiles : e ∈ used ++ free := List.mem_append_right _ inFree
  have inside := first.tiling.inside e inTiles
  have positive := first.tiling.positive e inTiles
  have top := top_unique first second same
  obtain ⟨g, member, holds⟩ := second.tiling.cover e.lo inside.1
    (by simp only [Extent.stop] at inside; omega)
  have inFree' : g ∈ free' := by
    rcases List.mem_append.mp member with inUsed | inFree'
    · have apart := first.used_apart_free ((same g).mpr inUsed) inFree
      exact absurd (Extent.holds_lo positive) (apart _ holds)
    · exact inFree'
  -- both extents stop at the nearest used address on either side
  have lowEnd : g.lo = e.lo := by
    by_contra different
    have insideG := second.tiling.inside g member
    obtain ⟨f, inUsed, holdsF⟩ := first.used_before inFree
      (by simp only [Extent.Holds] at holds; omega)
    refine second.used_apart_free ((same f).mp inUsed) inFree' _ holdsF ?_
    simp only [Extent.Holds] at holds ⊢
    omega
  have notBeyond : ¬ e.stop < g.stop := by
    intro beyond
    obtain ⟨f, inUsed, holdsF⟩ := first.used_after inFree
    refine second.used_apart_free ((same f).mp inUsed) inFree' _ holdsF ?_
    simp only [Extent.Holds, Extent.stop] at holds beyond ⊢
    omega
  have notShort : ¬ g.stop < e.stop := by
    intro short
    obtain ⟨f, inUsed, holdsF⟩ := second.used_after inFree'
    refine first.used_apart_free ((same f).mpr inUsed) inFree _ holdsF ?_
    simp only [Extent.Holds] at holds ⊢
    omega
  have equal : g = e := by
    cases g
    cases e
    simp only [Extent.stop, Extent.mk.injEq] at *
    omega
  exact equal ▸ inFree'

/-- What is free follows from what is in use. -/
theorem free_unique (first : Space lo hi used free) (second : Space lo hi' used' free')
    (same : ∀ e, e ∈ used ↔ e ∈ used') : e ∈ free ↔ e ∈ free' :=
  ⟨free_subset first second same, free_subset second first fun f => (same f).symm⟩

/-- With nothing in use, nothing is left. -/
theorem nothing_used (space : Space lo hi [] free) : hi = lo ∧ free = [] := by
  have top := top_unique space (Space.empty lo) (by simp)
  refine ⟨top, List.eq_nil_iff_forall_not_mem.mpr fun e inFree => ?_⟩
  exact absurd ((free_unique space (Space.empty lo) (by simp)).mp inFree) (by simp)

end Space

end Comp304.Library.Extents
