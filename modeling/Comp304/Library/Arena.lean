import Comp304.Library.Extents
import Mathlib.Data.List.Perm.Subperm
import Mathlib.Data.Set.Insert

/-! An allocator of address ranges without a data structure. Its only state is
the set of extents in use; where the range ends and what is free below the end
are read off it. A request is served from a free extent that is large enough, and
at the end of the range only if there is none. -/
namespace Comp304.Library.Arena
open Library.Extents

/-- A free extent: nothing in it is in use, and it cannot be made larger on
either side. Addresses above everything in use are not in a gap. -/
structure Gap (lo : Nat) (used : Set Extent) (e : Extent) : Prop where
  positive : 0 < e.len
  above : lo ≤ e.lo
  apart : ∀ f ∈ used, f.Apart e
  before : lo < e.lo → ∃ f ∈ used, f.Holds (e.lo - 1)
  after : ∃ f ∈ used, f.Holds e.stop

/-- The range ends where the last extent in use does. -/
structure Top (lo : Nat) (used : Set Extent) (hi : Nat) : Prop where
  above : lo ≤ hi
  inside : ∀ e ∈ used, e.stop ≤ hi
  reached : hi = lo ∨ ∃ e ∈ used, e.stop = hi

/-- What a client asks for. -/
inductive Request where
  | take (len : Nat)
  | give (e : Extent)

/-- What the allocator may do with a request. Which of the gaps that are large
enough it takes is open. -/
inductive Step (lo : Nat) (used : Set Extent) : Request → Set Extent → Prop where
  | reuse : Gap lo used g → 0 < len → len ≤ g.len →
      Step lo used (.take len) (insert ⟨g.lo, len⟩ used)
  | extend : Top lo used hi → 0 < len → (∀ g, Gap lo used g → g.len < len) →
      Step lo used (.take len) (insert ⟨hi, len⟩ used)
  | give : e ∈ used → Step lo used (.give e) (used \ {e})

/-- The sets of extents in use that the allocator can come to. -/
inductive Run (lo : Nat) : Set Extent → Prop where
  | start : Run lo ∅
  | step : Run lo used → Step lo used request used' → Run lo used'

/-- Where the range ends follows from what is in use. -/
theorem Top.unique (first : Top lo used hi) (second : Top lo used hi') : hi = hi' := by
  have le {hi hi' : Nat} (one : Top lo used hi) (other : Top lo used hi') : hi ≤ hi' := by
    obtain same | ⟨e, inUse, ends⟩ := one.reached
    · exact same ▸ other.above
    · exact ends ▸ other.inside e inUse
  exact Nat.le_antisymm (le first second) (le second first)

section
variable {lo hi : Nat} {used free : List Extent} {live : Set Extent}

/-- A tiling whose free extents are coalesced ends where the last used one does. -/
theorem top_of_space (space : Space lo hi used free) (same : ∀ e, e ∈ live ↔ e ∈ used) :
    Top lo live hi where
  above := space.tiling.ordered
  inside e inUse := (space.tiling.inside e (List.mem_append_left _ ((same e).mp inUse))).2
  reached := by
    rcases Nat.eq_or_lt_of_le space.tiling.ordered with empty | above
    · exact Or.inl empty.symm
    · -- the last address is in use, since nothing free ends at the top
      obtain ⟨e, member, holds⟩ := space.tiling.cover (hi - 1) (by omega) (by omega)
      have inside := (space.tiling.inside e member).2
      simp only [Extent.Holds] at holds
      rcases List.mem_append.mp member with inUse | inFree
      · exact Or.inr ⟨e, (same e).mpr inUse, by omega⟩
      · have trimmed := space.trimmed e inFree
        omega

/-- Its free extents are gaps. -/
theorem gap_of_free (space : Space lo hi used free) (same : ∀ e, e ∈ live ↔ e ∈ used)
    (inFree : e ∈ free) : Gap lo live e where
  positive := space.tiling.positive e (List.mem_append_right _ inFree)
  above := (space.tiling.inside e (List.mem_append_right _ inFree)).1
  apart f inUse := space.used_apart_free ((same f).mp inUse) inFree
  before above := by
    obtain ⟨f, inUse, holds⟩ := space.used_before inFree above
    exact ⟨f, (same f).mpr inUse, holds⟩
  after := by
    obtain ⟨f, inUse, holds⟩ := space.used_after inFree
    exact ⟨f, (same f).mpr inUse, holds⟩

/-- Two gaps that share an address are one. -/
theorem Gap.eq_of_holds {e f : Extent} (first : Gap lo live e) (second : Gap lo live f)
    (inE : e.Holds x) (inF : f.Holds x) : e = f := by
  have low {e f : Extent} (one : Gap lo live e) (other : Gap lo live f) (inE : e.Holds x)
      (inF : f.Holds x) : ¬ e.lo < f.lo := by
    intro below
    have above := one.above
    obtain ⟨g, inUse, holds⟩ := other.before (by omega)
    refine one.apart g inUse _ holds ?_
    simp only [Extent.Holds] at inE inF ⊢
    omega
  have high {e f : Extent} (one : Gap lo live e) (other : Gap lo live f) (inE : e.Holds x)
      (inF : f.Holds x) : ¬ e.stop < f.stop := by
    intro below
    obtain ⟨g, inUse, holds⟩ := one.after
    refine other.apart g inUse _ holds ?_
    simp only [Extent.Holds] at inE inF ⊢
    omega
  have lows := low first second inE inF
  have lows' := low second first inF inE
  have highs := high first second inE inF
  have highs' := high second first inF inE
  cases e
  cases f
  simp only [Extent.stop, Extent.mk.injEq] at *
  omega

/-- And every gap is one of its free extents. -/
theorem free_iff_gap (space : Space lo hi used free) (same : ∀ e, e ∈ live ↔ e ∈ used) :
    e ∈ free ↔ Gap lo live e := by
  refine ⟨gap_of_free space same, fun gap => ?_⟩
  have holds := Extent.holds_lo gap.positive
  obtain ⟨f, inUse, beyond⟩ := gap.after
  have inside := (top_of_space space same).inside f inUse
  simp only [Extent.Holds, Extent.stop] at beyond inside
  obtain ⟨g, member, covers⟩ := space.tiling.cover e.lo gap.above (by omega)
  rcases List.mem_append.mp member with inUsed | inFree
  · exact absurd holds (gap.apart g ((same g).mpr inUsed) _ covers)
  · exact gap.eq_of_holds (gap_of_free space same inFree) holds covers ▸ inFree

/-- Behind every free extent comes a used one of its own, so there are no more
free extents than used ones. -/
theorem free_length_le (space : Space lo hi used free) : free.length ≤ used.length := by
  have distinct : (free.map Extent.stop).Nodup := by
    have apart := (List.pairwise_append.mp space.tiling.apart).2.1
    refine List.pairwise_map.mpr (apart.imp_of_mem fun {e f} inE inF apartEF same => ?_)
    have positiveE := space.tiling.positive e (List.mem_append_right _ inE)
    have positiveF := space.tiling.positive f (List.mem_append_right _ inF)
    rw [Extent.apart_iff positiveE positiveF] at apartEF
    simp only [Extent.stop] at apartEF same
    omega
  have followed : free.map Extent.stop ⊆ used.map Extent.lo := by
    intro stop member
    obtain ⟨e, inFree, rfl⟩ := List.mem_map.mp member
    have inTiles : e ∈ used ++ free := List.mem_append_right _ inFree
    have below := Nat.lt_of_le_of_ne (space.tiling.inside e inTiles).2 (space.trimmed e inFree)
    obtain ⟨f, member, start⟩ := space.tiling.follower inTiles below
    rcases List.mem_append.mp member with inUse | inFree'
    · exact List.mem_map.mpr ⟨f, inUse, start⟩
    · exact absurd start.symm (space.separated e inFree f inFree')
  have short := (List.subperm_of_subset distinct followed).length_le
  rwa [List.length_map, List.length_map] at short

end

end Comp304.Library.Arena
