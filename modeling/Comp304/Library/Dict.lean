import Mathlib.Data.List.Nodup
import Mathlib.Data.List.Induction

/-! Dictionaries that keep their keys in the order in which they were first
assigned. No key is there twice. -/
namespace Comp304.Library

structure Dict (κ ν : Type*) where
  entries : List (κ × ν)
  distinct : (entries.map Prod.fst).Nodup

namespace Dict

def empty : Dict κ ν := ⟨[], List.nodup_nil⟩

def keys (d : Dict κ ν) : List κ := d.entries.map Prod.fst

def values (d : Dict κ ν) : List ν := d.entries.map Prod.snd

def length (d : Dict κ ν) : Nat := d.entries.length

section
variable [DecidableEq κ]

def get? (d : Dict κ ν) (k : κ) : Option ν := (d.entries.find? (·.1 = k)).map Prod.snd

/-- The value of a key that is there is replaced in its place. -/
def assign (d : Dict κ ν) (k : κ) (v : ν) : Dict κ ν :=
  if fresh : k ∈ d.keys then
    ⟨d.entries.map fun e => (e.1, if e.1 = k then v else e.2), by
      rw [List.map_map]
      exact d.distinct⟩
  else
    ⟨d.entries ++ [(k, v)], by
      rw [List.map_append, List.nodup_append]
      refine ⟨d.distinct, List.nodup_singleton k, fun a old b new same => fresh ?_⟩
      obtain rfl : b = k := List.mem_singleton.mp new
      exact same ▸ old⟩

end

/-! ### What is in a dictionary -/

section
variable {d : Dict κ ν} {k : κ} {v : ν}

variable [DecidableEq κ]

theorem get?_eq_some_iff : d.get? k = some v ↔ (k, v) ∈ d.entries := by
  obtain ⟨entries, distinct⟩ := d
  simp only [get?]
  induction entries with
  | nil => simp
  | cons e entries ih =>
    obtain ⟨first, later⟩ := List.nodup_cons.mp distinct
    obtain ⟨key, value⟩ := e
    rw [List.find?_cons]
    by_cases here : key = k
    · subst here
      simp only [decide_true, Option.map_some, Option.some.injEq, List.mem_cons, Prod.mk.injEq,
        true_and]
      refine ⟨fun same => Or.inl same.symm, ?_⟩
      rintro (same | inside)
      · exact same.symm
      · exact absurd (List.mem_map_of_mem inside) first
    · have other : (k, v) ≠ (key, value) := fun same => here (Prod.mk.inj same).1.symm
      simp only [here, decide_false, List.mem_cons, other, false_or]
      exact ih later

theorem get?_isSome_iff : (d.get? k).isSome ↔ k ∈ d.keys := by
  rw [Option.isSome_iff_exists]
  simp only [get?_eq_some_iff, keys, List.mem_map, Prod.exists, exists_and_right, exists_eq_right]

@[simp] theorem get?_empty (k : κ) : (empty : Dict κ ν).get? k = none := rfl

theorem entries_assign_fresh (fresh : k ∉ d.keys) (v : ν) :
    (d.assign k v).entries = d.entries ++ [(k, v)] := by rw [assign, dif_neg fresh]

theorem values_assign_fresh (fresh : k ∉ d.keys) (v : ν) :
    (d.assign k v).values = d.values ++ [v] := by
  rw [values, entries_assign_fresh fresh, List.map_append]
  rfl

theorem length_assign_fresh (fresh : k ∉ d.keys) (v : ν) : (d.assign k v).length = d.length + 1 := by
  rw [length, entries_assign_fresh fresh, List.length_append]
  rfl

theorem mem_keys_assign (d : Dict κ ν) (k : κ) (v : ν) (j : κ) :
    j ∈ (d.assign k v).keys ↔ j = k ∨ j ∈ d.keys := by
  rw [assign]
  split
  · next old =>
    have same : (d.entries.map fun e => (e.1, if e.1 = k then v else e.2)).map Prod.fst = d.keys := by
      rw [List.map_map]
      rfl
    rw [keys, same]
    refine ⟨Or.inr, ?_⟩
    rintro (rfl | inside)
    · exact old
    · exact inside
  · rw [keys, List.map_append, List.mem_append, or_comm, List.map_singleton, List.mem_singleton]
    rfl

/-- To assign changes one key. -/
theorem get?_assign (d : Dict κ ν) (k : κ) (v : ν) (j : κ) :
    (d.assign k v).get? j = if j = k then some v else d.get? j := by
  ext w
  rw [get?_eq_some_iff, assign]
  split
  · next old =>
    obtain ⟨⟨_, u⟩, listed, rfl⟩ := List.mem_map.mp old
    simp only [List.mem_map, Prod.mk.injEq, Prod.exists]
    constructor
    · rintro ⟨key, value, inside, rfl, rfl⟩
      split
      · rfl
      · exact get?_eq_some_iff.mpr inside
    · intro found
      split at found
      · next same =>
        subst same
        exact ⟨_, u, listed, rfl, by simpa using found⟩
      · next other => exact ⟨j, w, get?_eq_some_iff.mp found, rfl, if_neg other⟩
  · next fresh =>
    simp only [List.mem_append, List.mem_singleton, Prod.mk.injEq]
    split
    · next same =>
      subst same
      have absent : (j, w) ∉ d.entries := fun inside => fresh (List.mem_map_of_mem inside)
      simp [absent, eq_comm]
    · next other => simp [other, get?_eq_some_iff]

@[simp] theorem get?_assign_same (d : Dict κ ν) (k : κ) (v : ν) : (d.assign k v).get? k = some v := by
  rw [get?_assign, if_pos rfl]

/-- A dictionary filled from a list without a key twice. -/
theorem get?_foldl_assign {list : List α} (key : α → κ) (value : α → ν)
    (distinct : (list.map key).Nodup) :
    (list.foldl (fun d e => d.assign (key e) (value e)) empty).get? k = some v ↔
      ∃ e ∈ list, key e = k ∧ value e = v := by
  induction list using List.reverseRecOn with
  | nil => simp
  | append_singleton list e ih =>
    rw [List.map_append, List.map_singleton, List.nodup_append] at distinct
    obtain ⟨front, -, apart⟩ := distinct
    rw [List.foldl_append, List.foldl_cons, List.foldl_nil, get?_assign]
    simp only [List.mem_append, List.mem_singleton]
    split
    · next last =>
      subst last
      constructor
      · rintro same
        exact ⟨e, Or.inr rfl, rfl, by simpa using same⟩
      · rintro ⟨f, inside | rfl, same, rfl⟩
        · exact absurd same (apart _ (List.mem_map_of_mem inside) _ List.mem_cons_self)
        · rfl
    · next other =>
      rw [ih front]
      constructor
      · rintro ⟨f, inside, found⟩
        exact ⟨f, Or.inl inside, found⟩
      · rintro ⟨f, inside | rfl, same, found⟩
        · exact ⟨f, inside, same, found⟩
        · exact absurd same.symm other

end

end Dict

end Comp304.Library
