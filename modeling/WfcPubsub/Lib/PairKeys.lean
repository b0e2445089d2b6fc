import WfcPubsub.Lib.OrderedMap
import Mathlib.Data.Prod.Lex
import Mathlib.Data.Set.Card

/-!
# Maps keyed by pairs

A map whose keys are pairs in lexicographic order is a family of maps, one for each first
component (`OrderedMap.fiber`). Updates of the map are updates of one member of the family.

## Main definitions

* `OrderedMap.fiber`

## Main results

* `OrderedMap.find?_fiber`, `OrderedMap.fiber_set`
-/

namespace OrderedMap

variable {α β ν : Type*} [LinearOrder α] [LinearOrder β]

/-- The entries whose key begins with `a`, under the second component of their keys. -/
def fiber (m : OrderedMap (α ×ₗ β) ν) (a : α) : OrderedMap β ν where
  entries := (m.entries.filter fun e => (ofLex e.1).1 == a).map fun e => ((ofLex e.1).2, e.2)
  sorted := by
    refine List.pairwise_map.mpr ((List.Pairwise.and_mem.mp
      (m.sorted.sublist List.filter_sublist)).imp ?_)
    rintro x y ⟨hx, hy, hlt⟩
    have hx := beq_iff_eq.mp (List.mem_filter.mp hx).2
    have hy := beq_iff_eq.mp (List.mem_filter.mp hy).2
    rcases Prod.Lex.lt_iff.mp hlt with h | ⟨-, h⟩
    · exact absurd h (by rw [hx, hy]; exact lt_irrefl a)
    · exact h

@[simp] theorem find?_fiber (m : OrderedMap (α ×ₗ β) ν) (a : α) (b : β) :
    (m.fiber a).find? b = m.find? (toLex (a, b)) := by
  refine Option.ext fun v => ?_
  rw [find?_eq_some_iff, find?_eq_some_iff, fiber, List.mem_map]
  constructor
  · rintro ⟨⟨k, w⟩, hmem, heq⟩
    obtain ⟨hmem, hk⟩ := List.mem_filter.mp hmem
    obtain ⟨rfl, rfl⟩ := Prod.mk.inj heq
    rwa [← beq_iff_eq.mp hk]
  · intro hmem
    exact ⟨_, List.mem_filter.mpr ⟨hmem, by simp⟩, rfl⟩

/-- An update changes one member of the family. -/
theorem fiber_alter (m : OrderedMap (α ×ₗ β) ν) (a a' : α) (b : β) (f : Option ν → Option ν) :
    (m.alter (toLex (a, b)) f).fiber a' =
      if a' = a then (m.fiber a).alter b f else m.fiber a' := by
  refine ext_find? fun b' => ?_
  rw [find?_fiber, find?_alter]
  by_cases ha : a' = a
  · subst ha
    rw [if_pos rfl, find?_alter, find?_fiber, find?_fiber]
    by_cases hb : b' = b
    · rw [if_pos (by rw [hb]), if_pos hb]
    · rw [if_neg (fun h => hb (Prod.mk.inj (toLex.injective h)).2), if_neg hb]
  · rw [if_neg ha, if_neg (fun h => ha (Prod.mk.inj (toLex.injective h)).1), find?_fiber]

theorem fiber_set (m : OrderedMap (α ×ₗ β) ν) (a a' : α) (b : β) (v : ν) :
    (m.set (toLex (a, b)) v).fiber a' = if a' = a then (m.fiber a).set b v else m.fiber a' :=
  fiber_alter ..

/-- A map has as many entries as keys. -/
theorem ncard_contains (m : OrderedMap β ν) : {k | m.contains k}.ncard = m.size := by
  classical
  have hset : {k | m.contains k} = (↑m.keys.toFinset : Set β) := by
    ext k
    rw [List.coe_toFinset]
    exact mem_keys.symm
  rw [hset, Set.ncard_coe_finset, List.toFinset_card_of_nodup m.nodup_keys, length_keys]

end OrderedMap
