import Mathlib.Data.List.AList
import Mathlib.Logic.Function.Basic

/-!
# Lib.FiniteMap

Finite maps as the functions that look a key up, the map that a loop of insertions
builds (filled from a list of pairs in order, later pairs replacing earlier ones), and the
last entry of a map that is ordered by its keys.
-/

namespace FiniteMap

variable {α β : Type*} [DecidableEq α] {l : List (α × β)} {s : AList fun _ : α => β} {k : α} {b : β}

/-! ## a finite map as a function -/

theorem lookup_insert_eq_update (s : AList fun _ : α => β) (k : α) (b : β) :
    (fun x => (s.insert k b).lookup x) = Function.update (fun x => s.lookup x) k (some b) := by
  funext x
  by_cases hx : x = k
  · subst hx
    rw [Function.update_self, AList.lookup_insert]
  · rw [Function.update_of_ne hx, AList.lookup_insert_ne hx]

theorem lookup_erase_eq_update (s : AList fun _ : α => β) (k : α) :
    (fun x => (s.erase k).lookup x) = Function.update (fun x => s.lookup x) k none := by
  funext x
  by_cases hx : x = k
  · subst hx
    rw [Function.update_self, AList.lookup_erase]
  · rw [Function.update_of_ne hx, AList.lookup_erase_ne hx]

/-! ## filling a map -/

/-- Insert the pairs of a list in order. -/
def insertAll : List (α × β) → (AList fun _ : α => β) → AList fun _ : α => β
  | [], s => s
  | p :: rest, s => insertAll rest (s.insert p.1 p.2)

/-- A key that is not in the list keeps its value. -/
theorem lookup_insertAll_of_notMem (h : k ∉ l.map Prod.fst) :
    (insertAll l s).lookup k = s.lookup k := by
  induction l generalizing s with
  | nil => rfl
  | cons p rest ih =>
      simp only [List.map_cons, List.mem_cons, not_or] at h
      rw [insertAll, ih h.2, AList.lookup_insert_ne h.1]

/-- What is found was inserted or was there before. -/
theorem mem_or_lookup_of_insertAll (h : (insertAll l s).lookup k = some b) :
    (k, b) ∈ l ∨ s.lookup k = some b := by
  induction l generalizing s with
  | nil => exact .inr h
  | cons p rest ih =>
      rcases ih h with hmem | hlookup
      · exact .inl (List.mem_cons_of_mem _ hmem)
      · by_cases hk : k = p.1
        · subst hk
          rw [AList.lookup_insert] at hlookup
          cases hlookup
          exact .inl List.mem_cons_self
        · rw [AList.lookup_insert_ne hk] at hlookup
          exact .inr hlookup

/-- When every key comes once, every pair of the list is found. -/
theorem lookup_insertAll_of_mem (hnodup : (l.map Prod.fst).Nodup) (h : (k, b) ∈ l) :
    (insertAll l s).lookup k = some b := by
  induction l generalizing s with
  | nil => contradiction
  | cons p rest ih =>
      obtain ⟨hfirst, hrest⟩ := List.nodup_cons.mp hnodup
      rcases List.mem_cons.mp h with heq | hmem
      · subst heq
        rw [insertAll, lookup_insertAll_of_notMem hfirst, AList.lookup_insert]
      · exact ih hrest hmem

/-- The map filled from pairs with distinct keys is the list itself. -/
theorem lookup_insertAll_empty (hnodup : (l.map Prod.fst).Nodup) :
    (insertAll l ∅).lookup k = some b ↔ (k, b) ∈ l := by
  constructor
  · intro h
    exact (mem_or_lookup_of_insertAll h).resolve_right (by simp)
  · exact lookup_insertAll_of_mem hnodup

/-! ## the last entry of an ordered map -/

section Ordered

variable {κ : Type*} [Ord κ] {m : Std.TreeMap κ β} {key : κ}

/-- The entry with the largest key. -/
def lastKeyValue (m : Std.TreeMap κ β) : Option (κ × β) := m.toList.getLast?

theorem lastKeyValue_eq_some_iff [Std.TransOrd κ] [Std.LawfulEqOrd κ] :
    lastKeyValue m = some (key, b) ↔
      m[key]? = some b ∧ ∀ k' b', m[k']? = some b' → (compare k' key).isLE := by
  have hsorted := Std.TreeMap.ordered_keys_toList (t := m)
  have hmem : ∀ k' b', (k', b') ∈ m.toList ↔ m[k']? = some b' :=
    fun _ _ => Std.TreeMap.mem_toList_iff_getElem?_eq_some
  rw [lastKeyValue]
  constructor
  · intro h
    obtain ⟨front, hfront⟩ := List.getLast?_eq_some_iff.mp h
    refine ⟨(hmem key b).mp (by simp [hfront]), fun k' b' hk' => ?_⟩
    rw [← hmem, hfront, List.mem_append, List.mem_singleton] at hk'
    rcases hk' with hk' | hk'
    · rw [hfront, List.pairwise_append] at hsorted
      rw [hsorted.2.2 _ hk' _ (List.mem_singleton.mpr rfl)]
      rfl
    · rw [(Prod.mk.inj hk').1]
      exact Std.ReflCmp.isLE_rfl
  · rintro ⟨hget, hmax⟩
    cases hlast : m.toList.getLast? with
    | none =>
        rw [List.getLast?_eq_none_iff] at hlast
        rw [← hmem, hlast] at hget
        contradiction
    | some e =>
        obtain ⟨k', b'⟩ := e
        obtain ⟨front, hfront⟩ := List.getLast?_eq_some_iff.mp hlast
        have hin := (hmem key b).mpr hget
        rw [hfront, List.mem_append, List.mem_singleton] at hin
        rcases hin with hin | hin
        · -- the last key is above the keys before it
          rw [hfront, List.pairwise_append] at hsorted
          have hlt := hsorted.2.2 _ hin _ (List.mem_singleton.mpr rfl)
          have hle := hmax k' b' ((hmem k' b').mp (by simp [hfront]))
          rw [Std.OrientedCmp.gt_of_lt hlt] at hle
          contradiction
        · rw [hin]

end Ordered

end FiniteMap
