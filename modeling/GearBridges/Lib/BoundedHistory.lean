import Mathlib.Data.Finset.Max
import Mathlib.Data.Finset.Card

/-!
# Lib.BoundedHistory

A set of at most `depth` keys that remembers what has been recorded: when the set is full
the smallest key makes room for a new one, and what is below all keys of a full set counts
as known.  Recording a key forgets nothing exactly when the key is `Orderly`
(`refuses_record_iff`).
-/

namespace BoundedHistory

variable {α : Type*} [LinearOrder α]

/-- Remove the smallest key. -/
def popFirst (s : Finset α) : Finset α := if h : s.Nonempty then s.erase (s.min' h) else s

/-- Record a key, making room for it in a full set. -/
def record (depth : Nat) (s : Finset α) (k : α) : Finset α :=
  insert k (if depth ≤ s.card then popFirst s else s)

/-- The key is stored, or below all keys of a full set. -/
def Refuses (depth : Nat) (s : Finset α) (k : α) : Prop :=
  k ∈ s ∨ (depth ≤ s.card ∧ ∃ h : s.Nonempty, k < s.min' h)

/-- A key that comes to a full set is the smallest one, or a new one above it. -/
def Orderly (depth : Nat) (s : Finset α) (k : α) : Prop :=
  depth ≤ s.card → ∀ h : s.Nonempty, k = s.min' h ∨ (s.min' h < k ∧ k ∉ s)

instance (depth : Nat) (s : Finset α) (k : α) : Decidable (Orderly depth s k) :=
  if h : s.Nonempty then
    decidable_of_iff (depth ≤ s.card → k = s.min' h ∨ (s.min' h < k ∧ k ∉ s))
      ⟨fun ho hd _ => ho hd, fun ho hd => ho hd h⟩
  else .isTrue fun _ hs => absurd hs h

variable {depth : Nat} {s : Finset α} {k x : α}

theorem record_of_lt (h : s.card < depth) (k : α) : record depth s k = insert k s := by
  rw [record, if_neg (Nat.not_le.mpr h)]

theorem record_of_le (h : depth ≤ s.card) (hs : s.Nonempty) (k : α) :
    record depth s k = insert k (s.erase (s.min' hs)) := by
  rw [record, if_pos h, popFirst, dif_pos hs]

theorem refuses_record_self : Refuses depth (record depth s k) k := .inl (Finset.mem_insert_self _ _)

/-- A full set stays full at most. -/
theorem card_record_le (hdepth : 0 < depth) (h : s.card ≤ depth) :
    (record depth s k).card ≤ depth := by
  by_cases hfull : depth ≤ s.card
  · have hs : s.Nonempty := Finset.card_pos.mp (by omega)
    rw [record_of_le hfull hs]
    have hins := Finset.card_insert_le k (s.erase (s.min' hs))
    have herase := Finset.card_erase_of_mem (s.min'_mem hs)
    omega
  · rw [record_of_lt (by omega)]
    have := Finset.card_insert_le k s
    omega

/-- Recording an orderly key forgets nothing. -/
theorem Refuses.record (hdepth : 0 < depth) (hk : Orderly depth s k) (hx : Refuses depth s x) :
    Refuses depth (record depth s k) x := by
  by_cases hfull : depth ≤ s.card
  · have hs : s.Nonempty := Finset.card_pos.mp (by omega)
    rw [record_of_le hfull hs]
    rcases hk hfull hs with hfirst | ⟨hlt, hnew⟩
    · -- the smallest key makes room for itself
      rw [hfirst, Finset.insert_erase (s.min'_mem hs)]
      exact hx
    · have hcard : (insert k (s.erase (s.min' hs))).card = s.card := by
        have hpos := Finset.card_pos.mpr hs
        rw [Finset.card_insert_of_notMem fun h => hnew (Finset.mem_of_mem_erase h),
          Finset.card_erase_of_mem (s.min'_mem hs)]
        omega
      -- what is not stored any more is below everything that is
      have hbelow : ∀ y, y ≤ s.min' hs → Refuses depth (insert k (s.erase (s.min' hs))) y := by
        intro y hy
        refine .inr ⟨by rw [hcard]; exact hfull, Finset.insert_nonempty _ _, ?_⟩
        apply (Finset.lt_min'_iff _ _).mpr
        intro z hz
        rcases Finset.mem_insert.mp hz with rfl | hz
        · exact lt_of_le_of_lt hy hlt
        · obtain ⟨hne, hmem⟩ := Finset.mem_erase.mp hz
          exact lt_of_le_of_lt hy (lt_of_le_of_ne (s.min'_le z hmem) (Ne.symm hne))
      rcases hx with hx | ⟨-, hs', hx⟩
      · by_cases hxf : x = s.min' hs
        · exact hbelow x (le_of_eq hxf)
        · exact .inl (Finset.mem_insert_of_mem (Finset.mem_erase.mpr ⟨hxf, hx⟩))
      · exact hbelow x (le_of_lt hx)
  · rw [record_of_lt (by omega)]
    rcases hx with hx | ⟨hle, -⟩
    · exact .inl (Finset.mem_insert_of_mem hx)
    · omega

/-- **Recording a key forgets nothing exactly when the key is orderly.** -/
theorem refuses_record_iff (hdepth : 0 < depth) (hcard : s.card ≤ depth) :
    (∀ x, Refuses depth s x → Refuses depth (record depth s k) x) ↔ Orderly depth s k := by
  constructor
  · intro h hfull hs
    -- the key that made room is still refused
    have hfirst := h (s.min' hs) (.inl (s.min'_mem hs))
    rw [record_of_le hfull hs] at hfirst
    rcases hfirst with hmem | ⟨hle, hne, hlt⟩
    · rcases Finset.mem_insert.mp hmem with heq | herase
      · exact .inl heq.symm
      · exact absurd rfl (Finset.mem_erase.mp herase).1
    · have hltk : s.min' hs < k :=
        lt_of_lt_of_le hlt (Finset.min'_le _ _ (Finset.mem_insert_self _ _))
      refine .inr ⟨hltk, ?_⟩
      intro hmem
      rw [Finset.insert_eq_of_mem (Finset.mem_erase.mpr ⟨ne_of_gt hltk, hmem⟩),
        Finset.card_erase_of_mem (s.min'_mem hs)] at hle
      have hpos := Finset.card_pos.mpr hs
      omega
  · intro hk x hx
    exact hx.record hdepth hk

end BoundedHistory
