import Mathlib.Algebra.BigOperators.Group.List.Basic
import Mathlib.Algebra.BigOperators.Group.Finset.Basic
import Mathlib.Algebra.BigOperators.Group.Finset.Piecewise
import Mathlib.Data.List.Forall2
import Mathlib.Tactic.Abel

/-!
# Lib.Yao

Yao's method for a sum of multiples `d₀ • p₀ + d₁ • p₁ + ⋯`: the elements are sorted into buckets by
their digits, and the buckets are summed from the highest digit down, each once for every
digit that it stands for (`yao_eq`).  The method only adds, so it can be run on representatives
of the elements (`yao_rel`).
-/

namespace Yao

section
variable {α : Type} (add : α → α → α) (zero : α)

/-- The sum of the elements with one digit. -/
def bucketSum (digits : List Nat) (elements : List α) (j : Nat) : α :=
  (((digits.zip elements).filter fun de => de.1 == j).map Prod.snd).foldl add zero

/-- The running sum of the buckets and the sum of the running sums. -/
def accumulate (state : α × α) (sum : α) : α × α := (add state.1 sum, add state.2 (add state.1 sum))

def yao (base : Nat) (digits : List Nat) (elements : List α) : α :=
  (((List.range' 1 (base - 1)).reverse.map (bucketSum add zero digits elements)).foldl
    (accumulate add) (zero, zero)).2

end

/-! ## representatives -/

section
variable {α β : Type} {R : α → β → Prop} {add : α → α → α} {zero : α} {add' : β → β → β} {zero' : β}
  (hzero : R zero zero') (hadd : ∀ a b a' b', R a a' → R b b' → R (add a b) (add' a' b'))
include hzero hadd

omit hzero in
theorem foldl_rel {l : List α} {l' : List β} (h : List.Forall₂ R l l') {a : α} {a' : β} (ha : R a a') :
    R (l.foldl add a) (l'.foldl add' a') := by
  induction h generalizing a a' with
  | nil => exact ha
  | cons hb _ ih => exact ih (hadd _ _ _ _ ha hb)

theorem bucketSum_rel {elements : List α} {elements' : List β} (h : List.Forall₂ R elements elements')
    (digits : List Nat) (j : Nat) :
    R (bucketSum add zero digits elements j) (bucketSum add' zero' digits elements' j) := by
  refine foldl_rel hadd ?_ hzero
  induction h generalizing digits with
  | nil =>
      rw [List.zip_nil_right, List.zip_nil_right]
      exact List.Forall₂.nil
  | cons hb _ ih =>
      cases digits with
      | nil => exact List.Forall₂.nil
      | cons d digits =>
          rw [List.zip_cons_cons, List.zip_cons_cons, List.filter_cons, List.filter_cons]
          split
          · exact List.Forall₂.cons hb (ih digits)
          · exact ih digits

theorem yao_rel {elements : List α} {elements' : List β} (h : List.Forall₂ R elements elements')
    (base : Nat) (digits : List Nat) :
    R (yao add zero base digits elements) (yao add' zero' base digits elements') := by
  have hbuckets := bucketSum_rel hzero hadd h digits
  have hstate : ∀ (l : List Nat) (s : α × α) (s' : β × β), R s.1 s'.1 → R s.2 s'.2 →
      R ((l.map (bucketSum add zero digits elements)).foldl (accumulate add) s).2
        ((l.map (bucketSum add' zero' digits elements')).foldl (accumulate add') s').2 := by
    intro l
    induction l with
    | nil => exact fun _ _ _ h2 => h2
    | cons j l ih =>
        intro s s' h1 h2
        have hrunning := hadd _ _ _ _ h1 (hbuckets j)
        exact ih _ _ hrunning (hadd _ _ _ _ h2 hrunning)
  exact hstate _ _ _ hzero hzero

end

/-! ## the sum -/

section
variable {A : Type} [AddCommMonoid A]

theorem foldl_add (l : List A) (a : A) : l.foldl (· + ·) a = a + l.sum := by
  induction l generalizing a with
  | nil => rw [List.foldl_nil, List.sum_nil, add_zero]
  | cons b l ih => rw [List.foldl_cons, ih, List.sum_cons, add_assoc]

/-- Going down from `n`, the sum of digit `k` is counted `k` times. -/
theorem foldl_accumulate (sum : Nat → A) (n : Nat) (state : A × A) :
    (((List.range' 1 n).reverse.map sum).foldl (accumulate (· + ·)) state).2 =
      state.2 + n • state.1 + ∑ k ∈ Finset.range (n + 1), k • sum k := by
  induction n generalizing state with
  | zero => simp
  | succ n ih =>
      rw [List.range'_concat, List.reverse_append, List.reverse_singleton, List.singleton_append,
        List.map_cons, List.foldl_cons, ih, Finset.sum_range_succ _ (n + 1), accumulate, Nat.one_mul,
        Nat.add_comm 1 n, nsmul_add, succ_nsmul state.1 n, succ_nsmul (sum (n + 1)) n]
      dsimp only
      abel

/-- An element is in the bucket of its digit. -/
theorem sum_buckets (base : Nat) {pairs : List (Nat × A)} (h : ∀ de ∈ pairs, de.1 < base) :
    ∑ k ∈ Finset.range base, k • ((pairs.filter fun de => de.1 == k).map Prod.snd).sum =
      (pairs.map fun de => de.1 • de.2).sum := by
  induction pairs with
  | nil => simp
  | cons de pairs ih =>
      have hhead : de.1 ∈ Finset.range base := Finset.mem_range.mpr (h de List.mem_cons_self)
      have hbucket : ∀ k, k • (((de :: pairs).filter fun de => de.1 == k).map Prod.snd).sum =
          (if de.1 = k then de.1 • de.2 else 0) +
            k • ((pairs.filter fun de => de.1 == k).map Prod.snd).sum := by
        intro k
        rw [List.filter_cons]
        by_cases hk : de.1 = k
        · rw [if_pos (beq_iff_eq.mpr hk), if_pos hk, List.map_cons, List.sum_cons, nsmul_add, hk]
        · rw [if_neg (by simpa using hk), if_neg hk, zero_add]
      rw [Finset.sum_congr rfl fun k _ => hbucket k, Finset.sum_add_distrib, Finset.sum_ite_eq,
        if_pos hhead, ih fun de hde => h de (List.mem_cons_of_mem _ hde), List.map_cons, List.sum_cons]

theorem yao_eq {base : Nat} {digits : List Nat} (hdigits : ∀ d ∈ digits, d < base)
    (elements : List A) : yao (· + ·) 0 base digits elements =
      ((digits.zip elements).map fun de => de.1 • de.2).sum := by
  have hpairs : ∀ de ∈ digits.zip elements, de.1 < base := fun de hde =>
    hdigits de.1 (List.of_mem_zip hde).1
  rcases Nat.eq_zero_or_pos base with rfl | hbase
  · cases digits with
    | nil => rfl
    | cons d digits => exact absurd (hdigits d List.mem_cons_self) (Nat.not_lt_zero d)
  · rw [yao, foldl_accumulate, nsmul_zero, add_zero, zero_add, Nat.sub_add_cancel hbase,
      ← sum_buckets base hpairs]
    apply Finset.sum_congr rfl
    intro k _
    rw [bucketSum, foldl_add, zero_add]

end

end Yao
