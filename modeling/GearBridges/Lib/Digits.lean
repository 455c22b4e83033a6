import Mathlib.Data.Nat.Digits.Lemmas

/-!
# Lib.Digits

Positional notation with the most significant digit first, over Mathlib's
`Nat.ofDigits`: appending, regrouping the digits into digits of a larger base, the
fixed-width digits of a number, and bytes as digits.
-/

namespace Digits

/-! ## the number written by a list of digits -/

/-- The number with the given digits, most significant first. -/
def ofBE (b : Nat) (l : List Nat) : Nat := Nat.ofDigits b l.reverse

@[simp] theorem ofBE_nil (b : Nat) : ofBE b [] = 0 := rfl

@[simp] theorem ofBE_singleton (b d : Nat) : ofBE b [d] = d := Nat.ofDigits_singleton

theorem ofBE_append (b : Nat) (l m : List Nat) :
    ofBE b (l ++ m) = ofBE b l * b ^ m.length + ofBE b m := by
  unfold ofBE
  rw [List.reverse_append, Nat.ofDigits_append, List.length_reverse, Nat.mul_comm, Nat.add_comm]

theorem ofBE_cons (b d : Nat) (l : List Nat) :
    ofBE b (d :: l) = d * b ^ l.length + ofBE b l := by
  rw [← List.singleton_append, ofBE_append, ofBE_singleton]

theorem ofBE_lt {b : Nat} (hb : 1 < b) {l : List Nat} (hl : ∀ d ∈ l, d < b) :
    ofBE b l < b ^ l.length := by
  have h := Nat.ofDigits_lt_base_pow_length hb (l := l.reverse) fun d hd =>
    hl d (List.mem_reverse.mp hd)
  rwa [List.length_reverse] at h

/-- Two numerals of one width with one value are the same. -/
theorem ofBE_inj {b : Nat} (hb : 1 < b) {l m : List Nat} (hlen : l.length = m.length)
    (hl : ∀ d ∈ l, d < b) (hm : ∀ d ∈ m, d < b) (h : ofBE b l = ofBE b m) : l = m := by
  apply List.reverse_inj.mp
  refine Nat.ofDigits_inj_of_len_eq hb ?_ ?_ ?_ h
  · rw [List.length_reverse, List.length_reverse, hlen]
  · intro d hd
    exact hl d (List.mem_reverse.mp hd)
  · intro d hd
    exact hm d (List.mem_reverse.mp hd)

/-- Leading zeros do not count. -/
theorem ofBE_zeros_append (b k : Nat) (l : List Nat) :
    ofBE b (List.replicate k 0 ++ l) = ofBE b l := by
  unfold ofBE
  rw [List.reverse_append, List.reverse_replicate, Nat.ofDigits_append_replicate_zero]

/-- Groups of `k` digits are digits of base `b ^ k`. -/
theorem ofBE_flatten (b : Nat) {k : Nat} {groups : List (List Nat)}
    (hk : ∀ g ∈ groups, g.length = k) :
    ofBE b groups.flatten = ofBE (b ^ k) (groups.map (ofBE b)) := by
  induction groups with
  | nil => rfl
  | cons g groups ih =>
      have hrest : ∀ g ∈ groups, g.length = k := fun g hg => hk g (List.mem_cons_of_mem _ hg)
      have hlen : groups.flatten.length = k * groups.length := by
        rw [List.length_flatten, List.map_congr_left hrest, List.map_const',
          List.sum_replicate_nat, Nat.mul_comm]
      rw [List.flatten_cons, ofBE_append, ih hrest, List.map_cons, ofBE_cons, hlen,
        List.length_map, pow_mul]

/-! ## groups of a list -/

/-- The groups of `k` elements of a list, the last one possibly shorter. -/
def chunks {α : Type} (k : Nat) (l : List α) : List (List α) :=
  (List.range ((l.length + k - 1) / k)).map fun i => (l.drop (i * k)).take k

/-- A list of groups of `k` elements is split into these groups again. -/
theorem chunks_flatten {α : Type} {k : Nat} (hk : 0 < k) {groups : List (List α)}
    (hg : ∀ g ∈ groups, g.length = k) : chunks k groups.flatten = groups := by
  induction groups with
  | nil =>
      have hzero : (k - 1) / k = 0 := Nat.div_eq_of_lt (by omega)
      simp [chunks, hzero]
  | cons g groups ih =>
      have hlen : g.length = k := hg g List.mem_cons_self
      have ih := ih fun g hg' => hg g (List.mem_cons_of_mem _ hg')
      unfold chunks at ih ⊢
      have hcount : ((g :: groups).flatten.length + k - 1) / k =
          (groups.flatten.length + k - 1) / k + 1 := by
        rw [List.flatten_cons, List.length_append, hlen,
          show k + groups.flatten.length + k - 1 = groups.flatten.length + k - 1 + k by omega,
          Nat.add_div_right _ hk]
      rw [hcount, List.range_succ_eq_map, List.map_cons, List.map_map, List.flatten_cons]
      congr 1
      · rw [Nat.zero_mul, List.drop_zero, List.take_append_of_le_length (Nat.le_of_eq hlen.symm),
          List.take_of_length_le (Nat.le_of_eq hlen)]
      · conv_rhs => rw [← ih]
        apply List.map_congr_left
        intro i _
        have hdrop : (i + 1) * k = g.length + i * k := by rw [hlen, Nat.succ_mul, Nat.add_comm]
        rw [Function.comp_apply, Nat.succ_eq_add_one, hdrop, List.drop_length_add_append]

/-- A list of the right length consists of groups. -/
theorem exists_groups {α : Type} {n k : Nat} {l : List α} (h : l.length = n * k) :
    ∃ groups : List (List α), groups.length = n ∧ (∀ g ∈ groups, g.length = k) ∧
      groups.flatten = l := by
  induction n generalizing l with
  | zero =>
      rw [Nat.zero_mul] at h
      exact ⟨[], rfl, by simp, (List.length_eq_zero_iff.mp h).symm⟩
  | succ n ih =>
      rw [Nat.succ_mul] at h
      obtain ⟨groups, hlen, hg, hflat⟩ := ih (l := l.drop k) (by rw [List.length_drop]; omega)
      refine ⟨l.take k :: groups, by rw [List.length_cons, hlen], ?_, ?_⟩
      · intro g hmem
        rw [List.mem_cons] at hmem
        cases hmem with
        | inl hfirst => rw [hfirst, List.length_take]; omega
        | inr hrest => exact hg g hrest
      · rw [List.flatten_cons, hflat, List.take_append_drop]

/-- The groups of a list of the right length. -/
theorem chunks_spec {α : Type} {n k : Nat} (hk : 0 < k) {l : List α} (h : l.length = n * k) :
    (chunks k l).length = n ∧ (∀ g ∈ chunks k l, g.length = k) ∧ (chunks k l).flatten = l := by
  obtain ⟨groups, hlen, hg, rfl⟩ := exists_groups h
  rw [chunks_flatten hk hg]
  exact ⟨hlen, hg, rfl⟩

/-- The first group and the groups of the rest. -/
theorem chunks_eq_cons {α : Type} {n k : Nat} (hk : 0 < k) {l : List α} (h : l.length = (n + 1) * k) :
    chunks k l = l.take k :: chunks k (l.drop k) := by
  have hlen : (l.take k).length = k := by
    rw [List.length_take, h, Nat.succ_mul, Nat.min_eq_left (Nat.le_add_left _ _)]
  have hdrop : (l.drop k).length = n * k := by
    rw [List.length_drop, h, Nat.succ_mul, Nat.add_sub_cancel]
  obtain ⟨_, hg, hflat⟩ := chunks_spec hk hdrop
  conv_lhs => rw [← List.take_append_drop k l, ← hflat, ← List.flatten_cons]
  apply chunks_flatten hk
  intro g hmem
  rw [List.mem_cons] at hmem
  cases hmem with
  | inl hfirst => rw [hfirst, hlen]
  | inr hrest => exact hg g hrest

/-- The first group of a list that is not empty, and the groups of the rest. -/
theorem chunks_of_pos {α : Type} {k : Nat} (hk : 0 < k) {l : List α} (h : 0 < l.length) :
    chunks k l = l.take k :: chunks k (l.drop k) := by
  have hcount : (l.length + k - 1) / k = ((l.drop k).length + k - 1) / k + 1 := by
    rw [List.length_drop]
    by_cases hlt : l.length < k
    · have hone : (l.length + k - 1) / k = 1 := by
        apply Nat.div_eq_of_lt_le
        · omega
        · omega
      have hzero : (k - 1) / k = 0 := Nat.div_eq_of_lt (by omega)
      rw [hone, Nat.sub_eq_zero_of_le (Nat.le_of_lt hlt), Nat.zero_add, hzero]
    · rw [← Nat.add_div_right _ hk]
      congr 1
      omega
  unfold chunks
  rw [hcount, List.range_succ_eq_map, List.map_cons, List.map_map, Nat.zero_mul, List.drop_zero]
  congr 1
  apply List.map_congr_left
  intro i _
  rw [Function.comp_apply, List.drop_drop, Nat.succ_mul, Nat.add_comm]

@[simp] theorem length_chunks {α : Type} (k : Nat) (l : List α) :
    (chunks k l).length = (l.length + k - 1) / k := by
  simp [chunks]

/-! ## the digits of a number -/

/-- The lowest `n` digits of a number. -/
def toBE (b : Nat) : Nat → Nat → List Nat
  | 0, _ => []
  | n + 1, x => toBE b n (x / b) ++ [x % b]

@[simp] theorem length_toBE (b n x : Nat) : (toBE b n x).length = n := by
  induction n generalizing x with
  | zero => rfl
  | succ n ih => rw [toBE, List.length_append, ih, List.length_singleton]

theorem toBE_lt {b : Nat} (hb : 0 < b) {n x : Nat} : ∀ d ∈ toBE b n x, d < b := by
  induction n generalizing x with
  | zero => intro d hd; cases hd
  | succ n ih =>
      intro d hd
      rw [toBE, List.mem_append, List.mem_singleton] at hd
      cases hd with
      | inl hd => exact ih d hd
      | inr hd => exact hd ▸ Nat.mod_lt _ hb

theorem ofBE_toBE {b n x : Nat} (h : x < b ^ n) : ofBE b (toBE b n x) = x := by
  induction n generalizing x with
  | zero =>
      rw [pow_zero, Nat.lt_one_iff] at h
      rw [h]
      rfl
  | succ n ih =>
      have hdiv : x / b < b ^ n := Nat.div_lt_of_lt_mul (by rwa [← pow_succ'])
      rw [toBE, ofBE_append, ih hdiv, ofBE_singleton, List.length_singleton, pow_one]
      exact Nat.div_add_mod' x b

/-- Digit by digit. -/
theorem toBE_eq_map (b n x : Nat) :
    toBE b n x = (List.range n).map fun i => x / b ^ (n - 1 - i) % b := by
  induction n generalizing x with
  | zero => rfl
  | succ n ih =>
      rw [toBE, ih, List.range_succ, List.map_append, List.map_singleton, Nat.add_sub_cancel,
        Nat.sub_self, pow_zero, Nat.div_one]
      congr 1
      apply List.map_congr_left
      intro i hi
      rw [List.mem_range] at hi
      have hexp : n - i = n - 1 - i + 1 := by omega
      rw [hexp, pow_succ', Nat.div_div_eq_div_mul]

/-! ## bytes -/

/-- The number a byte string writes, most significant byte first. -/
def ofBytesBE (bs : List UInt8) : Nat := ofBE 256 (bs.map UInt8.toNat)

/-- The `n` lowest bytes of a number, most significant first. -/
def toBytesBE (n x : Nat) : List UInt8 := (toBE 256 n x).map UInt8.ofNat

theorem byte_lt (bs : List UInt8) : ∀ d ∈ bs.map UInt8.toNat, d < 256 := by
  intro d hd
  obtain ⟨x, _, rfl⟩ := List.mem_map.mp hd
  exact x.toNat_lt

theorem ofBytesBE_lt (bs : List UInt8) : ofBytesBE bs < 256 ^ bs.length := by
  have h := ofBE_lt (by decide) (byte_lt bs)
  rwa [List.length_map] at h

theorem ofBytesBE_append (bs cs : List UInt8) :
    ofBytesBE (bs ++ cs) = ofBytesBE bs * 256 ^ cs.length + ofBytesBE cs := by
  unfold ofBytesBE
  rw [List.map_append, ofBE_append, List.length_map]

/-- Groups of `k` bytes are digits of base `256 ^ k`. -/
theorem ofBytesBE_flatten {k : Nat} {groups : List (List UInt8)} (hk : ∀ g ∈ groups, g.length = k) :
    ofBytesBE groups.flatten = ofBE (256 ^ k) (groups.map ofBytesBE) := by
  have hlen : ∀ g ∈ groups.map (List.map UInt8.toNat), g.length = k := by
    intro g hg
    obtain ⟨bytes, hbytes, rfl⟩ := List.mem_map.mp hg
    rw [List.length_map, hk bytes hbytes]
  rw [ofBytesBE, List.map_flatten, ofBE_flatten 256 hlen, List.map_map]
  rfl

@[simp] theorem length_toBytesBE (n x : Nat) : (toBytesBE n x).length = n := by
  rw [toBytesBE, List.length_map, length_toBE]

/-- Digits below 256 are bytes. -/
theorem map_toNat_ofNat {l : List Nat} (hl : ∀ d ∈ l, d < 256) :
    (l.map UInt8.ofNat).map UInt8.toNat = l := by
  rw [List.map_map]
  conv_rhs => rw [← List.map_id l]
  apply List.map_congr_left
  intro d hd
  exact UInt8.toNat_ofNat_of_lt' (hl d hd)

theorem ofBytesBE_toBytesBE {n x : Nat} (h : x < 256 ^ n) : ofBytesBE (toBytesBE n x) = x := by
  rw [ofBytesBE, toBytesBE, map_toNat_ofNat (toBE_lt (by decide)), ofBE_toBE h]

theorem ofBytesBE_inj {bs cs : List UInt8} (hlen : bs.length = cs.length)
    (h : ofBytesBE bs = ofBytesBE cs) : bs = cs := by
  have hmap := ofBE_inj (by decide) (by rw [List.length_map, List.length_map, hlen]) (byte_lt bs)
    (byte_lt cs) h
  exact List.map_injective_iff.mpr (fun _ _ => UInt8.toNat_inj.mp) hmap

/-- Bytes are those of the number they write. -/
theorem toBytesBE_ofBytesBE (bs : List UInt8) : toBytesBE bs.length (ofBytesBE bs) = bs :=
  ofBytesBE_inj (length_toBytesBE _ _) (ofBytesBE_toBytesBE (ofBytesBE_lt bs))

end Digits
