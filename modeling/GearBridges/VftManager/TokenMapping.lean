import Mathlib.Data.Finmap
import GearBridges.Lib.FiniteMap
import GearBridges.VftManager.System

/-!
# VftManager.TokenMapping

The token map with its hash maps as finite maps, and the calls of the governance that
change it.  `map_vara_to_eth_address` and `remove_vara_to_eth_address` keep the two
directions inverse to each other.  `update_vfts` builds both maps anew from a list of
replacements; it does so exactly when no two mapped tokens end up under one address
(`UpdateVfts.inverse_run_iff`).

The calls run one after another: a call that panics changes nothing, also after an
`await`, since `update_vfts` writes only at its end.
-/

namespace GearBridges.VftManager

open Transition FiniteMap

/-! ## the map -/

/-- The entries of `vara_to_eth`. -/
abbrev VftEntry := (_ : ActorId) × (H160 × TokenSupply)

/-- `TokenMap` with its two hash maps. -/
structure TokenTable where
  varaToEth : AList fun _ : ActorId => H160 × TokenSupply
  ethToVara : AList fun _ : H160 => ActorId

namespace TokenTable

/-- The table of a freshly seeded program. -/
def empty : TokenTable := ⟨∅, ∅⟩

/-- The tables a run starts with. -/
def Seeded (t : TokenTable) : Prop := t = empty

/-- What the methods of the program read from the table. -/
def toTokenMap (t : TokenTable) : TokenMap :=
  ⟨fun v => t.varaToEth.lookup v, fun e => t.ethToVara.lookup e⟩

/-- `TokenMap::insert`: panics if either side is already mapped. -/
def insert (t : TokenTable) (varaTokenId : ActorId) (ethTokenId : H160) (supply : TokenSupply) :
    Option TokenTable :=
  if (t.varaToEth.lookup varaTokenId).isSome then none
  else if (t.ethToVara.lookup ethTokenId).isSome then none
  else some ⟨t.varaToEth.insert varaTokenId (ethTokenId, supply),
    t.ethToVara.insert ethTokenId varaTokenId⟩

/-- `TokenMap::remove`: panics if one of the two directions is missing. -/
def remove (t : TokenTable) (varaTokenId : ActorId) : Option TokenTable :=
  match t.varaToEth.lookup varaTokenId with
  | none => none
  | some (ethTokenId, _) => match t.ethToVara.lookup ethTokenId with
    | none => none
    | some _ => some ⟨t.varaToEth.erase varaTokenId, t.ethToVara.erase ethTokenId⟩

/-- Both directions say the same. -/
def Inverse (t : TokenTable) : Prop :=
  ∀ v e, (∃ s, t.varaToEth.lookup v = some (e, s)) ↔ t.ethToVara.lookup e = some v

end TokenTable

/-! ## `update_vfts` -/

/-- How `balance_of` of a token ends. -/
inductive BalanceReply where
  | ok
  | inactiveActor
  | failed
deriving DecidableEq, Repr

/-- A call of `update_vfts` with what the runtime answers to it. -/
structure UpdateVfts where
  vftMap : List (ActorId × ActorId)
  balanceOf : ActorId → BalanceReply
  gasAvailable : Nat
  gasRequired : Nat

namespace UpdateVfts

variable (u : UpdateVfts)

/-- The address a mapped token gets: the first replacement listed for it if its program is
gone, else its own.  `none` is the panic on any other failure of `balance_of`. -/
def vftNew (vft : ActorId) : Option ActorId :=
  match u.vftMap.find? fun p => p.1 == vft with
  | none => some vft
  | some (_, new) => match u.balanceOf vft with
    | .ok => some vft
    | .inactiveActor => some new
    | .failed => none

/-- The loop over the entries of `vara_to_eth`. -/
def rebuild : List VftEntry → TokenTable → Option TokenTable
  | [], t => some t
  | ⟨vft, erc20, supply⟩ :: rest, t => match u.vftNew vft with
    | none => none
    | some new => rebuild rest
        ⟨t.varaToEth.insert new (erc20, supply), t.ethToVara.insert erc20 new⟩

/-- `TokenMap::update_vfts`, with the entries of `vara_to_eth` visited in the order
`order`; a list that is not an order of the entries is no run of the source. -/
def run (t : TokenTable) (order : List VftEntry) : Option TokenTable :=
  if order.Perm t.varaToEth.entries then
    match u.rebuild order .empty with
    | none => none
    | some t' =>
        if t'.ethToVara.toFinmap = t.ethToVara.toFinmap then some t
        else if u.gasAvailable < u.gasRequired then none
        else some t'
  else none

/-- No two mapped tokens end up under one address. -/
def Separates (t : TokenTable) : Prop :=
  ∀ v₁ ∈ t.varaToEth.keys, ∀ v₂ ∈ t.varaToEth.keys, u.vftNew v₁ = u.vftNew v₂ → v₁ = v₂

instance (t : TokenTable) : Decidable (u.Separates t) :=
  -- by going through the keys: instance search would go through all addresses
  decidable_of_iff ((t.varaToEth.keys.all fun v₁ => t.varaToEth.keys.all fun v₂ =>
      decide (u.vftNew v₁ = u.vftNew v₂ → v₁ = v₂)) = true)
    (by simp only [Separates, List.all_eq_true, decide_eq_true_eq])

end UpdateVfts

/-! ## calls -/

/-- The calls of the governance that change the token map. -/
inductive TokenCall where
  | mapVaraToEthAddress (varaTokenId : ActorId) (ethTokenId : H160) (supply : TokenSupply)
  | removeVaraToEthAddress (varaTokenId : ActorId)
  | updateVfts (u : UpdateVfts) (order : List VftEntry)

/-- The table after a call; `none` is a panic. -/
def TokenTable.step (t : TokenTable) : TokenCall → Option TokenTable
  | .mapVaraToEthAddress v e s => t.insert v e s
  | .removeVaraToEthAddress v => t.remove v
  | .updateVfts u order => u.run t order

/-- The calls of `update_vfts` separate the mapped tokens. -/
def Separating (t : TokenTable) : TokenCall → Prop
  | .updateVfts u _ => u.Separates t
  | _ => True

instance : ∀ (t : TokenTable) (c : TokenCall), Decidable (Separating t c)
  | t, .updateVfts u _ => inferInstanceAs (Decidable (u.Separates t))
  | _, .mapVaraToEthAddress .. => .isTrue trivial
  | _, .removeVaraToEthAddress .. => .isTrue trivial

/-! ## what the calls do to the two directions -/

variable {t t' : TokenTable} {u : UpdateVfts} {order : List VftEntry}

namespace TokenTable

theorem inverse_empty : empty.Inverse := by
  intro v e
  simp [empty]

/-- Under one address there is one token. -/
theorem Inverse.eq_of_lookup (ht : t.Inverse) {v₁ v₂ : ActorId} {e : H160} {s₁ s₂ : TokenSupply}
    (h₁ : t.varaToEth.lookup v₁ = some (e, s₁)) (h₂ : t.varaToEth.lookup v₂ = some (e, s₂)) :
    v₁ = v₂ := by
  have hv₁ := (ht v₁ e).mp ⟨s₁, h₁⟩
  have hv₂ := (ht v₂ e).mp ⟨s₂, h₂⟩
  exact Option.some.inj (hv₁.symm.trans hv₂)

theorem Inverse.insert (ht : t.Inverse) {v : ActorId} {e : H160} {s : TokenSupply}
    (h : t.insert v e s = some t') : t'.Inverse := by
  simp only [TokenTable.insert] at h
  split at h
  · contradiction
  split at h
  · contradiction
  next hv he =>
    simp only [Bool.not_eq_true, Option.isSome_eq_false_iff, Option.isNone_iff_eq_none] at hv he
    cases h
    intro v' e'
    by_cases hv' : v' = v <;> by_cases he' : e' = e
    · subst hv' he'
      simp
    · subst hv'
      rw [AList.lookup_insert, AList.lookup_insert_ne he', ← ht v' e', hv]
      simp [Ne.symm he']
    · subst he'
      rw [AList.lookup_insert, AList.lookup_insert_ne hv', ht v' e', he]
      simp [Ne.symm hv']
    · rw [AList.lookup_insert_ne hv', AList.lookup_insert_ne he']
      exact ht v' e'

theorem Inverse.remove (ht : t.Inverse) {v : ActorId} (h : t.remove v = some t') : t'.Inverse := by
  simp only [TokenTable.remove] at h
  split at h
  · contradiction
  next e s hv =>
    split at h
    · contradiction
    cases h
    intro v' e'
    have he := (ht v e).mp ⟨s, hv⟩
    by_cases hv' : v' = v <;> by_cases he' : e' = e
    · subst hv' he'
      simp
    · subst hv'
      rw [AList.lookup_erase, AList.lookup_erase_ne he', ← ht v' e', hv]
      simp [Ne.symm he']
    · subst he'
      rw [AList.lookup_erase, AList.lookup_erase_ne hv', ht v' e', he]
      simp [Ne.symm hv']
    · rw [AList.lookup_erase_ne hv', AList.lookup_erase_ne he']
      exact ht v' e'

/-- A mapped token can be removed. -/
theorem Inverse.isSome_remove (ht : t.Inverse) {v : ActorId}
    (h : (t.varaToEth.lookup v).isSome) : (t.remove v).isSome := by
  obtain ⟨⟨e, s⟩, hv⟩ := Option.isSome_iff_exists.mp h
  have he := (ht v e).mp ⟨s, hv⟩
  simp [TokenTable.remove, hv, he]

end TokenTable

namespace UpdateVfts

/-- The loop of `update_vfts` inserts every entry under its new address. -/
theorem rebuild_eq (h : u.rebuild order t = some t') :
    (∀ x ∈ order, u.vftNew x.1 = some ((u.vftNew x.1).getD x.1)) ∧
    t'.varaToEth = insertAll (order.map fun x => ((u.vftNew x.1).getD x.1, x.2)) t.varaToEth ∧
    t'.ethToVara = insertAll (order.map fun x => (x.2.1, (u.vftNew x.1).getD x.1)) t.ethToVara := by
  induction order generalizing t with
  | nil =>
      cases h
      exact ⟨fun x hx => by contradiction, rfl, rfl⟩
  | cons x rest ih =>
      obtain ⟨vft, erc20, supply⟩ := x
      cases hnew : u.vftNew vft with
      | none => simp only [rebuild, hnew] at h; contradiction
      | some new =>
          simp only [rebuild, hnew] at h
          obtain ⟨hsome, hvara, heth⟩ := ih h
          refine ⟨?_, ?_, ?_⟩
          · intro x hx
            rcases List.mem_cons.mp hx with rfl | hx
            · simp [hnew]
            · exact hsome x hx
          · rw [hvara]
            simp [insertAll, hnew]
          · rw [heth]
            simp [insertAll, hnew]

/-- How a call ends that does not panic. -/
theorem run_cases (h : u.run t order = some t') : order.Perm t.varaToEth.entries ∧
    ∃ r, u.rebuild order .empty = some r ∧
      ((r.ethToVara.toFinmap = t.ethToVara.toFinmap ∧ t' = t) ∨ t' = r) := by
  simp only [run] at h
  split at h
  · next hperm =>
      split at h
      · contradiction
      · next r hr =>
          refine ⟨hperm, r, hr, ?_⟩
          split at h
          · next heq => exact .inl ⟨heq, (Option.some.inj h).symm⟩
          · split at h
            · contradiction
            · exact .inr (Option.some.inj h).symm
  · contradiction

theorem mem_order (hperm : order.Perm t.varaToEth.entries) {v : ActorId} {e : H160}
    {s : TokenSupply} : ⟨v, e, s⟩ ∈ order ↔ t.varaToEth.lookup v = some (e, s) := by
  rw [hperm.mem_iff, ← AList.mem_lookup_iff, Option.mem_def]

/-- The entries of the rebuilt `eth_to_vara`. -/
theorem lookup_rebuild_ethToVara (ht : t.Inverse) (hperm : order.Perm t.varaToEth.entries)
    {r : TokenTable} (hr : u.rebuild order .empty = some r) {e : H160} {new : ActorId} :
    r.ethToVara.lookup e = some new ↔
      ∃ v s, t.varaToEth.lookup v = some (e, s) ∧ u.vftNew v = some new := by
  obtain ⟨hsome, -, heth⟩ := rebuild_eq hr
  have hkeys : (order.map Sigma.fst).Nodup :=
    (hperm.map Sigma.fst).nodup_iff.mpr t.varaToEth.keys_nodup
  -- the addresses on Ethereum are distinct because the old maps were inverse to each other
  have hnodup : ((order.map fun x => (x.2.1, (u.vftNew x.1).getD x.1)).map Prod.fst).Nodup := by
    rw [List.map_map]
    refine hkeys.of_map.map_on ?_
    rintro ⟨v₁, e₁, s₁⟩ h₁ ⟨v₂, e₂, s₂⟩ h₂ heq
    simp only [Function.comp_apply] at heq
    subst heq
    have hv := ht.eq_of_lookup ((mem_order hperm).mp h₁) ((mem_order hperm).mp h₂)
    exact List.inj_on_of_nodup_map hkeys h₁ h₂ hv
  rw [heth, TokenTable.empty, lookup_insertAll_empty hnodup, List.mem_map]
  constructor
  · rintro ⟨⟨v, e', s⟩, hmem, heq⟩
    cases heq
    exact ⟨v, s, (mem_order hperm).mp hmem, hsome _ hmem⟩
  · rintro ⟨v, s, hv, hnew⟩
    exact ⟨⟨v, e, s⟩, (mem_order hperm).mpr hv, by simp [hnew]⟩

/-- The entries of the rebuilt `vara_to_eth`. -/
theorem lookup_rebuild_varaToEth (hu : u.Separates t) (hperm : order.Perm t.varaToEth.entries)
    {r : TokenTable} (hr : u.rebuild order .empty = some r) {new : ActorId} {e : H160}
    {s : TokenSupply} : r.varaToEth.lookup new = some (e, s) ↔
      ∃ v, t.varaToEth.lookup v = some (e, s) ∧ u.vftNew v = some new := by
  obtain ⟨hsome, hvara, -⟩ := rebuild_eq hr
  have hkeys : (order.map Sigma.fst).Nodup :=
    (hperm.map Sigma.fst).nodup_iff.mpr t.varaToEth.keys_nodup
  have hmapped : ∀ x ∈ order, x.1 ∈ t.varaToEth.keys := fun x hx =>
    List.mem_map_of_mem (hperm.mem_iff.mp hx)
  have hnodup : ((order.map fun x => ((u.vftNew x.1).getD x.1, x.2)).map Prod.fst).Nodup := by
    rw [List.map_map]
    refine hkeys.of_map.map_on ?_
    intro x₁ h₁ x₂ h₂ heq
    have hv : u.vftNew x₁.1 = u.vftNew x₂.1 := by
      rw [hsome x₁ h₁, hsome x₂ h₂]
      exact congrArg some heq
    exact List.inj_on_of_nodup_map hkeys h₁ h₂ (hu _ (hmapped x₁ h₁) _ (hmapped x₂ h₂) hv)
  rw [hvara, TokenTable.empty, lookup_insertAll_empty hnodup, List.mem_map]
  constructor
  · rintro ⟨⟨v, e', s'⟩, hmem, heq⟩
    cases heq
    exact ⟨v, (mem_order hperm).mp hmem, hsome _ hmem⟩
  · rintro ⟨v, hv, hnew⟩
    exact ⟨⟨v, e, s⟩, (mem_order hperm).mpr hv, by simp [hnew]⟩

/-- A call that returns early has replaced nothing. -/
theorem vftNew_of_unchanged (ht : t.Inverse) (hperm : order.Perm t.varaToEth.entries)
    {r : TokenTable} (hr : u.rebuild order .empty = some r)
    (heq : r.ethToVara.toFinmap = t.ethToVara.toFinmap) {v : ActorId} {e : H160} {s : TokenSupply}
    (hv : t.varaToEth.lookup v = some (e, s)) : u.vftNew v = some v := by
  have hlookup : r.ethToVara.lookup e = t.ethToVara.lookup e := by
    rw [← Finmap.lookup_toFinmap, ← Finmap.lookup_toFinmap, heq]
  rw [(ht v e).mp ⟨s, hv⟩, lookup_rebuild_ethToVara ht hperm hr] at hlookup
  obtain ⟨v', s', hv', hnew⟩ := hlookup
  cases ht.eq_of_lookup hv hv'
  exact hnew

/-- Both directions after a call: every `ERC20` leads to the new address of its token. -/
theorem lookup_run_ethToVara (ht : t.Inverse) (h : u.run t order = some t') {e : H160}
    {new : ActorId} : t'.ethToVara.lookup e = some new ↔
      ∃ v s, t.varaToEth.lookup v = some (e, s) ∧ u.vftNew v = some new := by
  obtain ⟨hperm, r, hr, ⟨heq, rfl⟩ | rfl⟩ := run_cases h
  · rw [← lookup_rebuild_ethToVara ht hperm hr, ← Finmap.lookup_toFinmap,
      ← Finmap.lookup_toFinmap, heq]
  · exact lookup_rebuild_ethToVara ht hperm hr

theorem lookup_run_varaToEth (ht : t.Inverse) (hu : u.Separates t) (h : u.run t order = some t')
    {new : ActorId} {e : H160} {s : TokenSupply} : t'.varaToEth.lookup new = some (e, s) ↔
      ∃ v, t.varaToEth.lookup v = some (e, s) ∧ u.vftNew v = some new := by
  obtain ⟨hperm, r, hr, ⟨heq, rfl⟩ | rfl⟩ := run_cases h
  · constructor
    · intro hnew
      exact ⟨new, hnew, vftNew_of_unchanged ht hperm hr heq hnew⟩
    · rintro ⟨v, hv, hnew⟩
      rw [vftNew_of_unchanged ht hperm hr heq hv] at hnew
      cases hnew
      exact hv
  · exact lookup_rebuild_varaToEth hu hperm hr

/-- A call that does not panic gives every mapped token an address. -/
theorem vftNew_isSome (h : u.run t order = some t') {v : ActorId} {e : H160} {s : TokenSupply}
    (hv : t.varaToEth.lookup v = some (e, s)) : ∃ new, u.vftNew v = some new := by
  obtain ⟨hperm, r, hr, -⟩ := run_cases h
  exact ⟨_, (rebuild_eq hr).1 _ ((mem_order hperm).mpr hv)⟩

/-- **When `update_vfts` keeps the two directions inverse**: exactly when no two mapped
tokens end up under one address. -/
theorem inverse_run_iff (ht : t.Inverse) (h : u.run t order = some t') :
    t'.Inverse ↔ u.Separates t := by
  constructor
  · intro ht' v₁ h₁ v₂ h₂ heq
    obtain ⟨⟨e₁, s₁⟩, hv₁⟩ := Option.isSome_iff_exists.mp (AList.lookup_isSome.mpr h₁)
    obtain ⟨⟨e₂, s₂⟩, hv₂⟩ := Option.isSome_iff_exists.mp (AList.lookup_isSome.mpr h₂)
    obtain ⟨new, hnew⟩ := vftNew_isSome h hv₁
    -- both `ERC20` tokens lead to `new`, and `new` leads to one of them only
    obtain ⟨r₁, he₁⟩ := (ht' new e₁).mpr ((lookup_run_ethToVara ht h).mpr ⟨v₁, s₁, hv₁, hnew⟩)
    obtain ⟨r₂, he₂⟩ :=
      (ht' new e₂).mpr ((lookup_run_ethToVara ht h).mpr ⟨v₂, s₂, hv₂, heq ▸ hnew⟩)
    rw [he₁] at he₂
    cases he₂
    exact ht.eq_of_lookup hv₁ hv₂
  · intro hu new e
    simp only [lookup_run_varaToEth ht hu h, lookup_run_ethToVara ht h]
    exact ⟨fun ⟨s, v, hv⟩ => ⟨v, s, hv⟩, fun ⟨v, s, hv⟩ => ⟨s, v, hv⟩⟩

end UpdateVfts

/-! ## runs -/

/-- The table of the program after any sequence of calls that meet `Separating`. -/
theorem inverse_of_reachable (h : Reachable TokenTable.step Separating TokenTable.Seeded t) :
    t.Inverse := by
  refine Reachable.invariant (I := TokenTable.Inverse) ?_ ?_ h
  · rintro s rfl
    exact TokenTable.inverse_empty
  · intro t c t' ht hok hstep
    cases c with
    | mapVaraToEthAddress v e s => exact ht.insert hstep
    | removeVaraToEthAddress v => exact ht.remove hstep
    | updateVfts u order => exact (UpdateVfts.inverse_run_iff ht hstep).mpr hok

/-- **The token map is a bijection**, in every run in which no call of `update_vfts` puts
two mapped tokens under one address: the two directions are inverse to each other, a
mapped token can be removed, and `update_vfts` loses no entry: every `ERC20` leads to the
new address of its token and back, with its supply.  One more call keeps this up exactly
when it separates the mapped tokens. -/
theorem tokenMap_bijective (t : TokenTable)
    (h : Reachable TokenTable.step Separating TokenTable.Seeded t) :
    (∀ v e, (∃ s, t.varaToEth.lookup v = some (e, s)) ↔ t.ethToVara.lookup e = some v) ∧
    (∀ v, (t.varaToEth.lookup v).isSome →
      (t.step (.removeVaraToEthAddress v)).isSome) ∧
    ∀ u order t', t.step (.updateVfts u order) = some t' →
      (u.Separates t → ∀ v e s, t.varaToEth.lookup v = some (e, s) →
        ∃ new, u.vftNew v = some new ∧ t'.varaToEth.lookup new = some (e, s) ∧
          t'.ethToVara.lookup e = some new) ∧
      ((∀ v e, (∃ s, t'.varaToEth.lookup v = some (e, s)) ↔ t'.ethToVara.lookup e = some v) ↔
        u.Separates t) := by
  have ht := inverse_of_reachable h
  refine ⟨ht, fun v hv => ht.isSome_remove hv, ?_⟩
  intro u order t' hstep
  refine ⟨?_, UpdateVfts.inverse_run_iff ht hstep⟩
  intro hu v e s hv
  obtain ⟨new, hnew⟩ := UpdateVfts.vftNew_isSome hstep hv
  exact ⟨new, hnew, (UpdateVfts.lookup_run_varaToEth ht hu hstep).mpr ⟨v, hv, hnew⟩,
    (UpdateVfts.lookup_run_ethToVara ht hstep).mpr ⟨v, s, hv, hnew⟩⟩

/-- Token `100` is gone; `new` is to take its place. -/
def replaceGone (new : ActorId) : UpdateVfts where
  vftMap := [(100, new)]
  balanceOf := fun v => if v = 100 then .inactiveActor else .ok
  gasAvailable := 10
  gasRequired := 5

/-- Two tokens are mapped and the first is replaced. -/
def replacingRun (new : ActorId) : List TokenCall :=
  [.mapVaraToEthAddress 100 200 .ethereum, .mapVaraToEthAddress 101 201 .gear,
    .updateVfts (replaceGone new) [⟨100, 200, .ethereum⟩, ⟨101, 201, .gear⟩]]

/-- Token `100` is replaced by `102`, which is then removed. -/
theorem tokenMap_bijective_replaced : ∃ t,
    Reachable TokenTable.step Separating TokenTable.Seeded t ∧
    t.ethToVara.lookup 200 = some 102 ∧ (∃ s, t.varaToEth.lookup 102 = some (200, s)) ∧
    (t.step (.removeVaraToEthAddress 102)).isSome := by
  obtain ⟨t, ht, hlookup⟩ := exists_reachable_of_exec TokenTable.step Separating
    (show TokenTable.Seeded .empty from rfl) (replacingRun 102)
    (fun t => decide (t.ethToVara.lookup 200 = some 102)) (by decide +kernel)
  have heth := of_decide_eq_true hlookup
  obtain ⟨hinverse, hremove, -⟩ := tokenMap_bijective t ht
  have hvara := (hinverse 102 200).mpr heth
  refine ⟨t, ht, heth, hvara, hremove 102 ?_⟩
  obtain ⟨s, hs⟩ := hvara
  rw [hs]
  rfl

/-- A replacement that is mapped already: token `101` now stands for two `ERC20` tokens,
and the entry of one of them is lost. -/
theorem tokenMap_not_bijective : ∃ t, Reachable TokenTable.step free TokenTable.Seeded t ∧
    t.ethToVara.lookup 200 = some 101 ∧ t.ethToVara.lookup 201 = some 101 ∧
    t.varaToEth.lookup 101 = some (201, .gear) ∧ t.varaToEth.lookup 100 = none ∧
    ¬ ∀ v e, (∃ s, t.varaToEth.lookup v = some (e, s)) ↔ t.ethToVara.lookup e = some v := by
  obtain ⟨t, ht, hlookup⟩ := exists_reachable_of_exec TokenTable.step free
    (show TokenTable.Seeded .empty from rfl) (replacingRun 101)
    (fun t => decide (t.ethToVara.lookup 200 = some 101 ∧ t.ethToVara.lookup 201 = some 101 ∧
      t.varaToEth.lookup 101 = some (201, .gear) ∧ t.varaToEth.lookup 100 = none))
    (by decide +kernel)
  obtain ⟨h200, h201, h101, h100⟩ := of_decide_eq_true hlookup
  refine ⟨t, ht, h200, h201, h101, h100, ?_⟩
  intro hinverse
  obtain ⟨s, hs⟩ := (hinverse 101 200).mpr h200
  rw [h101] at hs
  simp at hs

/-! ## the calls as steps of the program -/

/-- The call of the governance that a change of the table belongs to. -/
def TokenCall.adminCall (t' : TokenTable) : TokenCall → AdminCall
  | .mapVaraToEthAddress v e s => .mapVaraToEthAddress v e s
  | .removeVaraToEthAddress v => .removeVaraToEthAddress v
  | .updateVfts _ _ => .updateVfts t'.toTokenMap

theorem TokenTable.toTokenMap_insert {v : ActorId} {e : H160} {s : TokenSupply}
    (h : t.insert v e s = some t') : t.toTokenMap.insert v e s = some t'.toTokenMap := by
  simp only [TokenTable.insert] at h
  split at h
  · contradiction
  split at h
  · contradiction
  next hv he =>
    cases h
    have hinsert : t.toTokenMap.insert v e s = some
        ⟨Function.update t.toTokenMap.varaToEth v (some (e, s)),
          Function.update t.toTokenMap.ethToVara e (some v)⟩ :=
      (if_neg hv).trans (if_neg he)
    rw [hinsert]
    simp only [toTokenMap, lookup_insert_eq_update]

theorem TokenTable.toTokenMap_remove {v : ActorId} (h : t.remove v = some t') :
    (t.toTokenMap.remove v).map Prod.fst = some t'.toTokenMap := by
  simp only [TokenTable.remove] at h
  split at h
  · contradiction
  next e s hv =>
    split at h
    · contradiction
    next v' he =>
      cases h
      simp only [TokenMap.remove, toTokenMap, hv, he, Option.map_some, lookup_erase_eq_update]

/-- A call on the table is the call of the admin on the program. -/
theorem step_admin_of_step {prog : Program} {w : World} {c : TokenCall}
    (hw : w.state.tokenMap = t.toTokenMap) (h : t.step c = some t') :
    step prog w (.admin w.state.admin (c.adminCall t')) =
      some { w.bump with state := { w.state with tokenMap := t'.toTokenMap } } := by
  cases c with
  | mapVaraToEthAddress v e s =>
      simp [step, TokenCall.adminCall, AdminCall.run, hw, TokenTable.toTokenMap_insert h]
  | removeVaraToEthAddress v =>
      have hremove := TokenTable.toTokenMap_remove h
      cases hm : t.toTokenMap.remove v with
      | none => simp [hm] at hremove
      | some m =>
          simp only [hm, Option.map_some, Option.some.injEq] at hremove
          simp [step, TokenCall.adminCall, AdminCall.run, hw, hm, hremove]
  | updateVfts u order => simp [step, TokenCall.adminCall, AdminCall.run]

/-- Every sequence of calls on the table is a run of the program. -/
theorem exists_world_of_reachable {ok : TokenTable → TokenCall → Prop} (prog : Program)
    (config : InitConfig) (actorId : ActorId)
    (h : Reachable TokenTable.step ok TokenTable.Seeded t) :
    ∃ w, Reachable (step prog) free Seeded w ∧ w.state.tokenMap = t.toTokenMap := by
  induction h with
  | start hs =>
      subst hs
      exact ⟨.seed config actorId, .start ⟨config, actorId, rfl⟩, rfl⟩
  | next _ _ hstep ih =>
      obtain ⟨w, hw, htable⟩ := ih
      exact ⟨_, .next hw trivial (step_admin_of_step htable hstep), rfl⟩

end GearBridges.VftManager
