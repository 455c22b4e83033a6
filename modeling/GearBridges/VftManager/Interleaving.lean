import GearBridges.VftManager.TokenMapping

/-!
# VftManager.Interleaving

`update_vfts` with its waits.  It goes through the entries of the token map, asks for a
balance at every entry that has a replacement, and puts what it has built in the place of
the map at its end.  What other calls do to the map in between is lost or undone
(`lost_update`); if the map is as it was when the iteration started, the calls are as if
they had been made one after another (`tokenMap_sequential`).

A hash map that changes during an iteration may yield anything from then on.
-/

namespace GearBridges.VftManager

open Transition FiniteMap

/-! ## executions of `update_vfts` -/

/-- An execution of `update_vfts` between two entries. -/
structure VftUpdate where
  vftMap : List (ActorId × ActorId)
  gasRequired : Nat
  /-- Number of writes to the map before the iteration. -/
  since : Nat
  /-- Entries the iteration has yielded, with the replies it has got. -/
  visited : List VftEntry
  replies : List (ActorId × BalanceReply)
  /-- The new maps. -/
  built : TokenTable

namespace VftUpdate

def start (vftMap : List (ActorId × ActorId)) (gasRequired since : Nat) : VftUpdate :=
  ⟨vftMap, gasRequired, since, [], [], .empty⟩

variable (p : VftUpdate)

/-- The first replacement listed for a token. -/
def replacement (vft : ActorId) : Option ActorId :=
  (p.vftMap.find? fun q => q.1 == vft).map Prod.snd

/-- The end of one round of the loop. -/
def insert (entry : VftEntry) (vftNew : ActorId) : VftUpdate :=
  { p with
    visited := p.visited ++ [entry]
    built := ⟨p.built.varaToEth.insert vftNew entry.2, p.built.ethToVara.insert entry.2.1 vftNew⟩ }

def insertAll (kept : List VftEntry) : VftUpdate := kept.foldl (fun p entry => p.insert entry entry.1) p

def hear (vft : ActorId) (reply : BalanceReply) : VftUpdate :=
  { p with replies := p.replies ++ [(vft, reply)] }

/-- The rest of a round after the reply to `balance_of`; `none` is a panic. -/
def reply (entry : VftEntry) : BalanceReply → Option VftUpdate
  | .ok => some ((p.hear entry.1 .ok).insert entry entry.1)
  | .inactiveActor => (p.replacement entry.1).map fun vftNew =>
      (p.hear entry.1 .inactiveActor).insert entry vftNew
  | .failed => none

/-- The call that has been executed, as one step. -/
def call (gasAvailable : Nat) : TokenCall :=
  .updateVfts
    { vftMap := p.vftMap
      balanceOf := fun vft => ((p.replies.find? fun r => r.1 == vft).map Prod.snd).getD .ok
      gasAvailable
      gasRequired := p.gasRequired }
    p.visited

end VftUpdate

/-- What the iteration yields up to the next wait: entries without a replacement, and the
entry whose balance is asked for, unless it ends. -/
structure Segment where
  kept : List VftEntry
  awaited : Option VftEntry

/-! ## the program -/

structure TokenWorld where
  table : TokenTable
  /-- Number of writes to the table. -/
  writes : Nat
  /-- Executions of `update_vfts` that wait, each with its entry. -/
  waiting : List (VftUpdate × VftEntry)
  /-- Calls that have completed, in this order. -/
  completed : List TokenCall

/-- No call has been made. -/
def TokenWorld.Fresh (w : TokenWorld) : Prop := w = ⟨.empty, 0, [], []⟩

inductive TokenAction where
  | mapVaraToEthAddress (varaTokenId : ActorId) (ethTokenId : H160) (supply : TokenSupply)
  | removeVaraToEthAddress (varaTokenId : ActorId)
  /-- `update_vfts` up to its first wait, or to its end. -/
  | updateVfts (vftMap : List (ActorId × ActorId)) (gasRequired : Nat) (segment : Segment)
      (gasAvailable : Nat)
  /-- A reply to `balance_of`: the execution goes on to its next wait, or to its end. -/
  | balanceOf (i : Nat) (reply : BalanceReply) (segment : Segment) (gasAvailable : Nat)

/-- What an iteration over an unchanged map can have yielded. -/
def Yields (t : TokenTable) (yielded : List VftEntry) (ended : Bool) : Bool :=
  if ended then decide (yielded.Perm t.varaToEth.entries)
  else decide yielded.Nodup && yielded.all fun entry => decide (entry ∈ t.varaToEth.entries)

namespace TokenWorld

variable (w : TokenWorld)

/-- A call that writes the table. -/
def write (t : TokenTable) (c : TokenCall) : TokenWorld :=
  { w with table := t, writes := w.writes + 1, completed := w.completed ++ [c] }

/-- `update_vfts` behind its loop.  A panic leaves the table as it is. -/
def finish (p : VftUpdate) (gasAvailable : Nat) : TokenWorld :=
  if p.built.ethToVara.toFinmap = w.table.ethToVara.toFinmap then
    { w with completed := w.completed ++ [p.call gasAvailable] }
  else if gasAvailable < p.gasRequired then w
  else w.write p.built (p.call gasAvailable)

/-- The loop of `update_vfts` up to its next wait, or to its end. -/
def goOn (p : VftUpdate) (segment : Segment) (gasAvailable : Nat) : Option TokenWorld :=
  let p' := p.insertAll segment.kept
  if segment.kept.all (fun entry => (p.replacement entry.1).isNone) &&
      segment.awaited.all (fun entry => (p.replacement entry.1).isSome) &&
      (p.since != w.writes ||
        Yields w.table (p'.visited ++ segment.awaited.toList) segment.awaited.isNone) then
    match segment.awaited with
    | some entry => some { w with waiting := w.waiting ++ [(p', entry)] }
    | none => some (w.finish p' gasAvailable)
  else none

def step : TokenAction → Option TokenWorld
  | .mapVaraToEthAddress v e s => (w.table.insert v e s).map fun t =>
      w.write t (.mapVaraToEthAddress v e s)
  | .removeVaraToEthAddress v => (w.table.remove v).map fun t =>
      w.write t (.removeVaraToEthAddress v)
  | .updateVfts vftMap gasRequired segment gasAvailable =>
      w.goOn (.start vftMap gasRequired w.writes) segment gasAvailable
  | .balanceOf i reply segment gasAvailable =>
      match w.waiting[i]? with
      | none => none
      | some (p, entry) =>
          let w' := { w with waiting := w.waiting.eraseIdx i }
          match p.reply entry reply with
          | none => some w'
          | some p' => w'.goOn p' segment gasAvailable

/-- An execution of `update_vfts` comes to its end only if nothing has been written since it
started. -/
def undisturbed : TokenAction → Bool
  | .balanceOf i reply segment _ =>
      match w.waiting[i]? with
      | none => true
      | some (p, _) => reply == .failed || segment.awaited.isSome || p.since == w.writes
  | _ => true

end TokenWorld

def Undisturbed (w : TokenWorld) (a : TokenAction) : Prop := w.undisturbed a = true

instance : ∀ (w : TokenWorld) (a : TokenAction), Decidable (Undisturbed w a) := fun w a =>
  inferInstanceAs (Decidable (w.undisturbed a = true))

/-- Calls one after another. -/
def TokenTable.runAll (t : TokenTable) : List TokenCall → Option TokenTable
  | [] => some t
  | c :: rest => (t.step c).bind fun t' => t'.runAll rest

/-! ## one execution is one call -/

theorem TokenTable.runAll_append (t : TokenTable) (before after : List TokenCall) :
    t.runAll (before ++ after) = (t.runAll before).bind fun t' => t'.runAll after := by
  induction before generalizing t with
  | nil => rfl
  | cons c before ih =>
      rw [List.cons_append, runAll, runAll, Option.bind_assoc]
      simp only [ih]

theorem TokenTable.runAll_snoc {t t' t'' : TokenTable} {calls : List TokenCall} {c : TokenCall}
    (h : t.runAll calls = some t') (hstep : t'.step c = some t'') :
    t.runAll (calls ++ [c]) = some t'' := by
  rw [runAll_append, h, Option.bind_some, runAll, hstep]
  rfl

theorem UpdateVfts.rebuild_append {u : UpdateVfts} {before after : List VftEntry} {t : TokenTable} :
    u.rebuild (before ++ after) t = (u.rebuild before t).bind (u.rebuild after) := by
  induction before generalizing t with
  | nil => rfl
  | cons entry before ih =>
      obtain ⟨vft, erc20, supply⟩ := entry
      rw [List.cons_append, rebuild, rebuild]
      cases u.vftNew vft with
      | none => rfl
      | some new => exact ih

namespace VftUpdate

/-- What has been built is what the call builds from the entries visited, whatever balances
it is told of the others. -/
structure Consistent (p : VftUpdate) : Prop where
  rebuilds : ∀ u : UpdateVfts, u.vftMap = p.vftMap → (∀ r ∈ p.replies, u.balanceOf r.1 = r.2) →
    u.rebuild p.visited .empty = some p.built
  asked : (p.replies.map Prod.fst).Sublist (p.visited.map Sigma.fst)

variable {p p' : VftUpdate}

theorem Consistent.start (vftMap : List (ActorId × ActorId)) (gasRequired since : Nat) :
    (start vftMap gasRequired since).Consistent :=
  ⟨fun _ _ _ => rfl, .slnil⟩

theorem vftNew_of_replacement {u : UpdateVfts} (hu : u.vftMap = p.vftMap) {vft : ActorId} :
    u.vftNew vft = match p.replacement vft with
      | none => some vft
      | some new => match u.balanceOf vft with
        | .ok => some vft
        | .inactiveActor => some new
        | .failed => none := by
  unfold UpdateVfts.vftNew replacement
  rw [hu]
  cases p.vftMap.find? fun q => q.1 == vft <;> rfl

theorem Consistent.insert (hp : p.Consistent) {entry : VftEntry} {vftNew : ActorId}
    (hnew : ∀ u : UpdateVfts, u.vftMap = p.vftMap → (∀ r ∈ p.replies, u.balanceOf r.1 = r.2) →
      u.vftNew entry.1 = some vftNew) : (p.insert entry vftNew).Consistent := by
  constructor
  · intro u hu hreplies
    show u.rebuild (p.visited ++ [entry]) .empty = _
    rw [UpdateVfts.rebuild_append, hp.rebuilds u hu hreplies, Option.bind_some]
    obtain ⟨vft, erc20, supply⟩ := entry
    rw [UpdateVfts.rebuild, hnew u hu hreplies]
    rfl
  · show (p.replies.map Prod.fst).Sublist ((p.visited ++ [entry]).map Sigma.fst)
    rw [List.map_append]
    exact hp.asked.trans (List.sublist_append_left _ _)

theorem Consistent.insertAll (hp : p.Consistent) {kept : List VftEntry}
    (hkept : ∀ entry ∈ kept, p.replacement entry.1 = none) : (p.insertAll kept).Consistent := by
  induction kept generalizing p with
  | nil => exact hp
  | cons entry kept ih =>
      refine ih (hp.insert ?_) fun x hx => hkept x (List.mem_cons_of_mem _ hx)
      intro u hu _
      rw [vftNew_of_replacement hu, hkept entry List.mem_cons_self]

/-- **One reply** keeps what is built consistent. -/
theorem Consistent.reply (hp : p.Consistent) {entry : VftEntry} {r : BalanceReply}
    (hentry : (p.replacement entry.1).isSome) (h : p.reply entry r = some p') :
    p'.Consistent := by
  obtain ⟨new, hnew⟩ := Option.isSome_iff_exists.mp hentry
  have hheard : ∀ reply vftNew, (∀ u : UpdateVfts, u.vftMap = p.vftMap →
      u.balanceOf entry.1 = reply → u.vftNew entry.1 = some vftNew) →
      ((p.hear entry.1 reply).insert entry vftNew).Consistent := by
    intro reply vftNew hvft
    constructor
    · intro u hu hreplies
      have hold := fun r hr => hreplies r (List.mem_append_left _ hr)
      have hhere := hreplies (entry.1, reply) (List.mem_append_right _ (List.mem_singleton_self _))
      show u.rebuild (p.visited ++ [entry]) .empty = _
      rw [UpdateVfts.rebuild_append, hp.rebuilds u hu hold, Option.bind_some]
      have hv := hvft u hu hhere
      obtain ⟨vft, erc20, supply⟩ := entry
      rw [UpdateVfts.rebuild, hv]
      rfl
    · show ((p.replies ++ [(entry.1, reply)]).map Prod.fst).Sublist
        ((p.visited ++ [entry]).map Sigma.fst)
      rw [List.map_append, List.map_append]
      exact hp.asked.append (List.Sublist.refl _)
  cases r with
  | ok =>
      cases h
      refine hheard .ok entry.1 ?_
      intro u hu hbalance
      rw [vftNew_of_replacement hu, hnew, hbalance]
  | inactiveActor =>
      simp only [VftUpdate.reply, hnew, Option.map_some, Option.some.injEq] at h
      subst h
      refine hheard .inactiveActor new ?_
      intro u hu hbalance
      rw [vftNew_of_replacement hu, hnew, hbalance]
  | failed => contradiction

theorem insertAll_keeps {α : Type} (f : VftUpdate → α) (hf : ∀ p entry vftNew, f (p.insert entry vftNew) = f p)
    (p : VftUpdate) (kept : List VftEntry) : f (p.insertAll kept) = f p := by
  induction kept generalizing p with
  | nil => rfl
  | cons entry kept ih => exact (ih (p.insert entry entry.1)).trans (hf p entry entry.1)

theorem replacement_insertAll (p : VftUpdate) (kept : List VftEntry) (vft : ActorId) :
    (p.insertAll kept).replacement vft = p.replacement vft :=
  insertAll_keeps (fun p => p.replacement vft) (fun _ _ _ => rfl) p kept

theorem reply_since {entry : VftEntry} {r : BalanceReply} (h : p.reply entry r = some p') :
    p'.since = p.since ∧ ∀ vft, p'.replacement vft = p.replacement vft := by
  cases r with
  | ok =>
      cases h
      exact ⟨rfl, fun _ => rfl⟩
  | inactiveActor =>
      obtain ⟨new, _, rfl⟩ := Option.map_eq_some_iff.mp h
      exact ⟨rfl, fun _ => rfl⟩
  | failed => contradiction

/-- **A finished execution is one call** on the table it ends in. -/
theorem Consistent.step_call (hp : p.Consistent) {t : TokenTable}
    (hperm : p.visited.Perm t.varaToEth.entries) (gasAvailable : Nat) :
    t.step (p.call gasAvailable) =
      if p.built.ethToVara.toFinmap = t.ethToVara.toFinmap then some t
      else if gasAvailable < p.gasRequired then none else some p.built := by
  have hnodup : (p.replies.map Prod.fst).Nodup := by
    refine List.Nodup.sublist hp.asked ?_
    exact (hperm.map Sigma.fst).nodup_iff.mpr t.varaToEth.keys_nodup
  -- every token has been asked once, so the replies are a function
  have hreplies : ∀ r ∈ p.replies,
      ((p.replies.find? fun x => x.1 == r.1).map Prod.snd).getD .ok = r.2 := by
    intro r hr
    cases hfind : p.replies.find? fun x => x.1 == r.1 with
    | none =>
        have hne := List.find?_eq_none.mp hfind r hr
        exact absurd (beq_self_eq_true r.1) hne
    | some x =>
        have hkey : x.1 = r.1 := by simpa using List.find?_some hfind
        rw [List.inj_on_of_nodup_map hnodup (List.mem_of_find?_eq_some hfind) hr hkey]
        rfl
  have hbuilt := hp.rebuilds
    { vftMap := p.vftMap
      balanceOf := fun vft => ((p.replies.find? fun r => r.1 == vft).map Prod.snd).getD .ok
      gasAvailable
      gasRequired := p.gasRequired } rfl hreplies
  simp only [TokenTable.step, call, UpdateVfts.run, if_pos hperm, hbuilt]

end VftUpdate

/-! ## runs -/

/-- The completed calls, made one after another, lead to the table. -/
structure Sequential (w : TokenWorld) : Prop where
  completed : TokenTable.empty.runAll w.completed = some w.table
  waiting : ∀ x ∈ w.waiting, x.1.Consistent ∧ (x.1.replacement x.2.1).isSome

namespace Sequential

variable {w w' : TokenWorld} {p : VftUpdate}

theorem write (hw : Sequential w) {t : TokenTable} {c : TokenCall} (h : w.table.step c = some t) :
    Sequential (w.write t c) :=
  ⟨TokenTable.runAll_snoc hw.completed h, hw.waiting⟩

theorem finish (hw : Sequential w) (hp : p.Consistent)
    (hperm : p.visited.Perm w.table.varaToEth.entries) (gasAvailable : Nat) :
    Sequential (w.finish p gasAvailable) := by
  have hcall := hp.step_call hperm gasAvailable
  unfold TokenWorld.finish
  split
  · next heq =>
    rw [if_pos heq] at hcall
    exact ⟨TokenTable.runAll_snoc hw.completed hcall, hw.waiting⟩
  · next hne =>
    rw [if_neg hne] at hcall
    split
    · exact hw
    · next hgas =>
      rw [if_neg hgas] at hcall
      exact hw.write hcall

theorem goOn (hw : Sequential w) (hp : p.Consistent) {segment : Segment} {gasAvailable : Nat}
    (hsince : segment.awaited = none → p.since = w.writes)
    (h : w.goOn p segment gasAvailable = some w') : Sequential w' := by
  simp only [TokenWorld.goOn] at h
  split at h
  · next hok =>
    simp only [Bool.and_eq_true, List.all_eq_true, Option.isNone_iff_eq_none] at hok
    obtain ⟨⟨hkept, hawaited⟩, hyields⟩ := hok
    have hp' := hp.insertAll hkept
    cases hsegment : segment.awaited with
    | some entry =>
        rw [hsegment] at h hawaited
        cases h
        refine ⟨hw.completed, ?_⟩
        intro x hx
        rcases List.mem_append.mp hx with hx | hx
        · exact hw.waiting x hx
        · rw [List.mem_singleton.mp hx, VftUpdate.replacement_insertAll]
          exact ⟨hp', hawaited⟩
    | none =>
        rw [hsegment] at h hyields
        cases h
        have hperm : (p.insertAll segment.kept).visited.Perm w.table.varaToEth.entries := by
          simpa [hsince hsegment, Yields] using hyields
        exact hw.finish hp' hperm gasAvailable
  · contradiction

/-- **One step**: whatever executions wait, a call that completes undisturbed is one more call
in the sequence. -/
theorem step (hw : Sequential w) {a : TokenAction} (hok : Undisturbed w a)
    (h : w.step a = some w') : Sequential w' := by
  cases a with
  | mapVaraToEthAddress v e s =>
      obtain ⟨t, ht, rfl⟩ := Option.map_eq_some_iff.mp h
      exact hw.write ht
  | removeVaraToEthAddress v =>
      obtain ⟨t, ht, rfl⟩ := Option.map_eq_some_iff.mp h
      exact hw.write ht
  | updateVfts vftMap gasRequired segment gasAvailable =>
      exact hw.goOn (.start vftMap gasRequired w.writes) (fun _ => rfl) h
  | balanceOf i r segment gasAvailable =>
      simp only [TokenWorld.step] at h
      cases hi : w.waiting[i]? with
      | none => simp only [hi] at h; contradiction
      | some x =>
          obtain ⟨p, entry⟩ := x
          simp only [hi] at h
          obtain ⟨hp, hentry⟩ := hw.waiting _ (List.mem_of_getElem? hi)
          have hrest : Sequential { w with waiting := w.waiting.eraseIdx i } :=
            ⟨hw.completed, fun x hx => hw.waiting x (List.mem_of_mem_eraseIdx hx)⟩
          cases hreply : p.reply entry r with
          | none =>
              simp only [hreply, Option.some.injEq] at h
              subst h
              exact hrest
          | some p' =>
              simp only [hreply] at h
              refine hrest.goOn (hp.reply hentry hreply) ?_ h
              intro hend
              rw [(VftUpdate.reply_since hreply).1]
              have hne : r ≠ .failed := by
                intro hr
                subst hr
                contradiction
              simpa [Undisturbed, TokenWorld.undisturbed, hi, hend, hne] using hok

end Sequential

theorem sequential_of_reachable {w : TokenWorld}
    (h : Reachable TokenWorld.step Undisturbed TokenWorld.Fresh w) : Sequential w := by
  refine Reachable.invariant ?_ (fun w a w' hw hok hstep => Sequential.step hw hok hstep) h
  intro w hw
  rw [show w = _ from hw]
  exact ⟨rfl, fun x hx => by contradiction⟩

/-! ## pairs -/

/-- Address of a mapped token after a call; `none` once it is removed. -/
def TokenCall.follow : TokenCall → ActorId → Option ActorId
  | .mapVaraToEthAddress .., v => some v
  | .removeVaraToEthAddress v', v => if v' = v then none else some v
  | .updateVfts u _, v => u.vftNew v

def followAll : List TokenCall → ActorId → Option ActorId
  | [], v => some v
  | c :: rest, v => (c.follow v).bind (followAll rest)

/-- Every call of `update_vfts` separates the tokens it finds. -/
def SeparatingAll : TokenTable → List TokenCall → Prop
  | _, [] => True
  | t, c :: rest => Separating t c ∧ ∀ t', t.step c = some t' → SeparatingAll t' rest

namespace TokenTable

variable {t t' : TokenTable} {c : TokenCall} {calls : List TokenCall} {v v' : ActorId} {e : H160}
  {s : TokenSupply}

theorem Inverse.step (ht : t.Inverse) (hok : Separating t c) (h : t.step c = some t') :
    t'.Inverse := by
  cases c with
  | mapVaraToEthAddress v e s => exact ht.insert h
  | removeVaraToEthAddress v => exact ht.remove h
  | updateVfts u order => exact (UpdateVfts.inverse_run_iff ht h).mpr hok

/-- A mapped token stays mapped, at the address that the call gives it. -/
theorem Inverse.lookup_step (ht : t.Inverse) (hok : Separating t c) (h : t.step c = some t')
    (hv : t.varaToEth.lookup v = some (e, s)) (hfollow : c.follow v = some v') :
    t'.varaToEth.lookup v' = some (e, s) := by
  cases c with
  | mapVaraToEthAddress v₂ e₂ s₂ =>
      cases hfollow
      simp only [TokenTable.step, TokenTable.insert] at h
      split at h
      · contradiction
      next hfree =>
        split at h
        · contradiction
        cases h
        have hne : v ≠ v₂ := by
          intro heq
          rw [← heq, hv] at hfree
          exact hfree rfl
        rw [AList.lookup_insert_ne hne]
        exact hv
  | removeVaraToEthAddress v₂ =>
      simp only [TokenCall.follow] at hfollow
      split at hfollow
      · contradiction
      next hne =>
        cases hfollow
        simp only [TokenTable.step, TokenTable.remove] at h
        split at h
        · contradiction
        split at h
        · contradiction
        cases h
        rw [AList.lookup_erase_ne (Ne.symm hne)]
        exact hv
  | updateVfts u order =>
      exact (UpdateVfts.lookup_run_varaToEth ht hok h).mpr ⟨v, hv, hfollow⟩

/-- An `ERC20` that is not mapped stays so until it is mapped. -/
theorem Inverse.unmapped_step (ht : t.Inverse) (h : t.step c = some t')
    (he : t.ethToVara.lookup e = none) (hc : ∀ v s, c ≠ .mapVaraToEthAddress v e s) :
    t'.ethToVara.lookup e = none := by
  cases c with
  | mapVaraToEthAddress v₂ e₂ s₂ =>
      simp only [TokenTable.step, TokenTable.insert] at h
      split at h
      · contradiction
      split at h
      · contradiction
      cases h
      have hne : e ≠ e₂ := by
        intro heq
        exact hc v₂ s₂ (by rw [heq])
      rw [AList.lookup_insert_ne hne]
      exact he
  | removeVaraToEthAddress v₂ =>
      simp only [TokenTable.step, TokenTable.remove] at h
      split at h
      · contradiction
      next e₂ s₂ _ =>
        split at h
        · contradiction
        cases h
        by_cases heq : e = e₂
        · rw [heq, AList.lookup_erase]
        · rw [AList.lookup_erase_ne heq]
          exact he
  | updateVfts u order =>
      rw [Option.eq_none_iff_forall_ne_some]
      intro new hnew
      obtain ⟨v, s, hv, _⟩ := (UpdateVfts.lookup_run_ethToVara ht h).mp hnew
      rw [(ht v e).mp ⟨s, hv⟩] at he
      contradiction

theorem Inverse.runAll (ht : t.Inverse) (hok : SeparatingAll t calls)
    (h : t.runAll calls = some t') : t'.Inverse := by
  induction calls generalizing t with
  | nil =>
      cases h
      exact ht
  | cons c calls ih =>
      obtain ⟨t₁, hstep, hrest⟩ := Option.bind_eq_some_iff.mp h
      exact ih (ht.step hok.1 hstep) (hok.2 t₁ hstep) hrest

theorem Inverse.lookup_runAll (ht : t.Inverse) (hok : SeparatingAll t calls)
    (h : t.runAll calls = some t') (hv : t.varaToEth.lookup v = some (e, s))
    (hfollow : followAll calls v = some v') : t'.varaToEth.lookup v' = some (e, s) := by
  induction calls generalizing t v with
  | nil =>
      cases h
      cases hfollow
      exact hv
  | cons c calls ih =>
      obtain ⟨t₁, hstep, hrest⟩ := Option.bind_eq_some_iff.mp h
      obtain ⟨v₁, hv₁, hfollow⟩ := Option.bind_eq_some_iff.mp hfollow
      exact ih (ht.step hok.1 hstep) (hok.2 t₁ hstep) hrest (ht.lookup_step hok.1 hstep hv hv₁)
        hfollow

theorem Inverse.unmapped_runAll (ht : t.Inverse) (hok : SeparatingAll t calls)
    (h : t.runAll calls = some t') (he : t.ethToVara.lookup e = none)
    (hcalls : ∀ v s, .mapVaraToEthAddress v e s ∉ calls) : t'.ethToVara.lookup e = none := by
  induction calls generalizing t with
  | nil =>
      cases h
      exact he
  | cons c calls ih =>
      obtain ⟨t₁, hstep, hrest⟩ := Option.bind_eq_some_iff.mp h
      refine ih (ht.step hok.1 hstep) (hok.2 t₁ hstep) hrest (ht.unmapped_step hstep he ?_) ?_
      · intro v s hc
        exact hcalls v s (by rw [hc]; exact List.mem_cons_self)
      · exact fun v s hmem => hcalls v s (List.mem_cons_of_mem c hmem)

/-- Calls up to one of them, that call, and the calls after it. -/
theorem runAll_split {before after : List TokenCall} (hok : SeparatingAll t (before ++ c :: after))
    (ht : t.Inverse) (h : t.runAll (before ++ c :: after) = some t') :
    ∃ t₁ t₂, t.runAll before = some t₁ ∧ t₁.Inverse ∧ t₁.step c = some t₂ ∧ t₂.Inverse ∧
      SeparatingAll t₂ after ∧ t₂.runAll after = some t' := by
  induction before generalizing t with
  | nil =>
      obtain ⟨t₂, hstep, hrest⟩ := Option.bind_eq_some_iff.mp h
      exact ⟨t, t₂, rfl, ht, hstep, ht.step hok.1 hstep, hok.2 t₂ hstep, hrest⟩
  | cons c' before ih =>
      obtain ⟨t₀, hstep, hrest⟩ := Option.bind_eq_some_iff.mp h
      obtain ⟨t₁, t₂, hbefore, hafter⟩ := ih (hok.2 t₀ hstep) (ht.step hok.1 hstep) hrest
      refine ⟨t₁, t₂, ?_, hafter⟩
      rw [runAll, hstep]
      exact hbefore

end TokenTable

/-- **Undisturbed updates lose nothing.**  However calls and executions of `update_vfts`
interleave, if nothing is written between the start and the end of an execution, the table is
that of the completed calls one after another.  If moreover no call puts two tokens under one
address, every mapped pair that is not removed is there, under the address its token has got,
and no removed pair is, unless it is mapped again. -/
theorem tokenMap_sequential (w : TokenWorld)
    (h : Reachable TokenWorld.step Undisturbed TokenWorld.Fresh w) :
    TokenTable.empty.runAll w.completed = some w.table ∧
    (SeparatingAll .empty w.completed → ∀ before after,
      (∀ v e s v', w.completed = before ++ .mapVaraToEthAddress v e s :: after →
        followAll after v = some v' →
        w.table.varaToEth.lookup v' = some (e, s) ∧ w.table.ethToVara.lookup e = some v') ∧
      (∀ v t e s, w.completed = before ++ .removeVaraToEthAddress v :: after →
        TokenTable.empty.runAll before = some t → t.varaToEth.lookup v = some (e, s) →
        (∀ v' s', .mapVaraToEthAddress v' e s' ∉ after) →
        w.table.ethToVara.lookup e = none ∧ ∀ v' s', w.table.varaToEth.lookup v' ≠ some (e, s'))) := by
  have hrun := (sequential_of_reachable h).completed
  refine ⟨hrun, ?_⟩
  intro hok before after
  have hinverse := TokenTable.inverse_empty.runAll hok hrun
  constructor
  · intro v e s v' hcompleted hfollow
    rw [hcompleted] at hrun hok
    obtain ⟨t₁, t₂, _, ht₁, hstep, ht₂, hok₂, hafter⟩ :=
      TokenTable.runAll_split hok TokenTable.inverse_empty hrun
    have hmapped : t₂.varaToEth.lookup v = some (e, s) := by
      simp only [TokenTable.step, TokenTable.insert] at hstep
      split at hstep
      · contradiction
      split at hstep
      · contradiction
      cases hstep
      rw [AList.lookup_insert]
    have hlookup := ht₂.lookup_runAll hok₂ hafter hmapped hfollow
    exact ⟨hlookup, (hinverse v' e).mp ⟨s, hlookup⟩⟩
  · intro v t e s hcompleted hbefore hv hafter
    rw [hcompleted] at hrun hok
    obtain ⟨t₁, t₂, hbefore', ht₁, hstep, ht₂, hok₂, hrest⟩ :=
      TokenTable.runAll_split hok TokenTable.inverse_empty hrun
    rw [hbefore] at hbefore'
    cases hbefore'
    have hremoved : t₂.ethToVara.lookup e = none := by
      simp only [TokenTable.step, TokenTable.remove, hv] at hstep
      split at hstep
      · contradiction
      cases hstep
      rw [AList.lookup_erase]
    have hnone := ht₂.unmapped_runAll hok₂ hrest hremoved hafter
    refine ⟨hnone, ?_⟩
    intro v' s' hlookup
    rw [(hinverse v' e).mp ⟨s', hlookup⟩] at hnone
    contradiction

/-- Token `100` waits for its balance; `calls` complete before the reply. -/
def interleavedRun (calls : List TokenAction) (reply : BalanceReply) : List TokenAction :=
  [.mapVaraToEthAddress 100 200 .ethereum,
    .updateVfts [(100, 102)] 5 ⟨[], some ⟨100, 200, .ethereum⟩⟩ 10] ++ calls ++
  [.balanceOf 0 reply ⟨[], none⟩ 10]

/-- Token `100` is replaced, and nothing else is done. -/
theorem tokenMap_sequential_replaced : ∃ w,
    Reachable TokenWorld.step Undisturbed TokenWorld.Fresh w ∧
    w.table.ethToVara.lookup 200 = some 102 ∧
    TokenTable.empty.runAll w.completed = some w.table := by
  obtain ⟨w, hw, hlookup⟩ := exists_reachable_of_exec TokenWorld.step Undisturbed
    (show TokenWorld.Fresh ⟨.empty, 0, [], []⟩ from rfl) (interleavedRun [] .inactiveActor)
    (fun w => decide (w.table.ethToVara.lookup 200 = some 102)) (by decide +kernel)
  exact ⟨w, hw, of_decide_eq_true hlookup, (tokenMap_sequential w hw).1⟩

/-- The pair mapped before the token is replaced is in no mapping. -/
def TokenWorld.pairLost (w : TokenWorld) : Bool :=
  match w.completed with
  | [.mapVaraToEthAddress 100 200 .ethereum, .mapVaraToEthAddress 101 201 .gear,
      .updateVfts _ _] =>
        w.table.varaToEth.lookup 101 = none ∧ w.table.ethToVara.lookup 201 = none
  | _ => false

/-- The pair removed before the token is to be replaced is mapped. -/
def TokenWorld.pairBack (w : TokenWorld) : Bool :=
  match w.completed with
  | [.mapVaraToEthAddress 100 200 .ethereum, .removeVaraToEthAddress 100, .updateVfts _ _] =>
        w.table.varaToEth.lookup 100 = some (200, .ethereum) ∧
          w.table.ethToVara.lookup 200 = some 100
  | _ => false

/-- While token `100` waits for its balance, a pair mapped is lost, and a pair removed is
back. -/
theorem lost_update :
    (∃ w, Reachable TokenWorld.step free TokenWorld.Fresh w ∧
      (∃ u order, w.completed = [.mapVaraToEthAddress 100 200 .ethereum,
        .mapVaraToEthAddress 101 201 .gear, .updateVfts u order]) ∧
      w.table.varaToEth.lookup 101 = none ∧ w.table.ethToVara.lookup 201 = none) ∧
    ∃ w, Reachable TokenWorld.step free TokenWorld.Fresh w ∧
      (∃ u order, w.completed = [.mapVaraToEthAddress 100 200 .ethereum,
        .removeVaraToEthAddress 100, .updateVfts u order]) ∧
      w.table.varaToEth.lookup 100 = some (200, .ethereum) ∧
      w.table.ethToVara.lookup 200 = some 100 := by
  constructor
  · obtain ⟨w, hw, hlost⟩ := exists_reachable_of_exec TokenWorld.step free
      (show TokenWorld.Fresh ⟨.empty, 0, [], []⟩ from rfl)
      (interleavedRun [.mapVaraToEthAddress 101 201 .gear] .inactiveActor)
      TokenWorld.pairLost (by decide +kernel)
    unfold TokenWorld.pairLost at hlost
    split at hlost
    · next hcompleted => exact ⟨w, hw, ⟨_, _, hcompleted⟩, of_decide_eq_true hlost⟩
    · contradiction
  · obtain ⟨w, hw, hback⟩ := exists_reachable_of_exec TokenWorld.step free
      (show TokenWorld.Fresh ⟨.empty, 0, [], []⟩ from rfl)
      (interleavedRun [.removeVaraToEthAddress 100] .ok)
      TokenWorld.pairBack (by decide +kernel)
    unfold TokenWorld.pairBack at hback
    split at hback
    · next hcompleted => exact ⟨w, hw, ⟨_, _, hcompleted⟩, of_decide_eq_true hback⟩
    · contradiction

end GearBridges.VftManager
