import TokenLedger.Proofs.Footprint
import TokenLedger.Proofs.Reached

/-!
# Independent transactions commute

Two transactions are independent when no record and no account of one is
touched by the other. Neither then sees what the other does, whether that is
accepted or rejected, so in both orders each gets the same answer. The
vaults at the end differ in nothing but the order of the records.
-/

set_option autoImplicit false

namespace TokenLedger

namespace Transaction

/-- No record is consumed or issued by both, and no account moved by both. -/
structure Independent (t₁ t₂ : Transaction) : Prop where
  inputs : ∀ c ∈ t₁.inputNames, c ∉ t₂.inputNames ∧ c ∉ t₂.outputNames
  outputs : ∀ c ∈ t₁.outputNames, c ∉ t₂.inputNames ∧ c ∉ t₂.outputNames
  accounts : ∀ a ∈ t₁.accounts, a ∉ t₂.accounts

theorem Independent.symm {t₁ t₂ : Transaction} (h : t₁.Independent t₂) : t₂.Independent t₁ where
  inputs c hc := ⟨fun hc' => (h.inputs c hc').1 hc, fun hc' => (h.outputs c hc').1 hc⟩
  outputs c hc := ⟨fun hc' => (h.inputs c hc').2 hc, fun hc' => (h.outputs c hc').2 hc⟩
  accounts a ha ha' := h.accounts a ha' ha

def serialStrings (tx : Transaction) : List Bytes := tx.inputNames.map Commitment.serialPreimage

theorem serialPreimage_mem {tx : Transaction} {t : Token} (ht : t ∈ tx.consumed) :
    t.commitment.serialPreimage ∈ tx.serialStrings :=
  List.mem_map_of_mem (List.mem_map_of_mem ht)

theorem commitment_ne_of_mem_stored {tx : Transaction} {c : Commitment} (hc : c ∉ tx.outputNames)
    {r : StoredRecord} (hr : r ∈ tx.outputs.map Token.stored) : r.commitment ≠ c := by
  obtain ⟨t, ht, rfl⟩ := List.mem_map.1 hr
  rintro rfl
  exact hc (List.mem_map_of_mem ht)

end Transaction

namespace Vault

variable {v v' v₁ v₂ v₁₂ v₂₁ : Vault} {tx t₁ t₂ : Transaction}

namespace Outcome

theorem hasRecord_eq (h : v.Outcome tx v') {c : Commitment} (hc : c ∉ tx.outputNames) :
    v.hasRecord c = v'.hasRecord c := by
  have hnone : (tx.outputs.map Token.stored).any (fun r => r.commitment = c) = false := by
    rw [List.any_eq_false]
    intro r hr hname
    exact Transaction.commitment_ne_of_mem_stored hc hr (of_decide_eq_true hname)
  rw [hasRecord, hasRecord, h.records, List.any_append, hnone, Bool.or_false]

theorem agrees (h : v.Outcome t₁ v') (hi : t₁.Independent t₂)
    (hf : CollisionFree (t₁.serialStrings ++ t₂.serialStrings)) : v.Agrees v' t₂ where
  inputs c hc := h.hasRecord_eq fun hc' => (hi.outputs c hc').1 hc
  serials t ht := by
    have hnew : t.serial ∉ t₁.consumed.map Token.serial := by
      intro hmem
      obtain ⟨u, hu, heq⟩ := List.mem_map.1 hmem
      have hname : u.commitment = t.commitment := hf.commitment_eq
        (List.mem_append_left _ (Transaction.serialPreimage_mem hu))
        (List.mem_append_right _ (Transaction.serialPreimage_mem ht)) heq
      exact (hi.inputs _ (List.mem_map_of_mem hu)).1 (hname ▸ List.mem_map_of_mem ht)
    rw [Bool.eq_iff_iff, h.spent, or_iff_left hnew]
  accounts a ha := (h.untouched a fun ha' => hi.accounts a ha' ha).symm
  outputs c hc := h.hasRecord_eq fun hc' => (hi.outputs c hc').2 hc

theorem balance_comm (h₁ : v.Outcome t₁ v₁) (h₁₂ : v₁.Outcome t₂ v₁₂) (h₂ : v.Outcome t₂ v₂)
    (h₂₁ : v₂.Outcome t₁ v₂₁) {a : Address} (ha : a ∉ t₂.accounts) :
    v₁₂.balance? a = v₂₁.balance? a := by
  rw [h₁₂.untouched a ha, h₁.balance, h₂₁.balance]
  exact Move.effects_congr (h₂.untouched a ha).symm

theorem record?_comm (h₁ : v.Outcome t₁ v₁) (h₁₂ : v₁.Outcome t₂ v₁₂) (h₂ : v.Outcome t₂ v₂)
    (h₂₁ : v₂.Outcome t₁ v₂₁) (hi : t₁.Independent t₂) (c : Commitment) :
    v₁₂.record? c = v₂₁.record? c := by
  have hnone {tx : Transaction} (hc : c ∉ tx.outputNames) :
      (tx.outputs.map Token.stored).reverse.find? (fun r => r.commitment = c) = none := by
    rw [List.find?_eq_none]
    intro r hr hname
    exact Transaction.commitment_ne_of_mem_stored hc (List.mem_reverse.1 hr)
      (of_decide_eq_true hname)
  simp only [record?, h₁₂.records, h₁.records, h₂₁.records, h₂.records, List.reverse_append,
    List.find?_append]
  by_cases hc : c ∈ t₁.outputNames
  · rw [hnone (hi.outputs c hc).2, Option.none_or, Option.none_or]
  · rw [hnone hc, Option.none_or, Option.none_or]

theorem alike (h₁ : v.Outcome t₁ v₁) (h₁₂ : v₁.Outcome t₂ v₁₂) (h₂ : v.Outcome t₂ v₂)
    (h₂₁ : v₂.Outcome t₁ v₂₁) (hi : t₁.Independent t₂) : v₁₂.Alike v₂₁ where
  balances := by
    refine Balances.ext_of_ordered h₁₂.ordered.balances h₂₁.ordered.balances fun a => ?_
    by_cases ha : a ∈ t₁.accounts
    · exact balance_comm h₁ h₁₂ h₂ h₂₁ (hi.accounts a ha)
    · exact (balance_comm h₂ h₂₁ h₁ h₁₂ ha).symm
  records := by
    rw [h₁₂.records, h₁.records, h₂₁.records, h₂.records, List.append_assoc, List.append_assoc]
    exact List.perm_append_comm.append_left _
  stored := record?_comm h₁ h₁₂ h₂ h₂₁ hi
  spent := by
    refine serials_ext h₁₂.ordered.spent h₂₁.ordered.spent fun n => ?_
    rw [mem_spent_iff, mem_spent_iff, h₁₂.spent, h₁.spent, h₂₁.spent, h₂.spent]
    exact or_right_comm
  height := by
    rw [h₁₂.height, h₁.height, h₂₁.height, h₂.height]

end Outcome

end Vault

namespace Ledger

/-- The same answer, but for the height at which a receipt was given. -/
inductive SameAnswer : Except LedgerError Receipt → Except LedgerError Receipt → Prop where
  | accepted (r : Receipt) (height : UInt64) : SameAnswer (.ok r) (.ok { r with height := height })
  | rejected (e : LedgerError) : SameAnswer (.error e) (.error e)

/-- Nothing that can be asked tells the ledgers apart, but for the order of records. -/
structure SameState (l l' : Ledger) : Prop where
  balances : l.store.balances = l'.store.balances
  record : ∀ c, l.store.record c = l'.store.record c
  allRecords : ∃ rs rs', l.store.allRecords = .ok rs ∧ l'.store.allRecords = .ok rs' ∧ rs.Perm rs'
  allSpent : l.store.allSpent = l'.store.allSpent
  height : l.height = l'.height
  totalSupply : ∃ n, l.totalSupply = .ok n ∧ l'.totalSupply = .ok n
  recordsOf : ∀ a, ∃ ts ts', l.recordsOf a = .ok ts ∧ l'.recordsOf a = .ok ts' ∧ ts.Perm ts'

structure Commutes (l : Ledger) (t₁ t₂ : Transaction) : Prop where
  first : SameAnswer (l.apply t₁).1 ((l.apply t₂).2.apply t₁).1
  second : SameAnswer (l.apply t₂).1 ((l.apply t₁).2.apply t₂).1
  state : SameState ((l.apply t₁).2.apply t₂).2 ((l.apply t₂).2.apply t₁).2

variable {v w : Vault} {t₁ t₂ : Transaction}

theorem sameState_alike (h : v.Alike w) (hv : v.Genuine) (hw : w.Genuine) (seeds : SeedSource) :
    SameState (ofVault v seeds) (ofVault w seeds) where
  balances := congrArg Except.ok h.balances
  record c := by
    simp only [Store.record, ofVault, Store.ofVault, Store.answer, h.stored]
    rfl
  allRecords := by
    refine ⟨v.allRecords, w.allRecords, rfl, rfl, ?_⟩
    rw [Vault.allRecords, Vault.allRecords, funext h.stored]
    exact h.records.filterMap _
  allSpent := congrArg Except.ok h.spent
  height := congrArg Except.ok h.height
  totalSupply := totalSupply_alike h hv hw seeds
  recordsOf := recordsOf_alike h hv hw seeds

theorem sameAnswer_after (hv : v.Ordered) (seeds : SeedSource) (hi : t₁.Independent t₂)
    (hf : CollisionFree (t₁.serialStrings ++ t₂.serialStrings)) :
    SameAnswer ((ofVault v seeds).apply t₂).1
      (((ofVault v seeds).apply t₁).2.apply t₂).1 := by
  rcases v.admissible_or_violates t₁ with h₁ | ⟨e₁, h₁⟩
  · obtain ⟨v₁, hout, happly⟩ := apply_of_admissible hv h₁ seeds
    have hagrees := hout.agrees hi hf
    rw [happly]
    rcases v.admissible_or_violates t₂ with h₂ | ⟨e₂, h₂⟩
    · obtain ⟨v₂, -, happly₂⟩ := apply_of_admissible hv h₂ seeds
      obtain ⟨v₁₂, -, happly₁₂⟩ := apply_of_admissible hout.ordered (hagrees.admissible h₂) seeds
      rw [happly₂, happly₁₂]
      exact .accepted _ _
    · rw [apply_of_violates hv h₂, apply_of_violates hout.ordered (hagrees.violates h₂)]
      exact .rejected _
  · rw [apply_of_violates hv h₁]
    cases ((ofVault v seeds).apply t₂).1 with
    | ok r => exact .accepted r r.height
    | error e => exact .rejected e

theorem alike_after (hv : v.Ordered) (hg : v.Genuine) (seeds : SeedSource)
    (hi : t₁.Independent t₂) (hf : CollisionFree (t₁.serialStrings ++ t₂.serialStrings)) :
    ∃ w₁ w₂ : Vault, (((ofVault v seeds).apply t₁).2.apply t₂).2 = ofVault w₁ seeds ∧
      (((ofVault v seeds).apply t₂).2.apply t₁).2 = ofVault w₂ seeds ∧
        w₁.Alike w₂ ∧ w₁.Genuine ∧ w₂.Genuine := by
  rcases v.admissible_or_violates t₁ with h₁ | ⟨e₁, h₁⟩
  · obtain ⟨v₁, hout₁, happly₁⟩ := apply_of_admissible hv h₁ seeds
    have hagrees₁ := hout₁.agrees hi hf
    rcases v.admissible_or_violates t₂ with h₂ | ⟨e₂, h₂⟩
    · obtain ⟨v₂, hout₂, happly₂⟩ := apply_of_admissible hv h₂ seeds
      have hagrees₂ := hout₂.agrees hi.symm hf.append_comm
      obtain ⟨v₁₂, hout₁₂, happly₁₂⟩ :=
        apply_of_admissible hout₁.ordered (hagrees₁.admissible h₂) seeds
      obtain ⟨v₂₁, hout₂₁, happly₂₁⟩ :=
        apply_of_admissible hout₂.ordered (hagrees₂.admissible h₁) seeds
      exact ⟨v₁₂, v₂₁, by rw [happly₁, happly₁₂], by rw [happly₂, happly₂₁],
        hout₁.alike hout₁₂ hout₂ hout₂₁ hi, hout₁₂.genuine (hout₁.genuine hg),
        hout₂₁.genuine (hout₂.genuine hg)⟩
    -- what is rejected at first is rejected after the other as well, and changes nothing
    · have hrejected := apply_of_violates hout₁.ordered (hagrees₁.violates h₂) seeds
      refine ⟨v₁, v₁, ?_, ?_, .refl v₁, hout₁.genuine hg, hout₁.genuine hg⟩
      · rw [happly₁, hrejected]
      · rw [apply_of_violates hv h₂, happly₁]
  · rcases v.admissible_or_violates t₂ with h₂ | ⟨e₂, h₂⟩
    · obtain ⟨v₂, hout₂, happly₂⟩ := apply_of_admissible hv h₂ seeds
      have hrejected := apply_of_violates hout₂.ordered
        ((hout₂.agrees hi.symm hf.append_comm).violates h₁) seeds
      refine ⟨v₂, v₂, ?_, ?_, .refl v₂, hout₂.genuine hg, hout₂.genuine hg⟩
      · rw [apply_of_violates hv h₁, happly₂]
      · rw [happly₂, hrejected]
    · refine ⟨v, v, ?_, ?_, .refl v, hg, hg⟩
      · rw [apply_of_violates hv h₁, apply_of_violates hv h₂]
      · rw [apply_of_violates hv h₂, apply_of_violates hv h₁]

/-- From every ledger that can be reached, independent transactions lead to the same end in
either order, answered alike. -/
theorem commutes_of_reached {l : Ledger} (hl : l.Reached) (hi : t₁.Independent t₂)
    (hf : CollisionFree (t₁.serialStrings ++ t₂.serialStrings)) : l.Commutes t₁ t₂ := by
  obtain ⟨v, seeds, rfl, hv, hg⟩ := hl.vault
  obtain ⟨w₁, w₂, h₁₂, h₂₁, halike, hg₁, hg₂⟩ := alike_after hv hg seeds hi hf
  refine ⟨sameAnswer_after hv seeds hi.symm hf.append_comm, sameAnswer_after hv seeds hi hf, ?_⟩
  rw [h₁₂, h₂₁]
  exact sameState_alike halike hg₁ hg₂ seeds

def parting : List Transaction :=
  [Sample.transaction .mint [] [Sample.record 100 1],
   Sample.transaction .mint [] [Sample.record 30 2],
   Sample.transaction .transferPrivate [Sample.record 100 1]
    [Sample.record 60 3, Sample.record 40 4],
   Sample.transaction .transferPrivate [Sample.record 30 2]
    [Sample.record 10 5, Sample.record 20 6]]

theorem commutes_parting :
    (ofVault Vault.empty Sample.seeds).accepted parting = parting ∧
    ((ofVault Vault.empty Sample.seeds).run (parting.take 2)).Reached ∧
      parting[2].Independent parting[3] ∧
        CollisionFree (parting[2].serialStrings ++ parting[3].serialStrings) ∧
          ((ofVault Vault.empty Sample.seeds).run (parting.take 2)).Commutes
            parting[2] parting[3] := by
  have hl := (Reached.empty Sample.seeds).run (parting.take 2)
  have hi : parting[2].Independent parting[3] :=
    ⟨by decide +kernel, by decide +kernel, by decide +kernel⟩
  have hf : CollisionFree (parting[2].serialStrings ++ parting[3].serialStrings) :=
    collisionFree_of_nodup (List.Subset.refl _) (by decide +kernel)
  exact ⟨by decide +kernel, hl, hi, hf, commutes_of_reached hl hi hf⟩

end Ledger

end TokenLedger
