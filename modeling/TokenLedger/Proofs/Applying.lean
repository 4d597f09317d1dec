import TokenLedger.Ledger.Basic
import TokenLedger.Proofs.Checking
import TokenLedger.Proofs.Settling

/-!
# What applying a transaction does

All that a transaction writes is written by one commit. Over a store that
answers every call a transaction is either rejected, and the ledger is as
before, or accepted. `Vault.Accepts` says all that holds then: what was
tested, and what the vault became.
-/

set_option autoImplicit false

namespace TokenLedger

/-! ## Over any store -/

namespace Store

variable {α : Type} {s s' : Store}

theorem answer_eq_ok {a : Access} {x y : α} :
    s.answer a x = .ok y ↔ s.outage a = false ∧ x = y := by
  unfold answer
  cases s.outage a <;> simp

theorem commit_eq_ok {c : Changes} : s.commit c = .ok s' ↔
    s.outage .commit = false ∧ ∃ v, s.vault.commit c = .ok v ∧ s' = { s with vault := v } := by
  rw [commit, Answers.bind_eq_ok]
  constructor
  · rintro ⟨⟨⟩, hanswer, hok⟩
    obtain ⟨v, hv, hs'⟩ := Answers.bind_eq_ok.1 hok
    exact ⟨(answer_eq_ok.1 hanswer).1, v, hv, (Except.ok.inj hs').symm⟩
  · rintro ⟨hanswered, v, hv, rfl⟩
    exact ⟨(), answer_eq_ok.2 ⟨hanswered, rfl⟩, Answers.bind_eq_ok.2 ⟨v, hv, rfl⟩⟩

def Commits (s : Store) (tx : Transaction) (v : Vault) : Prop :=
  ∃ c, s.stage tx = .ok c ∧ s.commit c = .ok { s with vault := v }

end Store

namespace Ledger

def answered (l : Ledger) (tx : Transaction) (v : Vault) : Except LedgerError Receipt :=
  if l.store.outage .height then .error (.storage (.outage Access.height.name))
  else .ok ⟨tx.id, tx.function, tx.outputs, tx.value, v.height⟩

theorem apply_of_commits {l : Ledger} {tx : Transaction} {v : Vault}
    (h : l.store.Commits tx v) :
    l.apply tx = (l.answered tx v, { l with store := { l.store with vault := v } }) := by
  obtain ⟨c, hstage, hcommit⟩ := h
  simp only [apply, hstage, hcommit, Store.height, Store.answer, answered]
  cases l.store.outage .height <;> rfl

/-- Either nothing of the ledger changes, or all that the transaction writes is written. -/
theorem apply_kept_or_written (l : Ledger) (tx : Transaction) :
    (∃ e, l.apply tx = (.error e, l)) ∨ ∃ v, l.store.Commits tx v := by
  unfold apply
  cases hstage : l.store.stage tx with
  | error e => exact .inl ⟨e, rfl⟩
  | ok c =>
    cases hcommit : l.store.commit c with
    | error e => exact .inl ⟨.storage e, by simp only [hcommit]⟩
    | ok s =>
      obtain ⟨-, v, -, rfl⟩ := Store.commit_eq_ok.1 hcommit
      exact .inr ⟨v, c, hstage, hcommit⟩

end Ledger

/-! ## Over a store that answers -/

def Ledger.ofVault (v : Vault) (seeds : SeedSource) : Ledger := ⟨Store.ofVault v, seeds⟩

structure Vault.Accepts (v : Vault) (tx : Transaction) (v' : Vault) : Prop where
  sound : tx.Sound
  distinct : (tx.consumed.map Token.commitment).Nodup
  known : ∀ t ∈ tx.consumed, v.hasRecord t.commitment = true
  unspent : ∀ t ∈ tx.consumed, v.isSpent t.serial = false
  settled : v.balances.settle tx.moves = .ok v'.balances
  fresh : ∀ t ∈ tx.outputs, v.hasRecord t.commitment = false
  records : v'.records = v.records ++ tx.outputs.map Token.stored
  spent : v'.spent =
    (tx.consumed.map Token.serial).foldl (fun ss s => insertSerial s ss) v.spent
  height : v'.height = v.height + 1

namespace Store

variable {v : Vault} {c c' : Changes}

theorem stageInputs_ok {seen : List Commitment} {ts : List Token}
    (h : (ofVault v).stageInputs seen c ts = .ok c') :
    (∀ t ∈ ts, t.commitment ∉ seen ∧ v.hasRecord t.commitment = true ∧
      v.isSpent t.serial = false) ∧ (ts.map Token.commitment).Nodup ∧
      c' = { c with spent := c.spent ++ ts.map Token.serial } := by
  induction ts generalizing seen c with
  | nil =>
    cases h
    simp
  | cons t ts ih =>
    rw [stageInputs] at h
    split at h
    · cases h
    · next hseen =>
      obtain ⟨known, hknown, h⟩ := Answers.bind_eq_ok.1 h
      cases hknown
      split at h
      · next hrec =>
        obtain ⟨spent, hspent, h⟩ := Answers.bind_eq_ok.1 h
        cases hspent
        split at h
        · cases h
        · next hun =>
          obtain ⟨hall, hnodup, rfl⟩ := ih h
          constructor
          · intro u hu
            rcases List.mem_cons.1 hu with rfl | hu
            · exact ⟨hseen, hrec, eq_false_of_ne_true hun⟩
            · exact ⟨fun hmem => (hall u hu).1 (by simp [hmem]), (hall u hu).2⟩
          · constructor
            · rw [List.map_cons, List.nodup_cons]
              constructor
              · intro hmem
                obtain ⟨u, hu, heq⟩ := List.mem_map.1 hmem
                exact (hall u hu).1 (by simp [heq])
              · exact hnodup
            · simp [Changes.spend, Token.serial]
      · cases h

theorem stageSettlement_ok (hv : v.balances.Ordered) (hc : c.writes = []) {tx : Transaction}
    (h : (ofVault v).stageSettlement c tx.settlement = .ok c') :
    ∃ m, v.balances.settle tx.moves = .ok m ∧ Overlay.Over v c ⟨ofVault v, c'⟩ m := by
  cases hs : tx.settlement with
  | none =>
    rw [hs] at h
    cases h
    refine ⟨v.balances, ?_, Overlay.over_empty v c hc⟩
    rw [Transaction.moves, hs]
    rfl
  | some s =>
    rw [hs, stageSettlement] at h
    rw [Transaction.moves, hs]
    have hover := Overlay.over_empty v c hc
    rcases hover.run hv s.moves with ⟨o', e, ho, hm⟩ | ⟨o', m', ho, hm, h'⟩
    · rw [Overlay.settle, ho] at h
      cases h
    · rw [Overlay.settle, ho] at h
      cases h
      refine ⟨m', hm, ?_⟩
      obtain ⟨store, changes⟩ := o'
      cases h'.store
      exact h'

theorem foldl_addRecord (c : Changes) (ts : List Token) :
    ts.foldl (fun c t => c.addRecord t.stored) c =
      { c with records := c.records ++ ts.map Token.stored } := by
  induction ts generalizing c with
  | nil => simp
  | cons t ts ih =>
    rw [List.foldl_cons, ih]
    simp [Changes.addRecord]

/-- The changes that are staged for a transaction, and what was tested for them. -/
structure Staged (v : Vault) (tx : Transaction) (c : Changes) : Prop where
  sound : tx.Sound
  distinct : (tx.consumed.map Token.commitment).Nodup
  known : ∀ t ∈ tx.consumed, v.hasRecord t.commitment = true
  unspent : ∀ t ∈ tx.consumed, v.isSpent t.serial = false
  settled : v.balances.settle tx.moves = .ok (v.balances.written c.writes)
  records : c.records = tx.outputs.map Token.stored
  spent : c.spent = tx.consumed.map Token.serial

theorem stage_ok (hv : v.balances.Ordered) {tx : Transaction}
    (h : (ofVault v).stage tx = .ok c) : Staged v tx c := by
  obtain ⟨⟨⟩, hcheck, h⟩ := Answers.bind_eq_ok.1 h
  obtain ⟨c₁, hinputs, h⟩ := Answers.bind_eq_ok.1 h
  obtain ⟨c₂, hsettle, h⟩ := Answers.bind_eq_ok.1 h
  obtain ⟨hall, hnodup, hc₁⟩ := stageInputs_ok hinputs
  obtain ⟨m, hm, hover⟩ := stageSettlement_ok hv (by rw [hc₁]; rfl) hsettle
  have hc : c = { c₂ with records := c₂.records ++ tx.outputs.map Token.stored } := by
    rw [← foldl_addRecord]
    exact (Except.ok.inj h).symm
  have hrecords := hover.records
  have hspent := hover.spent
  rw [hc₁] at hrecords hspent
  constructor
  · exact Transaction.check_ok.1 (Answers.mapError_eq_ok.1 hcheck)
  · exact hnodup
  · exact fun t ht => (hall t ht).2.1
  · exact fun t ht => (hall t ht).2.2
  · rw [hm, hc, ← hover.balances]
  · rw [hc]
    simpa [Changes.empty] using hrecords
  · rw [hc]
    simpa [Changes.empty] using hspent

theorem commit_ok {s : Store} (h : (ofVault v).commit c = .ok s) :
    (∀ r ∈ c.records, v.hasRecord r.commitment = false) ∧
      s = ofVault { v.write c with height := v.height + 1 } := by
  obtain ⟨-, v', hcommit, rfl⟩ := commit_eq_ok.1 h
  obtain ⟨_, hadmits, hv'⟩ := Answers.bind_eq_ok.1 hcommit
  cases hv'
  constructor
  · intro r hr
    unfold Vault.admits at hadmits
    split at hadmits
    · cases hadmits
    · split at hadmits
      · cases hadmits
      · next hnone =>
        exact eq_false_of_ne_true (List.find?_eq_none.1 hnone r hr)
  · rfl

theorem Staged.accepts {tx : Transaction} (h : Staged v tx c)
    (hfresh : ∀ r ∈ c.records, v.hasRecord r.commitment = false) :
    v.Accepts tx { v.write c with height := v.height + 1 } where
  sound := h.sound
  distinct := h.distinct
  known := h.known
  unspent := h.unspent
  settled := h.settled
  fresh t ht := hfresh t.stored (h.records ▸ List.mem_map_of_mem ht)
  records := congrArg (v.records ++ ·) h.records
  spent := congrArg (fun ns => ns.foldl (fun ss s => Vault.insertSerial s ss) v.spent) h.spent
  height := rfl

end Store

namespace Ledger

theorem apply_of_commit {v : Vault} (hv : v.balances.Ordered) (seeds : SeedSource)
    {tx : Transaction} {c : Changes} {s : Store} (hstage : (Store.ofVault v).stage tx = .ok c)
    (hcommit : (Store.ofVault v).commit c = .ok s) :
    ∃ v', v.Accepts tx v' ∧ (ofVault v seeds).apply tx =
      (.ok ⟨tx.id, tx.function, tx.outputs, tx.value, v'.height⟩, ofVault v' seeds) := by
  obtain ⟨hfresh, rfl⟩ := Store.commit_ok hcommit
  refine ⟨_, (Store.stage_ok hv hstage).accepts hfresh, ?_⟩
  exact apply_of_commits ⟨c, hstage, hcommit⟩

theorem apply_cases {v : Vault} (hv : v.balances.Ordered) (seeds : SeedSource)
    (tx : Transaction) :
    (∃ e, (ofVault v seeds).apply tx = (.error e, ofVault v seeds)) ∨
      ∃ v', v.Accepts tx v' ∧ (ofVault v seeds).apply tx =
        (.ok ⟨tx.id, tx.function, tx.outputs, tx.value, v'.height⟩, ofVault v' seeds) := by
  rcases (ofVault v seeds).apply_kept_or_written tx with hrejected | ⟨v', c, hstage, hcommit⟩
  · exact .inl hrejected
  · exact .inr (apply_of_commit hv seeds hstage hcommit)

end Ledger

end TokenLedger
