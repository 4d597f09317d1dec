import TokenLedger.Proofs.Views

/-!
# All queries describe one state

The records in the order of issue, the lists of the owners and the published
serial numbers are kept apart, and tokens are read back from bytes at every
query. Still all answers come from one state, and a snapshot holds it: no
stored record is missing or unreadable when it is asked for.
-/

set_option autoImplicit false

namespace TokenLedger

namespace Snapshot

def unspent (s : Snapshot) : List Token := s.records.filter fun t => t.serial ∉ s.spent

def Stores (s : Snapshot) (c : Commitment) : Prop := c ∈ s.records.map Token.commitment

inductive Refuses (s : Snapshot) (c : Commitment) : LedgerError → Prop where
  | spent (hstored : s.Stores c) (hspent : c.serial ∈ s.spent) : Refuses s c (.alreadySpent c)
  | unknown (h : ¬s.Stores c) : Refuses s c (.unknownRecord c)

variable {s : Snapshot} {c : Commitment} {t : Token} {e e' : LedgerError}

theorem mem_unspent : t ∈ s.unspent ↔ t ∈ s.records ∧ t.serial ∉ s.spent := by
  rw [unspent, List.mem_filter, decide_eq_true_iff]

theorem Refuses.unique (h : s.Refuses c e) (h' : s.Refuses c e') : e = e' := by
  cases h with
  | spent hstored hspent =>
    cases h' with
    | spent _ _ => rfl
    | unknown h' => exact absurd hstored h'
  | unknown h =>
    cases h' with
    | spent hstored _ => exact absurd hstored h
    | unknown _ => rfl

theorem not_refuses_of_mem (ht : t ∈ s.unspent) : ¬s.Refuses t.commitment e := by
  obtain ⟨hstored, hunspent⟩ := mem_unspent.1 ht
  rintro (⟨-, hspent⟩ | h)
  · exact hunspent hspent
  · exact h (List.mem_map_of_mem hstored)

end Snapshot

namespace Vault

variable {v : Vault}

theorem unspent_snapshotOf (v : Vault) (ts : List Token) :
    (v.snapshotOf ts).unspent = v.unspent ts := by
  apply List.filter_congr
  intro t _
  rw [Bool.eq_iff_iff, decide_eq_true_iff, Bool.not_eq_true', ← Bool.not_eq_true, ← mem_spent_iff]
  rfl

end Vault

namespace Ledger

/-- Every query is answered, and from what the snapshot holds. -/
structure AnswersFrom (l : Ledger) (s : Snapshot) : Prop where
  height : l.height = .ok s.height
  publicBalance : ∀ a, l.publicBalance a = .ok ((s.accounts.find? a).getD 0)
  hasRecord : ∀ c, ∃ known, l.store.hasRecord c = .ok known ∧ (known = true ↔ s.Stores c)
  recordsOf : ∀ a, l.recordsOf a = .ok (s.unspent.filter fun t => t.owner = a)
  unspentRecord : ∀ c t, l.unspentRecord c = .ok t ↔
    (∃ ts, l.recordsOf t.owner = .ok ts ∧ t ∈ ts) ∧ t.commitment = c
  /-- There is no other error, so no stored record is missing or malformed. -/
  refusal : ∀ c e, l.unspentRecord c = .error e ↔ s.Refuses c e
  totalSupply : l.totalSupply = .ok (s.accounts.total + Token.total s.unspent)

variable {v : Vault} {h : History} {c : Commitment} {t : Token}

theorem unspentRecord_unknown (hk : v.Keeps h) (seeds : SeedSource)
    (hc : c ∉ h.issued.map Token.commitment) :
    (ofVault v seeds).unspentRecord c = .error (.unknownRecord c) := by
  have hknown : (ofVault v seeds).store.hasRecord c = .ok (v.hasRecord c) := rfl
  rw [unspentRecord, hknown, Answers.liftStore_ok, Answers.ok_bind,
    if_neg fun hrec => hc (hk.hasRecord.1 hrec)]

theorem unspentRecord_stored (hk : v.Keeps h) (hn : h.Named) (seeds : SeedSource)
    (ht : t ∈ h.issued) : (ofVault v seeds).unspentRecord t.commitment =
      if v.isSpent t.serial then .error (.alreadySpent t.commitment) else .ok t := by
  have hknown : (ofVault v seeds).store.hasRecord t.commitment =
      .ok (v.hasRecord t.commitment) := rfl
  have hserial : (ofVault v seeds).store.isSpent t.commitment.serial =
      .ok (v.isSpent t.serial) := rfl
  rw [unspentRecord, hknown, Answers.liftStore_ok, Answers.ok_bind,
    if_pos (hk.hasRecord.2 (List.mem_map_of_mem ht)), hserial, Answers.liftStore_ok,
    Answers.ok_bind, load_keeps hk hn seeds ht]

theorem unspentRecord_cases (hk : v.Keeps h) (hn : h.Named) (seeds : SeedSource)
    (c : Commitment) :
    (∃ e, (ofVault v seeds).unspentRecord c = .error e ∧ (v.snapshotOf h.issued).Refuses c e) ∨
      ∃ t ∈ v.unspent h.issued, t.commitment = c ∧ (ofVault v seeds).unspentRecord c = .ok t := by
  by_cases hc : c ∈ h.issued.map Token.commitment
  · obtain ⟨t, ht, rfl⟩ := List.mem_map.1 hc
    cases hspent : v.isSpent t.serial with
    | true =>
      refine .inl ⟨_, ?_, .spent hc (Vault.mem_spent_iff.2 hspent)⟩
      rw [unspentRecord_stored hk hn seeds ht, if_pos hspent]
    | false =>
      refine .inr ⟨t, Vault.mem_unspent.2 ⟨ht, hspent⟩, rfl, ?_⟩
      rw [unspentRecord_stored hk hn seeds ht, hspent, if_neg Bool.false_ne_true]
  · exact .inl ⟨_, unspentRecord_unknown hk seeds hc, .unknown hc⟩

theorem unspentRecord_iff (hk : v.Keeps h) (hn : h.Named) (seeds : SeedSource) :
    (ofVault v seeds).unspentRecord c = .ok t ↔ t ∈ v.unspent h.issued ∧ t.commitment = c := by
  constructor
  · intro hok
    rcases unspentRecord_cases hk hn seeds c with ⟨e, heq, -⟩ | ⟨u, hu, hc, heq⟩
    · cases heq.symm.trans hok
    · cases heq.symm.trans hok
      exact ⟨hu, hc⟩
  · rintro ⟨ht, rfl⟩
    obtain ⟨hissued, hunspent⟩ := Vault.mem_unspent.1 ht
    rw [unspentRecord_stored hk hn seeds hissued, hunspent, if_neg Bool.false_ne_true]

theorem unspentRecord_error_iff (hk : v.Keeps h) (hn : h.Named) (seeds : SeedSource)
    {e : LedgerError} :
    (ofVault v seeds).unspentRecord c = .error e ↔ (v.snapshotOf h.issued).Refuses c e := by
  rcases unspentRecord_cases hk hn seeds c with ⟨e', heq, hrefuses⟩ | ⟨t, ht, rfl, heq⟩
  · rw [heq]
    constructor
    · intro he
      cases he
      exact hrefuses
    · intro h
      rw [h.unique hrefuses]
  · rw [heq]
    rw [← Vault.unspent_snapshotOf] at ht
    exact ⟨nofun, fun h => absurd h (Snapshot.not_refuses_of_mem ht)⟩

theorem answersFrom_keeps (hk : v.Keeps h) (hn : h.Named) (seeds : SeedSource) :
    (ofVault v seeds).AnswersFrom (v.snapshotOf h.issued) where
  height := rfl
  publicBalance := publicBalance_ofVault v seeds
  hasRecord c := ⟨v.hasRecord c, rfl, hk.hasRecord⟩
  recordsOf a := by rw [recordsOf_unspent hk hn, Vault.unspent_snapshotOf]
  unspentRecord c t := by
    rw [unspentRecord_iff hk hn, recordsOf_unspent hk hn]
    apply and_congr_left
    intro _
    constructor
    · exact fun ht => ⟨_, rfl, List.mem_filter.2 ⟨ht, decide_eq_true rfl⟩⟩
    · rintro ⟨ts, hts, ht⟩
      cases hts
      exact (List.mem_filter.1 ht).1
  refusal c e := unspentRecord_error_iff hk hn seeds
  totalSupply := by
    rw [totalSupply_unspent hk hn, Vault.unspent_snapshotOf]
    rfl

/-- In every state that a run reaches, the snapshot succeeds and all queries answer from it. -/
theorem answersFrom_run (seeds : SeedSource) (txs : List Transaction)
    (hn : ((ofVault Vault.empty seeds).accepted txs).Named) :
    ∃ s, ((ofVault Vault.empty seeds).run txs).snapshot = .ok s ∧
      ((ofVault Vault.empty seeds).run txs).AnswersFrom s := by
  obtain ⟨v, hrun, hk⟩ := run_empty_keeps seeds txs
  rw [hrun]
  exact ⟨_, snapshot_keeps hk hn seeds, answersFrom_keeps hk hn seeds⟩

def halving : List Transaction :=
  [Sample.transaction .mint [] [Sample.record 100 1],
   Sample.transaction .transferPrivate [Sample.record 100 1]
    [Sample.record 50 2, Sample.record 50 2]]

theorem answersFrom_halving :
    (ofVault Vault.empty Sample.seeds).accepted halving = halving ∧
    ((ofVault Vault.empty Sample.seeds).accepted halving).Named ∧
      ∃ s, ((ofVault Vault.empty Sample.seeds).run halving).snapshot = .ok s ∧
        ((ofVault Vault.empty Sample.seeds).run halving).AnswersFrom s := by
  have haccepted : (ofVault Vault.empty Sample.seeds).accepted halving = halving := by
    decide +kernel
  have hn : ((ofVault Vault.empty Sample.seeds).accepted halving).Named := by
    rw [haccepted, History.Named]
    decide +kernel
  exact ⟨haccepted, hn, answersFrom_run Sample.seeds halving hn⟩

end Ledger

end TokenLedger
