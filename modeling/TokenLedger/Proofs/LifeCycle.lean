import TokenLedger.Proofs.Views

/-!
# The life of a record

A commitment is absent until an accepted transaction issues a record under
it, live from then on, and spent once an accepted transaction of its owner
consumes it. It never goes back, and rejected transactions move nothing.
-/

set_option autoImplicit false

namespace TokenLedger

/-- Where a commitment stands: nothing stored, stored and unspent, stored and spent. -/
inductive Phase where
  | absent
  | live
  | spent
  deriving DecidableEq

namespace Phase

def rank : Phase → Nat
  | absent => 0
  | live => 1
  | spent => 2

inductive Step : Phase → Phase → Prop where
  | stay (p : Phase) : Step p p
  | issue : Step absent live
  | spend : Step live spent

theorem Step.rank_le {p q : Phase} (h : Step p q) : p.rank ≤ q.rank := by
  cases h with
  | stay p => exact Nat.le_refl _
  | issue => decide
  | spend => decide

end Phase

namespace Vault

def phase (v : Vault) (c : Commitment) : Phase :=
  if v.hasRecord c then if v.isSpent c.serial then .spent else .live else .absent

variable {v v' : Vault} {h : History} {tx : Transaction} {c : Commitment}

theorem Keeps.phase_absent (hk : v.Keeps h) :
    v.phase c = .absent ↔ c ∉ h.issued.map Token.commitment := by
  rw [← hk.hasRecord, phase]
  split
  · next hrec => split <;> simp [hrec]
  · next hrec => simp [hrec]

theorem Keeps.phase_spent (hk : v.Keeps h) (hf : CollisionFree h.strings) :
    v.phase c = .spent ↔ c ∈ h.consumed.map Token.commitment := by
  by_cases hc : c ∈ h.issued.map Token.commitment
  · obtain ⟨t, ht, rfl⟩ := List.mem_map.1 hc
    have hmem : t.commitment ∈ h.consumed.map Token.commitment ↔ t ∈ h.consumed := by
      constructor
      · intro hm
        obtain ⟨u, hu, heq⟩ := List.mem_map.1 hm
        rw [← History.token_eq hf (List.mem_append_right _ hu) (List.mem_append_left _ ht) heq]
        exact hu
      · intro hm
        exact List.mem_map_of_mem hm
    rw [hmem, ← hk.isSpent_iff hf ht, phase, if_pos (hk.hasRecord.2 hc), Token.serial]
    split
    · next hs => simp [hs]
    · next hs => simp [hs]
  · have habsent := hk.phase_absent.2 hc
    have hunknown : c ∉ h.consumed.map Token.commitment := by
      intro hm
      obtain ⟨t, ht, rfl⟩ := List.mem_map.1 hm
      exact hc (hk.known t ht)
    simp [habsent, hunknown]

theorem Keeps.phase_live (hk : v.Keeps h) (hf : CollisionFree h.strings) :
    v.phase c = .live ↔
      c ∈ h.issued.map Token.commitment ∧ c ∉ h.consumed.map Token.commitment := by
  have hstored : c ∈ h.issued.map Token.commitment ↔ v.phase c ≠ .absent := by
    rw [ne_eq, hk.phase_absent, not_not]
  rw [← hk.phase_spent hf, hstored]
  cases v.phase c <;> simp

theorem phase_output (hk : v.Keeps h) (ha : v.Accepts tx v')
    (hf : CollisionFree (History.strings (h ++ [tx]))) (hc : c ∈ tx.outputs.map Token.commitment) :
    v.phase c = .absent ∧ v'.phase c = .live := by
  obtain ⟨t, ht, rfl⟩ := List.mem_map.1 hc
  have hfresh := hk.fresh_of_accepts ha t ht
  constructor
  · exact hk.phase_absent.2 hfresh
  · rw [(keeps_step hk ha).phase_live hf]
    constructor
    · rw [History.issued_append, List.map_append]
      exact List.mem_append_right _ hc
    · rw [History.consumed_append]
      intro hm
      obtain ⟨u, hu, heq⟩ := List.mem_map.1 hm
      rcases List.mem_append.1 hu with hu | hu
      · exact hfresh (heq ▸ hk.known u hu)
      · exact hfresh (heq ▸ hk.known_of_accepts ha u hu)

theorem phase_consumed (hk : v.Keeps h) (ha : v.Accepts tx v')
    (hf : CollisionFree (History.strings (h ++ [tx])))
    (hc : c ∈ tx.consumed.map Token.commitment) : v.phase c = .live ∧ v'.phase c = .spent := by
  obtain ⟨t, ht, rfl⟩ := List.mem_map.1 hc
  have hf' := hf.mono (History.strings_subset_append h [tx])
  constructor
  · rw [hk.phase_live hf']
    exact ⟨hk.known_of_accepts ha t ht, hk.unspent_of_accepts ha t ht⟩
  · rw [(keeps_step hk ha).phase_spent hf, History.consumed_append, List.map_append]
    exact List.mem_append_right _ hc

theorem phase_other (hk : v.Keeps h) (ha : v.Accepts tx v')
    (hf : CollisionFree (History.strings (h ++ [tx])))
    (hout : c ∉ tx.outputs.map Token.commitment) (hin : c ∉ tx.consumed.map Token.commitment) :
    v'.phase c = v.phase c := by
  have hf' := hf.mono (History.strings_subset_append h [tx])
  have hk' := keeps_step hk ha
  have hissued : c ∈ (History.issued (h ++ [tx])).map Token.commitment ↔
      c ∈ h.issued.map Token.commitment := by
    rw [History.issued_append, List.map_append, List.mem_append, or_iff_left hout]
  have hconsumed : c ∈ (History.consumed (h ++ [tx])).map Token.commitment ↔
      c ∈ h.consumed.map Token.commitment := by
    rw [History.consumed_append, List.map_append, List.mem_append, or_iff_left hin]
  cases hp : v.phase c with
  | absent =>
    rw [hk'.phase_absent, hissued]
    exact hk.phase_absent.1 hp
  | live =>
    rw [hk'.phase_live hf, hissued, hconsumed]
    exact (hk.phase_live hf').1 hp
  | spent =>
    rw [hk'.phase_spent hf, hconsumed]
    exact (hk.phase_spent hf').1 hp

theorem phase_cases (hk : v.Keeps h) (ha : v.Accepts tx v')
    (hf : CollisionFree (History.strings (h ++ [tx]))) (c : Commitment) :
    (c ∈ tx.outputs.map Token.commitment ∧ c ∉ tx.consumed.map Token.commitment ∧
      v.phase c = .absent ∧ v'.phase c = .live) ∨
    (c ∉ tx.outputs.map Token.commitment ∧ c ∈ tx.consumed.map Token.commitment ∧
      v.phase c = .live ∧ v'.phase c = .spent) ∨
    (c ∉ tx.outputs.map Token.commitment ∧ c ∉ tx.consumed.map Token.commitment ∧
      v'.phase c = v.phase c) := by
  by_cases hout : c ∈ tx.outputs.map Token.commitment
  · have hissued := phase_output hk ha hf hout
    refine .inl ⟨hout, fun hin => ?_, hissued⟩
    cases hissued.1.symm.trans (phase_consumed hk ha hf hin).1
  · by_cases hin : c ∈ tx.consumed.map Token.commitment
    · exact .inr (.inl ⟨hout, hin, phase_consumed hk ha hf hin⟩)
    · exact .inr (.inr ⟨hout, hin, phase_other hk ha hf hout hin⟩)

theorem phase_step (hk : v.Keeps h) (ha : v.Accepts tx v')
    (hf : CollisionFree (History.strings (h ++ [tx]))) (c : Commitment) :
    Phase.Step (v.phase c) (v'.phase c) := by
  rcases phase_cases hk ha hf c with ⟨-, -, hp, hp'⟩ | ⟨-, -, hp, hp'⟩ | ⟨-, -, hp⟩
  · rw [hp, hp']
    exact .issue
  · rw [hp, hp']
    exact .spend
  · rw [hp]
    exact .stay _

theorem phase_issue_iff (hk : v.Keeps h) (ha : v.Accepts tx v')
    (hf : CollisionFree (History.strings (h ++ [tx]))) :
    (v.phase c ≠ .live ∧ v'.phase c = .live) ↔ c ∈ tx.outputs.map Token.commitment := by
  rcases phase_cases hk ha hf c with ⟨hout, -, hp, hp'⟩ | ⟨hout, -, hp, hp'⟩ | ⟨hout, -, hp⟩
  · simp [hout, hp, hp']
  · simp [hout, hp, hp']
  · simp [hout, hp]

theorem phase_spend_iff (hk : v.Keeps h) (ha : v.Accepts tx v')
    (hf : CollisionFree (History.strings (h ++ [tx]))) :
    (v.phase c ≠ .spent ∧ v'.phase c = .spent) ↔ c ∈ tx.consumed.map Token.commitment := by
  rcases phase_cases hk ha hf c with ⟨-, hin, hp, hp'⟩ | ⟨-, hin, hp, hp'⟩ | ⟨-, hin, hp⟩
  · simp [hin, hp, hp']
  · simp [hin, hp, hp']
  · simp [hin, hp]

theorem phase_leave_iff (hk : v.Keeps h) (ha : v.Accepts tx v')
    (hf : CollisionFree (History.strings (h ++ [tx]))) :
    (v.phase c = .live ∧ v'.phase c ≠ .live) ↔ c ∈ tx.consumed.map Token.commitment := by
  rcases phase_cases hk ha hf c with ⟨-, hin, hp, hp'⟩ | ⟨-, hin, hp, hp'⟩ | ⟨-, hin, hp⟩
  · simp [hin, hp, hp']
  · simp [hin, hp, hp']
  · simp [hin, hp]

end Vault

namespace Ledger

def phase (l : Ledger) (c : Commitment) : Phase := l.store.vault.phase c

structure Advances (l : Ledger) (tx : Transaction) : Prop where
  rejected : ∀ e, (l.apply tx).1 = .error e → ∀ c, (l.apply tx).2.phase c = l.phase c
  step : ∀ c, Phase.Step (l.phase c) ((l.apply tx).2.phase c)
  issue : ∀ c, (l.phase c ≠ .live ∧ (l.apply tx).2.phase c = .live) ↔
    ∃ r t, (l.apply tx).1 = .ok r ∧ t ∈ tx.outputs ∧ t.commitment = c
  /-- The commitments that become spent are those of an accepted transaction's
  inputs, and each of these is the stored record and belongs to the caller. -/
  spend : ∀ c, (l.phase c ≠ .spent ∧ (l.apply tx).2.phase c = .spent) ↔
    ∃ r t, (l.apply tx).1 = .ok r ∧ t ∈ tx.consumed ∧ t.commitment = c ∧
      l.load c = .ok t ∧ t.owner = tx.caller

/-- What holds of all commitments through a run. -/
structure LifeCycle (l : Ledger) (txs : List Transaction) : Prop where
  advances : ∀ before tx after, txs = before ++ tx :: after → (l.run before).Advances tx
  forward : ∀ before after, txs = before ++ after → ∀ c,
    ((l.run before).phase c).rank ≤ ((l.run txs).phase c).rank
  consumedOnce : ((l.accepted txs).consumed.map Token.commitment).Nodup
  issuedOnce : (l.accepted txs).Pairwise fun tx later =>
    ∀ t ∈ tx.outputs, ∀ u ∈ later.outputs, t.commitment ≠ u.commitment
  spentSerials : ∀ n, n ∈ (l.run txs).store.vault.spent ↔
    ∃ t ∈ (l.accepted txs).consumed, t.commitment.serial = n
  spentStored : ∀ t ∈ (l.accepted txs).consumed,
    (l.run txs).store.vault.hasRecord t.commitment = true

variable {v : Vault} {h : History}

theorem advances_of_rejected {l : Ledger} {tx : Transaction} {e : LedgerError}
    (happly : l.apply tx = (.error e, l)) : l.Advances tx := by
  have hsame (c : Commitment) : (l.apply tx).2.phase c = l.phase c := by rw [happly]
  constructor
  · intro _ _
    exact hsame
  · intro c
    rw [hsame]
    exact .stay _
  · intro c
    rw [hsame, happly]
    simp
  · intro c
    rw [hsame, happly]
    simp

theorem advances_of_accepts (hk : v.Keeps h) {seeds : SeedSource} {tx : Transaction} {v' : Vault}
    {r : Receipt} (ha : v.Accepts tx v') (hf : CollisionFree (History.strings (h ++ [tx])))
    (happly : (ofVault v seeds).apply tx = (.ok r, ofVault v' seeds)) :
    (ofVault v seeds).Advances tx := by
  have hbefore (c : Commitment) : (ofVault v seeds).phase c = v.phase c := rfl
  have hafter (c : Commitment) : ((ofVault v seeds).apply tx).2.phase c = v'.phase c := by
    rw [happly]
    rfl
  constructor
  · intro e he
    rw [happly] at he
    cases he
  · intro c
    rw [hbefore, hafter]
    exact Vault.phase_step hk ha hf c
  · intro c
    rw [hbefore, hafter, Vault.phase_issue_iff hk ha hf, List.mem_map, happly]
    simp
  · intro c
    rw [hbefore, hafter, Vault.phase_spend_iff hk ha hf, List.mem_map]
    constructor
    · rintro ⟨t, ht, rfl⟩
      have hissued := hk.mem_issued_of_accepts ha hf ht
      have hn := History.named_of_collisionFree (hf.mono (History.strings_subset_append h [tx]))
      exact ⟨r, t, by rw [happly], ht, rfl, load_keeps hk hn seeds hissued, ha.sound.owners t ht⟩
    · rintro ⟨_, t, -, ht, hc, -⟩
      exact ⟨t, ht, hc⟩

theorem advances_keeps (hk : v.Keeps h) (seeds : SeedSource) (tx : Transaction)
    (hf : CollisionFree (History.strings (h ++ (ofVault v seeds).accepted [tx]))) :
    (ofVault v seeds).Advances tx := by
  rcases apply_keeps hk seeds tx with ⟨e, happly⟩ | ⟨v', ha, -, happly⟩
  · exact advances_of_rejected happly
  · simp only [accepted, happly] at hf
    exact advances_of_accepts hk ha hf happly

theorem phase_le_run (hk : v.Keeps h) (seeds : SeedSource) (txs : List Transaction)
    (hf : CollisionFree (History.strings (h ++ (ofVault v seeds).accepted txs))) (c : Commitment) :
    (v.phase c).rank ≤ (((ofVault v seeds).run txs).phase c).rank := by
  induction txs generalizing v h with
  | nil => exact Nat.le_refl _
  | cons tx txs ih =>
    rcases apply_keeps hk seeds tx with ⟨e, happly⟩ | ⟨v', ha, hk', happly⟩
    · simp only [run, accepted, happly] at hf ⊢
      exact ih hk hf
    · simp only [run, accepted, happly] at hf ⊢
      rw [List.append_cons] at hf
      have hf' := hf.mono (History.strings_subset_append (h ++ [tx]) _)
      exact Nat.le_trans (Vault.phase_step hk ha hf' c).rank_le (ih hk' hf)

/-- In every run from an empty vault all commitments live through the same cycle. -/
theorem lifeCycle_run (seeds : SeedSource) (txs : List Transaction)
    (hf : CollisionFree ((ofVault Vault.empty seeds).accepted txs).strings) :
    (ofVault Vault.empty seeds).LifeCycle txs := by
  obtain ⟨v, hrun, hk⟩ := run_empty_keeps seeds txs
  constructor
  · rintro before tx after rfl
    obtain ⟨v₀, hrun₀, hk₀⟩ := run_empty_keeps seeds before
    rw [accepted_append, hrun₀] at hf
    rw [hrun₀]
    apply advances_keeps hk₀
    apply hf.mono
    rw [← List.singleton_append (l := after), accepted_append, ← List.append_assoc]
    exact History.strings_subset_append _ _
  · rintro before after rfl c
    obtain ⟨v₀, hrun₀, hk₀⟩ := run_empty_keeps seeds before
    rw [accepted_append, hrun₀] at hf
    rw [run_append, hrun₀]
    exact phase_le_run hk₀ seeds after hf c
  · exact hk.once
  · exact hk.fresh
  · intro n
    rw [hrun]
    exact (hk.spent n).trans List.mem_map
  · intro t ht
    rw [hrun]
    exact hk.hasRecord.2 (hk.known t ht)

def spending : List Transaction :=
  [Sample.transaction .mint [] [Sample.record 100 1],
   Sample.transaction .join [Sample.record 100 1, Sample.record 100 1] [Sample.record 200 2],
   Sample.transaction .transferPrivate [Sample.record 100 1]
    [Sample.record 60 3, Sample.record 40 4]]

theorem lifeCycle_spending :
    (ofVault Vault.empty Sample.seeds).accepted spending = [spending[0], spending[2]] ∧
    CollisionFree ((ofVault Vault.empty Sample.seeds).accepted spending).strings ∧
      (ofVault Vault.empty Sample.seeds).LifeCycle spending := by
  have haccepted : (ofVault Vault.empty Sample.seeds).accepted spending =
      [spending[0], spending[2]] := by decide +kernel
  have hf : CollisionFree ((ofVault Vault.empty Sample.seeds).accepted spending).strings := by
    rw [haccepted]
    apply History.collisionFree_strings
      [Sample.record 100 1, Sample.record 60 3, Sample.record 40 4]
    · decide +kernel
    · decide +kernel
  exact ⟨haccepted, hf, lifeCycle_run Sample.seeds spending hf⟩

end Ledger

end TokenLedger
