import TokenLedger.Proofs.Totals

/-!
# Conservation of value

The supply is what the two mints brought in, less the twins that were
consumed: a transaction with two equal outputs counts them both, and the one
input that later consumes the record takes both away. Transactions can be
made by hand, so nothing else is known of them than that they were accepted.
-/

set_option autoImplicit false

namespace TokenLedger

namespace Transaction

/-- The value that a transaction creates: the records of a mint and the
amount of a public mint's settlement. -/
def minted (tx : Transaction) : Nat :=
  (if tx.function = .mint then tx.outputTotal else 0) +
    match tx.settlement with
    | some (.mintPublic _ amount) => amount.toNat
    | _ => 0

variable {tx : Transaction}

theorem deltas_moves (tx : Transaction) :
    Move.deltas tx.moves = (tx.settlement.map Settlement.supplyDelta).getD 0 := by
  unfold moves
  cases tx.settlement with
  | none => rfl
  | some s => exact Settlement.deltas_moves s

theorem Sound.minted_eq_zero (hs : tx.Sound) (h : tx.function.creates = false) :
    tx.minted = 0 := by
  have hmint : tx.function ≠ .mint := by
    intro heq
    rw [heq] at h
    cases h
  unfold minted
  rw [if_neg hmint]
  split
  · next receiver amount hsome =>
    have hfun := hs.function_eq hsome
    rw [← hfun] at h
    cases h
  · rfl

theorem Sound.minted_mint (hs : tx.Sound) (h : tx.function = .mint) :
    tx.consumedTotal = 0 ∧ tx.settlement = none ∧ tx.minted = tx.outputTotal := by
  have hin : tx.consumed = [] := List.eq_nil_of_length_eq_zero (by rw [hs.consumes, h]; rfl)
  have hnone : tx.settlement = none := hs.settlement_eq_none (by rw [h]; rfl)
  refine ⟨by rw [consumedTotal, hin]; rfl, hnone, ?_⟩
  rw [minted, if_pos h, hnone]
  rfl

theorem Sound.minted_mintPublic (hs : tx.Sound) (h : tx.function = .mintPublic) :
    ∃ receiver amount, tx.settlement = some (.mintPublic receiver amount) ∧
      tx.consumedTotal = 0 ∧ tx.outputTotal = 0 ∧ tx.minted = amount.toNat := by
  have hin : tx.consumed = [] := List.eq_nil_of_length_eq_zero (by rw [hs.consumes, h]; rfl)
  have hout : tx.outputs = [] := List.eq_nil_of_length_eq_zero (by rw [hs.issues, h]; rfl)
  obtain ⟨s, hsome⟩ := hs.settlement_eq_some (by rw [h]; rfl)
  have hfun := hs.function_eq hsome
  rw [h] at hfun
  cases s with
  | mintPublic receiver amount =>
    refine ⟨receiver, amount, hsome, by rw [consumedTotal, hin]; rfl,
      by rw [outputTotal, hout]; rfl, ?_⟩
    rw [minted, if_neg (by rw [h]; nofun), hsome, Nat.zero_add]
  | transferPrivateToPublic => cases hfun
  | transferPublicToPrivate => cases hfun
  | transferPublic => cases hfun

theorem Sound.conserves (hs : tx.Sound) :
    (tx.consumedTotal + tx.minted : Int) = tx.outputTotal + Move.deltas tx.moves := by
  rw [deltas_moves]
  cases hcreates : tx.function.creates with
  | false =>
    have hbalance := hs.balance.resolve_left (by rw [hcreates]; nofun)
    rw [hs.minted_eq_zero hcreates, hbalance, produced]
    omega
  | true =>
    have hmints : tx.function = .mint ∨ tx.function = .mintPublic := by
      revert hcreates
      cases tx.function <;> simp [Function.creates]
    rcases hmints with hmint | hmint
    · obtain ⟨hin, hnone, hminted⟩ := hs.minted_mint hmint
      rw [hin, hnone, hminted, Option.map_none, Option.getD_none]
      omega
    · obtain ⟨receiver, amount, hsome, hin, hout, hminted⟩ := hs.minted_mintPublic hmint
      rw [hin, hout, hminted, hsome, Option.map_some, Option.getD_some, Settlement.supplyDelta]

end Transaction

namespace History

def minted : History → Nat
  | [] => 0
  | tx :: h => tx.minted + minted h

/-- The value of the twins whose record was consumed. -/
def vanished (h : History) : Nat := Token.total (h.twins.filter (· ∈ h.consumed))

theorem conserves {h : History} (hs : ∀ tx ∈ h, tx.Sound) :
    (Token.total h.consumed + h.minted : Int) = Token.total h.issued + Move.deltas h.moves := by
  induction h with
  | nil => rfl
  | cons tx h ih =>
    have htx := (hs tx (by simp)).conserves
    have hrest := ih fun t ht => hs t (by simp [ht])
    simp only [Transaction.consumedTotal, Transaction.outputTotal] at htx
    simp only [consumed, minted, issued, moves, List.flatMap_cons, Token.total_append,
      Move.deltas_append] at hrest ⊢
    omega

theorem minted_append (h rest : History) : minted (h ++ rest) = h.minted + minted rest := by
  induction h with
  | nil => simp [minted]
  | cons tx h ih => rw [List.cons_append, minted, minted, ih, Nat.add_assoc]

theorem vanished_eq_zero {h : History} :
    h.vanished = 0 ↔ ∀ t ∈ h.twins, t ∈ h.consumed → t.balance = 0 := by
  rw [vanished, Token.total_eq_zero]
  simp only [List.mem_filter, decide_eq_true_eq, and_imp]

theorem vanished_eq_zero_of_append {h rest : History} (hz : vanished (h ++ rest) = 0) :
    h.vanished = 0 := by
  rw [vanished_eq_zero] at hz ⊢
  intro t htwin hmem
  apply hz t
  · rw [twins, List.flatMap_append]
    exact List.mem_append_left _ htwin
  · rw [consumed, List.flatMap_append]
    exact List.mem_append_left _ hmem

end History

namespace Ledger

variable {v : Vault} {h : History}

theorem totalSupply_history (hk : v.Keeps h) (hf : CollisionFree h.strings) (seeds : SeedSource) :
    ∃ n, (ofVault v seeds).totalSupply = .ok n ∧ n + h.vanished = h.minted := by
  refine ⟨_, totalSupply_keeps hk hf seeds, ?_⟩
  have hlive := hk.total_live hf fun _ => true
  have hconserves := History.conserves hk.sound
  have htotal := hk.total
  simp only [List.filter_true, Bool.true_and] at hlive
  rw [History.vanished]
  omega

theorem accepted_take (l : Ledger) (txs : List Transaction) (k : Nat) :
    l.accepted txs = l.accepted (txs.take k) ++ (l.run (txs.take k)).accepted (txs.drop k) := by
  rw [← accepted_append, List.take_append_drop]

theorem totalSupply_take (seeds : SeedSource) (txs : List Transaction)
    (hf : CollisionFree ((ofVault Vault.empty seeds).accepted txs).strings) (k : Nat) :
    ∃ n, ((ofVault Vault.empty seeds).run (txs.take k)).totalSupply = .ok n ∧
      n + ((ofVault Vault.empty seeds).accepted (txs.take k)).vanished =
        ((ofVault Vault.empty seeds).accepted (txs.take k)).minted := by
  obtain ⟨v, hrun, hk⟩ := run_empty_keeps seeds (txs.take k)
  rw [accepted_take _ txs k] at hf
  rw [hrun]
  exact totalSupply_history hk (hf.mono (History.strings_subset_append _ _)) seeds

/-- After every step of a run the supply and what vanished make up what was
minted, and nothing vanishes on the way exactly when no twin with a balance is consumed. -/
theorem totalSupply_run (seeds : SeedSource) (txs : List Transaction)
    (hf : CollisionFree ((ofVault Vault.empty seeds).accepted txs).strings) :
    (∀ k, ∃ n, ((ofVault Vault.empty seeds).run (txs.take k)).totalSupply = .ok n ∧
      n + ((ofVault Vault.empty seeds).accepted (txs.take k)).vanished =
        ((ofVault Vault.empty seeds).accepted (txs.take k)).minted) ∧
    ((∀ k, ((ofVault Vault.empty seeds).run (txs.take k)).totalSupply =
        .ok ((ofVault Vault.empty seeds).accepted (txs.take k)).minted) ↔
      ∀ t ∈ ((ofVault Vault.empty seeds).accepted txs).twins,
        t ∈ ((ofVault Vault.empty seeds).accepted txs).consumed → t.balance = 0) := by
  have hsupply := totalSupply_take seeds txs hf
  refine ⟨hsupply, ?_⟩
  rw [← History.vanished_eq_zero]
  constructor
  · intro hall
    obtain ⟨n, hn, hsum⟩ := hsupply txs.length
    have hlast := hall txs.length
    rw [List.take_length] at hn hsum hlast
    rw [hn, Except.ok.injEq] at hlast
    omega
  · intro hzero k
    obtain ⟨n, hn, hsum⟩ := hsupply k
    rw [accepted_take _ txs k] at hzero
    rw [hn, ← hsum, History.vanished_eq_zero_of_append hzero, Nat.add_zero]

def doubling : List Transaction :=
  [Sample.transaction .mint [] [Sample.record 100 1],
   Sample.transaction .transferPrivate [Sample.record 100 1]
    [Sample.record 50 2, Sample.record 50 2],
   Sample.transaction .transferPrivate [Sample.record 50 2]
    [Sample.record 50 3, Sample.record 0 4]]

theorem doubling_accepted : (ofVault Vault.empty Sample.seeds).accepted doubling = doubling ∧
    CollisionFree (History.strings doubling) := by
  refine ⟨by decide +kernel, ?_⟩
  apply History.collisionFree_strings
    [Sample.record 100 1, Sample.record 50 2, Sample.record 50 3, Sample.record 0 4]
  · decide +kernel
  · decide +kernel

theorem totalSupply_doubling :
    CollisionFree ((ofVault Vault.empty Sample.seeds).accepted doubling).strings ∧
      ∃ n, ((ofVault Vault.empty Sample.seeds).run (doubling.take 3)).totalSupply = .ok n ∧
        n + ((ofVault Vault.empty Sample.seeds).accepted (doubling.take 3)).vanished =
          ((ofVault Vault.empty Sample.seeds).accepted (doubling.take 3)).minted := by
  have hf : CollisionFree ((ofVault Vault.empty Sample.seeds).accepted doubling).strings := by
    rw [doubling_accepted.1]
    exact doubling_accepted.2
  exact ⟨hf, (totalSupply_run Sample.seeds doubling hf).1 3⟩

/-- Value is lost in a run whose hashed strings do not collide: of the hundred
minted only fifty are left. -/
theorem not_conserved :
    ¬ ∀ (seeds : SeedSource) (txs : List Transaction),
      CollisionFree ((ofVault Vault.empty seeds).accepted txs).strings →
        ∀ k, ((ofVault Vault.empty seeds).run (txs.take k)).totalSupply =
          .ok ((ofVault Vault.empty seeds).accepted (txs.take k)).minted := by
  intro hall
  obtain ⟨haccepted, hf⟩ := doubling_accepted
  obtain ⟨v, hrun, hk⟩ := run_empty_keeps Sample.seeds doubling
  rw [haccepted] at hk
  obtain ⟨n, hn, hsum⟩ := totalSupply_history hk hf Sample.seeds
  have hminted : History.minted doubling = 100 := by decide
  have hvanished : History.vanished doubling = 50 := by decide +kernel
  have hsupply := hall Sample.seeds doubling (by rw [haccepted]; exact hf) 3
  rw [show doubling.take 3 = doubling from rfl, hrun, haccepted, hn, hminted] at hsupply
  cases hsupply
  omega

end Ledger

end TokenLedger
