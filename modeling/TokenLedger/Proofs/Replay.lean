import Mathlib.Data.List.Nodup
import TokenLedger.Proofs.Admission
import TokenLedger.Proofs.Views

/-!
# Transactions submitted again

No identifier of a transaction is kept. What stops a transaction from being
applied twice are the records that it moves: the serial numbers of its inputs
are published and its outputs are stored, for good. A transaction of a
function that moves no record has no such protection, and some history
accepts it twice.
-/

set_option autoImplicit false

namespace TokenLedger

namespace History

theorem gains_count (h : History) (tx : Transaction) (a : Address) :
    Move.gains a h.moves =
      h.count tx * Move.gains a tx.moves + Move.gains a (moves (h.filter (· ≠ tx))) := by
  induction h with
  | nil => simp [moves, Move.gains]
  | cons u h ih =>
    simp only [moves, List.flatMap_cons, Move.gains_append] at ih ⊢
    by_cases hu : u = tx
    · rw [ih, hu, List.count_cons_self, List.filter_cons_of_neg (by simp), Int.natCast_succ,
        Int.add_mul, Int.one_mul]
      omega
    · rw [ih, List.count_cons_of_ne hu, List.filter_cons_of_pos (by simpa using hu),
        List.flatMap_cons, Move.gains_append]
      omega

end History

namespace Vault.Keeps

variable {v v' : Vault} {h : History} {tx : Transaction}

theorem count_le_one (hk : v.Keeps h) (hmoves : tx.consumed ≠ [] ∨ tx.outputs ≠ []) :
    h.count tx ≤ 1 := by
  have hcopies : List.Sublist (List.replicate (h.count tx) tx) h :=
    List.replicate_sublist_iff.2 (Nat.le_refl _)
  rcases hmoves with hin | hout
  · obtain ⟨t, ht⟩ := List.exists_mem_of_ne_nil _ hin
    have honce := hk.once
    rw [History.consumed, List.map_flatMap, List.nodup_flatMap] at honce
    refine (List.pairwise_replicate.1 (honce.2.sublist hcopies)).resolve_right fun hself => ?_
    have hc := List.mem_map_of_mem (f := Token.commitment) ht
    exact hself hc hc
  · obtain ⟨t, ht⟩ := List.exists_mem_of_ne_nil _ hout
    refine (List.pairwise_replicate.1 (hk.fresh.sublist hcopies)).resolve_right fun hself => ?_
    exact hself t ht t ht rfl

theorem not_accepts (hk : v.Keeps h) (hmem : tx ∈ h)
    (hmoves : tx.consumed ≠ [] ∨ tx.outputs ≠ []) : ¬v.Accepts tx v' := by
  intro ha
  have hle := (keeps_step hk ha).count_le_one hmoves
  rw [List.count_append, List.count_singleton_self] at hle
  have hpos := List.count_pos_iff.2 hmem
  omega

end Vault.Keeps

namespace Transaction

/-- A transaction that has been accepted takes effect once and for all. -/
structure AppliedOnce (tx : Transaction) : Prop where
  replay : ∀ (seeds : SeedSource) (before between : List Transaction) (r : Receipt)
    (l l' : Ledger), (Ledger.ofVault Vault.empty seeds).run before = l →
      l.apply tx = (.ok r, l') → ∃ e, (l'.run between).apply tx = (.error e, l'.run between)
  once : ∀ (seeds : SeedSource) (txs : List Transaction),
    ((Ledger.ofVault Vault.empty seeds).accepted txs).count tx ≤ 1
  effect : ∀ (seeds : SeedSource) (txs : List Transaction) (a : Address),
    tx ∈ (Ledger.ofVault Vault.empty seeds).accepted txs →
      ∃ b, ((Ledger.ofVault Vault.empty seeds).run txs).publicBalance a = .ok b ∧
        (b.toNat : Int) = Move.gains a tx.moves +
          Move.gains a (History.moves
            (((Ledger.ofVault Vault.empty seeds).accepted txs).filter (· ≠ tx)))

variable {tx : Transaction}

theorem Sound.moves_records (hs : tx.Sound) :
    (tx.consumed ≠ [] ∨ tx.outputs ≠ []) ↔
      (tx.function.consumes ≠ 0 ∨ tx.function.issues ≠ 0) := by
  rw [← hs.consumes, ← hs.issues, ne_eq, ne_eq, ne_eq, ne_eq, List.length_eq_zero_iff,
    List.length_eq_zero_iff]

end Transaction

namespace Ledger

variable {v : Vault} {h : History} {tx : Transaction}

theorem apply_again (hk : v.Keeps h) (hmem : tx ∈ h)
    (hmoves : tx.consumed ≠ [] ∨ tx.outputs ≠ []) (seeds : SeedSource) :
    ∃ e, (ofVault v seeds).apply tx = (.error e, ofVault v seeds) := by
  rcases apply_cases hk.ordered seeds tx with hrej | ⟨v', ha, -⟩
  · exact hrej
  · exact absurd ha (hk.not_accepts hmem hmoves)

theorem appliedOnce_of_records (hmoves : tx.consumed ≠ [] ∨ tx.outputs ≠ []) :
    tx.AppliedOnce where
  replay := by
    rintro seeds before between r l l' rfl happly
    obtain ⟨v, hrun, hk⟩ := run_empty_keeps seeds before
    rw [hrun] at happly
    rcases apply_keeps hk seeds tx with ⟨e, hrej⟩ | ⟨v', -, hk', hacc⟩
    · cases happly.symm.trans hrej
    · cases happly.symm.trans hacc
      obtain ⟨v'', hrun', hk''⟩ := run_keeps hk' seeds between
      rw [hrun']
      exact apply_again hk'' (by simp) hmoves seeds
  once seeds txs := by
    obtain ⟨v, -, hk⟩ := run_empty_keeps seeds txs
    exact hk.count_le_one hmoves
  effect seeds txs a hmem := by
    obtain ⟨v, hrun, hk⟩ := run_empty_keeps seeds txs
    have hcount : ((ofVault Vault.empty seeds).accepted txs).count tx = 1 :=
      Nat.le_antisymm (hk.count_le_one hmoves) (List.count_pos_iff.2 hmem)
    refine ⟨_, by rw [hrun]; rfl, ?_⟩
    have hamount := hk.amounts a
    rw [History.gains_count _ tx, hcount, Int.natCast_one, Int.one_mul] at hamount
    exact hamount

theorem appliedOnce_of_unsound (hs : ¬tx.Sound) : tx.AppliedOnce where
  replay := by
    rintro seeds before between r l l' rfl happly
    obtain ⟨v, hrun, hk⟩ := run_empty_keeps seeds before
    rw [hrun] at happly
    rcases apply_cases hk.ordered seeds tx with ⟨e, hrej⟩ | ⟨v', ha, -⟩
    · cases happly.symm.trans hrej
    · exact absurd ha.sound hs
  once seeds txs := by
    obtain ⟨v, -, hk⟩ := run_empty_keeps seeds txs
    rw [List.count_eq_zero_of_not_mem fun hmem => hs (hk.sound tx hmem)]
    exact Nat.zero_le 1
  effect seeds txs a hmem := by
    obtain ⟨v, -, hk⟩ := run_empty_keeps seeds txs
    exact absurd (hk.sound tx hmem) hs

end Ledger

/-! ## Histories without records -/

namespace Move

variable {accounts : Accounts}

theorem allEnabled_append {ms ns : List Move} :
    AllEnabled accounts (ms ++ ns) ↔
      AllEnabled accounts ms ∧ AllEnabled (effects accounts ms) ns := by
  induction ms generalizing accounts with
  | nil => simp [AllEnabled, effects]
  | cons m ms ih => rw [List.cons_append, AllEnabled, ih, AllEnabled, effects, and_assoc]

theorem allEnabled_credit_twice {key other : Address} (h : other ≠ key) (amount : UInt64) :
    AllEnabled Vault.empty.balance?
      [.credit key amount, .debit key amount, .credit other amount, .credit key amount] := by
  have hnone : Vault.empty.balance? = fun _ => none := rfl
  simp [hnone, AllEnabled, Enabled, effect, h, h.symm, UInt64.toNat_lt_size]

theorem allEnabled_transfer_twice (key key' : Address) (amount : UInt64) :
    AllEnabled Vault.empty.balance?
      [.credit key amount, .debit key amount, .credit key' amount, .debit key' amount,
        .credit key amount, .debit key amount, .credit key' amount] := by
  have hnone : Vault.empty.balance? = fun _ => none := rfl
  by_cases h : key = key'
  · simp [h, hnone, AllEnabled, Enabled, effect, UInt64.toNat_lt_size]
  · simp [hnone, AllEnabled, Enabled, effect, h, Ne.symm h, UInt64.toNat_lt_size]

end Move

namespace Transaction

def ofSettlement (caller : Address) (s : Settlement) : Transaction :=
  ⟨default, s.function, caller, [], [], some s, none⟩

theorem sound_mintPublic (caller receiver : Address) (amount : UInt64) :
    (ofSettlement caller (.mintPublic receiver amount)).Sound where
  consumes := rfl
  issues := rfl
  settles := rfl
  value := rfl
  owners := nofun
  debit := nofun
  balance := .inl rfl

theorem sound_transferPublic (caller receiver : Address) (amount : UInt64) :
    (ofSettlement caller (.transferPublic caller receiver amount)).Sound where
  consumes := rfl
  issues := rfl
  settles := rfl
  value := rfl
  owners := nofun
  debit _ h := (Option.some.inj h).symm
  balance := .inr rfl

structure Recordless (tx : Transaction) : Prop where
  sound : tx.Sound
  consumed : tx.consumed = []
  outputs : tx.outputs = []

theorem Recordless.admissible {tx : Transaction} (h : tx.Recordless) {v : Vault}
    (henabled : Move.AllEnabled v.balance? tx.moves) : v.Admissible tx where
  check := check_ok.2 h.sound
  inputs := by
    rw [h.consumed]
    exact ⟨List.nodup_nil, nofun, nofun⟩
  enabled := henabled
  fresh t ht := by
    rw [h.outputs] at ht
    cases ht

end Transaction

namespace Ledger

theorem accepted_of_allEnabled {v : Vault} (hv : v.Ordered) (seeds : SeedSource)
    {txs : List Transaction} (hbare : ∀ tx ∈ txs, tx.Recordless)
    (henabled : Move.AllEnabled v.balance? (History.moves txs)) :
    (ofVault v seeds).accepted txs = txs := by
  induction txs generalizing v with
  | nil => rfl
  | cons tx txs ih =>
    rw [History.moves, List.flatMap_cons, Move.allEnabled_append] at henabled
    obtain ⟨v', hout, happly⟩ :=
      apply_of_admissible hv ((hbare tx (by simp)).admissible henabled.1) seeds
    have hbalance : v'.balance? = Move.effects v.balance? tx.moves := funext hout.balance
    simp only [accepted, happly]
    rw [ih hout.ordered (fun u hu => hbare u (by simp [hu])) (hbalance ▸ henabled.2)]

end Ledger

namespace Transaction

variable {tx : Transaction}

theorem Recordless.moves_eq (h : tx.Recordless) :
    tx.moves = [] ∨ (∃ key amount, tx.moves = [.credit key amount]) ∨
      ∃ key key' amount, tx.moves = [.debit key amount, .credit key' amount] := by
  have hin := h.sound.consumes
  have hout := h.sound.issues
  rw [h.consumed] at hin
  rw [h.outputs] at hout
  rw [moves]
  cases hs : tx.settlement with
  | none => exact .inl rfl
  | some s =>
    have hfun := h.sound.function_eq hs
    rw [← hfun] at hin hout
    cases s with
    | transferPrivateToPublic => cases hin
    | transferPublicToPrivate => cases hout
    | mintPublic receiver amount => exact .inr (.inl ⟨receiver, amount, rfl⟩)
    | transferPublic caller receiver amount => exact .inr (.inr ⟨caller, receiver, amount, rfl⟩)

theorem recordless_mintPublic (caller receiver : Address) (amount : UInt64) :
    (ofSettlement caller (.mintPublic receiver amount)).Recordless :=
  ⟨sound_mintPublic caller receiver amount, rfl, rfl⟩

theorem recordless_transferPublic (caller receiver : Address) (amount : UInt64) :
    (ofSettlement caller (.transferPublic caller receiver amount)).Recordless :=
  ⟨sound_transferPublic caller receiver amount, rfl, rfl⟩

/-- Some history accepts a transaction without records twice: what it debits is
minted before, and what it credits is taken away before it comes again. -/
theorem Recordless.enabled_twice (h : tx.Recordless) :
    ∃ before between : List Transaction, (∀ u ∈ before ++ between, u.Recordless) ∧
      Move.AllEnabled Vault.empty.balance?
        (History.moves (before ++ tx :: (between ++ [tx]))) := by
  rcases h.moves_eq with hm | ⟨key, amount, hm⟩ | ⟨key, key', amount, hm⟩
  · refine ⟨[], [], nofun, ?_⟩
    simp [History.moves, hm, Move.AllEnabled]
  · -- a credit twice needs room, so another account takes the first one away
    obtain ⟨other, hother⟩ : ∃ other : Address, other ≠ key := by
      by_cases hkey : key = ⟨Bytes32.replicate 0⟩
      · exact ⟨⟨Bytes32.replicate 1⟩, by rw [hkey]; decide⟩
      · exact ⟨_, Ne.symm hkey⟩
    refine ⟨[], [ofSettlement key (.transferPublic key other amount)], ?_, ?_⟩
    · intro u hu
      rw [List.mem_singleton.1 hu]
      exact recordless_transferPublic key other amount
    · rw [History.moves, List.nil_append, List.flatMap_cons, hm, List.flatMap_append,
        List.flatMap_singleton, List.flatMap_singleton, hm]
      exact Move.allEnabled_credit_twice hother amount
  · -- what is transferred is minted first and sent back before it is transferred again
    refine ⟨[ofSettlement key (.mintPublic key amount)],
      [ofSettlement key' (.transferPublic key' key amount)], ?_, ?_⟩
    · intro u hu
      rcases List.mem_cons.1 hu with rfl | hu
      · exact recordless_mintPublic key key amount
      · rw [List.mem_singleton.1 hu]
        exact recordless_transferPublic key' key amount
    · rw [History.moves, List.flatMap_append, List.flatMap_singleton, List.flatMap_cons, hm,
        List.flatMap_append, List.flatMap_singleton, List.flatMap_singleton, hm]
      exact Move.allEnabled_transfer_twice key key' amount

/-- A transaction is applied at most once exactly when its function moves a
record, or when it is not sound and never accepted. -/
theorem appliedOnce_iff (tx : Transaction) :
    tx.AppliedOnce ↔ (tx.Sound → tx.function.consumes ≠ 0 ∨ tx.function.issues ≠ 0) := by
  constructor
  · intro honce hs
    by_contra hnone
    rw [← hs.moves_records, not_or, not_not, not_not] at hnone
    have hbare : tx.Recordless := ⟨hs, hnone.1, hnone.2⟩
    obtain ⟨before, between, hothers, henabled⟩ := hbare.enabled_twice
    have hall : ∀ u ∈ before ++ tx :: (between ++ [tx]), u.Recordless := by
      intro u hu
      by_cases heq : u = tx
      · exact heq ▸ hbare
      · exact hothers u (by simpa [heq] using hu)
    have haccepted := Ledger.accepted_of_allEnabled Vault.Attained.empty.ordered
      Sample.seeds hall henabled
    have hle := honce.once Sample.seeds (before ++ tx :: (between ++ [tx]))
    rw [haccepted, List.count_append, List.count_cons_self, List.count_append,
      List.count_singleton_self] at hle
    omega
  · intro hmoves
    by_cases hs : tx.Sound
    · exact Ledger.appliedOnce_of_records (hs.moves_records.2 (hmoves hs))
    · exact Ledger.appliedOnce_of_unsound hs

end Transaction

namespace Sample

def publicMint : Transaction := .ofSettlement owner (.mintPublic owner 100)

def publicPayment : Transaction :=
  .ofSettlement owner (.transferPublic owner ⟨Bytes32.replicate 2⟩ 40)

end Sample

namespace Transaction

theorem not_appliedOnce_publicPayment :
    (Ledger.ofVault Vault.empty Sample.seeds).accepted
      [Sample.publicMint, Sample.publicPayment, Sample.publicPayment] =
        [Sample.publicMint, Sample.publicPayment, Sample.publicPayment] ∧
      ¬Sample.publicPayment.AppliedOnce := by
  have haccepted : (Ledger.ofVault Vault.empty Sample.seeds).accepted
      [Sample.publicMint, Sample.publicPayment, Sample.publicPayment] =
        [Sample.publicMint, Sample.publicPayment, Sample.publicPayment] := by decide +kernel
  refine ⟨haccepted, fun honce => ?_⟩
  have hle := honce.once Sample.seeds
    [Sample.publicMint, Sample.publicPayment, Sample.publicPayment]
  rw [haccepted] at hle
  exact absurd hle (by decide)

end Transaction

end TokenLedger
