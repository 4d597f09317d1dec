import TokenLedger.Proofs.Ordering
import TokenLedger.Proofs.SnapshotBody
import TokenLedger.Proofs.Views

/-!
# A vault comes back from its snapshot

A snapshot holds tokens in place of stored records, and an empty vault is
filled from it entry by entry. What is filled in order comes out as it was,
so a vault in order that keeps a history is restored in every part.
-/

set_option autoImplicit false

namespace TokenLedger

/-! ## Entries written one by one -/

namespace Balances

theorem foldl_put {m ps : Balances} (h : ((m ++ ps).map Prod.fst).Nodup) :
    ps.foldl (fun m p => m.put p.1 p.2) m = m ++ ps := by
  induction ps generalizing m with
  | nil => rw [List.foldl_nil, List.append_nil]
  | cons p ps ih =>
    have hp : p.1 ∉ m.map Prod.fst := by
      rw [List.map_append, List.nodup_append] at h
      exact fun hmem => h.2.2 p.1 hmem p.1 List.mem_cons_self rfl
    rw [List.append_cons] at h
    rw [List.foldl_cons, put_of_not_mem hp, ih h, ← List.append_cons]

theorem written_nil {m : Balances} (h : Ordered m) : written [] m = m := by
  apply ext_of_ordered (ordered_written List.Pairwise.nil m) h
  intro key
  rw [find?_written h.nodup_keys, find?, Option.or_none]

end Balances

namespace Changes

theorem foldl_put (c : Changes) (ps : Balances) :
    ps.foldl (fun c p => c.put p.1 p.2) c =
      { c with writes := ps.foldl (fun m p => m.put p.1 p.2) c.writes } := by
  induction ps generalizing c with
  | nil => rfl
  | cons p ps ih => exact ih _

theorem foldl_spend (c : Changes) (ns : List SerialNumber) :
    ns.foldl spend c = { c with spent := c.spent ++ ns } := by
  induction ns generalizing c with
  | nil => rw [List.append_nil, List.foldl_nil]
  | cons n ns ih => rw [List.foldl_cons, ih, spend, List.append_assoc, List.singleton_append]

end Changes

namespace Ledger

theorem snapshotChanges_eq (s : Snapshot) : snapshotChanges s =
    ⟨s.accounts.foldl (fun m p => Balances.put p.1 p.2 m) [], s.records.map Token.stored,
      s.spent⟩ := by
  rw [snapshotChanges, Changes.foldl_put, Store.foldl_addRecord, Changes.foldl_spend]
  rfl

theorem snapshotChanges_of_nodup {s : Snapshot} (h : (s.accounts.map Prod.fst).Nodup) :
    snapshotChanges s = ⟨s.accounts, s.records.map Token.stored, s.spent⟩ := by
  have hwrites : s.accounts.foldl (fun m p => Balances.put p.1 p.2 m) [] = s.accounts :=
    Balances.foldl_put h
  rw [snapshotChanges_eq, hwrites]

end Ledger

namespace Vault

theorem foldl_insertSerial_nil {ns : List SerialNumber} (h : ns.Pairwise SerialNumber.Before) :
    ns.foldl (fun ss s => insertSerial s ss) [] = ns := by
  apply serials_ext (pairwise_foldl_insertSerial List.Pairwise.nil ns) h
  intro n
  simp [mem_foldl_insertSerial]

/-! ## What a restore asks for -/

structure Blank (v : Vault) : Prop where
  height : v.height = 0
  records : v.records = []
  balances : v.balances = []

variable {v v' : Vault} {c : Changes} {height : UInt64}

theorem blank_empty : empty.Blank := ⟨rfl, rfl, rfl⟩

theorem Blank.records_write (h : v.Blank) (c : Changes) : (v.write c).records = c.records := by
  rw [write, h.records]
  rfl

theorem Blank.balances_write (h : v.Blank) (c : Changes) :
    (v.write c).balances = Balances.written [] c.writes := by
  rw [write, h.balances]
  rfl

theorem restore_of_not_blank (h : ¬v.Blank) : v.restore c height = .error .notEmpty := by
  rw [restore, if_pos]
  by_contra hblank
  simp only [not_or, not_not] at hblank
  exact h ⟨hblank.1, hblank.2.1, hblank.2.2⟩

theorem restore_of_blank (h : v.Blank) : v.restore c height =
    match c.spent.find? v.isSpent with
    | some n => .error (.serialExists n)
    | none => .ok { v.write c with height := height } := by
  have hrecords : c.records.find? (fun r => v.hasRecord r.commitment) = none := by
    apply List.find?_eq_none.2
    intro r _
    rw [hasRecord, h.records]
    exact Bool.false_ne_true
  have hguard : ¬(v.height ≠ 0 ∨ v.records ≠ [] ∨ v.balances ≠ []) := by
    rw [h.height, h.records, h.balances]
    simp
  rw [restore, if_neg hguard, admits, hrecords]
  cases c.spent.find? v.isSpent <;> rfl

theorem find?_isSpent_eq_none : c.spent.find? v.isSpent = none ↔ ∀ n ∈ c.spent, n ∉ v.spent := by
  rw [List.find?_eq_none]
  exact forall₂_congr fun n _ => not_congr mem_spent_iff.symm

theorem restore_eq_ok : v.restore c height = .ok v' ↔
    v.Blank ∧ (∀ n ∈ c.spent, n ∉ v.spent) ∧ v' = { v.write c with height := height } := by
  by_cases h : v.Blank
  · rw [restore_of_blank h, ← find?_isSpent_eq_none]
    cases c.spent.find? v.isSpent with
    | some n => simp
    | none => simp [h, eq_comm]
  · rw [restore_of_not_blank h]
    exact ⟨nofun, fun hok => absurd hok.1 h⟩

theorem restore_empty (c : Changes) (height : UInt64) :
    empty.restore c height = .ok { empty.write c with height := height } :=
  restore_eq_ok.2 ⟨blank_empty, fun _ _ => List.not_mem_nil, rfl⟩

theorem Ordered.restore_snapshotOf (hv : v.Ordered) {ts : List Token}
    (hrecords : v.records = ts.map Token.stored) :
    empty.restore (Ledger.snapshotChanges (v.snapshotOf ts)) v.height = .ok v := by
  have hchanges : Ledger.snapshotChanges (v.snapshotOf ts) =
      ⟨v.balances, ts.map Token.stored, v.spent⟩ :=
    Ledger.snapshotChanges_of_nodup hv.balances.nodup_keys
  have hwrite : empty.write ⟨v.balances, ts.map Token.stored, v.spent⟩ =
      ⟨v.balances, v.records, v.spent, 0⟩ := by
    have hbalances := Balances.written_nil hv.balances
    rw [Balances.written] at hbalances
    simp only [Vault.write, empty, hbalances, foldl_insertSerial_nil hv.spent, List.nil_append,
      hrecords]
  rw [hchanges, restore_empty, hwrite]

/-- All lists are short enough to be counted in eight bytes, as lists that fit a memory are. -/
structure Countable (v : Vault) : Prop where
  balances : v.balances.length < Radix.capacity 256 8
  records : v.records.length < Radix.capacity 256 8
  spent : v.spent.length < Radix.capacity 256 8

theorem Countable.snapshotOf (hc : v.Countable) {ts : List Token}
    (hrecords : v.records = ts.map Token.stored) : (v.snapshotOf ts).Countable := by
  have hlength := hc.records
  rw [hrecords, List.length_map] at hlength
  exact ⟨hc.balances, hlength, hc.spent⟩

end Vault

theorem Store.restore_ofVault (v : Vault) (c : Changes) (height : UInt64) :
    (ofVault v).restore c height = ofVault <$> v.restore c height := rfl

namespace Ledger

/-- A ledger gives a snapshot, the snapshot is accepted from its bytes, and over an empty
vault it becomes the same store again, under any seeds. -/
def Restores (l : Ledger) : Prop :=
  ∃ s, l.snapshot = .ok s ∧ Snapshot.ofBytes s.toBytes = .ok s ∧
    ∀ seeds, ofSnapshot s (Store.ofVault Vault.empty) seeds = .ok ⟨l.store, seeds⟩

variable {v : Vault} {h : History}

theorem ofSnapshot_eq_ok {s : Snapshot} {seeds : SeedSource} {l : Ledger} :
    ofSnapshot s (Store.ofVault v) seeds = .ok l ↔ s.verify = true ∧
      ∃ v', v.restore (snapshotChanges s) s.height = .ok v' ∧ l = ofVault v' seeds := by
  rw [ofSnapshot]
  split
  · next hverify =>
    rw [Answers.bind_eq_ok, LedgerError.liftStore, Store.restore_ofVault]
    simp only [Answers.mapError_eq_ok, Answers.map_eq_ok, Answers.pure_eq, Except.ok.injEq]
    constructor
    · rintro ⟨store, ⟨v', hv', rfl⟩, rfl⟩
      exact ⟨hverify, v', hv', rfl⟩
    · rintro ⟨-, v', hv', rfl⟩
      exact ⟨_, ⟨v', hv', rfl⟩, rfl⟩
  · next hverify => exact ⟨nofun, fun h => absurd h.1 hverify⟩

theorem ofSnapshot_snapshotOf (hv : v.Ordered) {ts : List Token}
    (hrecords : v.records = ts.map Token.stored) (seeds : SeedSource) :
    ofSnapshot (v.snapshotOf ts) (Store.ofVault Vault.empty) seeds = .ok (ofVault v seeds) :=
  ofSnapshot_eq_ok.2 ⟨Snapshot.verify_create .., v, hv.restore_snapshotOf hrecords, rfl⟩

theorem restores_keeps (hk : v.Keeps h) (hv : v.Ordered) (hn : h.Named) (hc : v.Countable)
    (seeds : SeedSource) : (ofVault v seeds).Restores :=
  ⟨_, snapshot_keeps hk hn seeds,
    Snapshot.ofBytes_toBytes (hc.snapshotOf hk.records) rfl (Snapshot.verify_create ..),
    ofSnapshot_snapshotOf hv hk.records⟩

end Ledger

end TokenLedger
