import TokenLedger.Proofs.Indexes
import TokenLedger.Proofs.Restoring

/-!
# Vaults that are filled again

A restore is meant for an empty vault, and asks for the height, the records
and the balances before it writes. It does not ask for published serial
numbers: those that are there already stay among those that are restored.
Which operations leave such numbers in a vault is read off its history.
-/

set_option autoImplicit false

namespace TokenLedger

inductive StoreOperation where
  | update (u : Update)
  | publish (s : SerialNumber)

namespace StoreOperation

def serials : StoreOperation → List SerialNumber
  | update u => u.changes.spent
  | publish s => [s]

def Silent : StoreOperation → Prop
  | update (.commit _) => False
  | update (.restore c height) => height = 0 ∧ c.records = [] ∧ c.writes = []
  | publish _ => True

end StoreOperation

namespace Vault

/-! ## Operations on a vault -/

def operate (v : Vault) : StoreOperation → Except StoreError Unit × Vault
  | .update u => v.update u
  | .publish s => (.ok (), v.publish s)

def operateAll (v : Vault) : List StoreOperation → Vault
  | [] => v
  | op :: ops => (v.operate op).2.operateAll ops

def performed (v : Vault) : List StoreOperation → List StoreOperation
  | [] => []
  | op :: ops =>
    match v.operate op with
    | (.ok (), v') => op :: v'.performed ops
    | (.error _, v') => v'.performed ops

/-- No commit of a run meets a height that has no successor. -/
def Counts (v : Vault) : List StoreOperation → Prop
  | [] => True
  | op :: ops => ((∃ c, op = .update (.commit c)) → v.height + 1 ≠ 0) ∧ (v.operate op).2.Counts ops

structure Holds (v : Vault) (c : Changes) (height : UInt64) : Prop where
  balance : ∀ key, v.balance? key = Balances.find? key c.writes.reverse
  ordered : v.balances.Ordered
  records : v.records = c.records
  spent : ∀ n, v.isSpent n = true ↔ n ∈ c.spent
  height : v.height = height

variable {v v' : Vault} {c : Changes} {height : UInt64} {n : SerialNumber}

theorem eq_empty_iff : v = empty ↔ v.Blank ∧ v.spent = [] := by
  constructor
  · rintro rfl
    exact ⟨blank_empty, rfl⟩
  · rintro ⟨⟨hheight, hrecords, hbalances⟩, hspent⟩
    cases v
    simp_all [empty]

/-! ## One restore -/

theorem isSpent_write : (v.write c).isSpent n = true ↔ n ∈ v.spent ++ c.spent := by
  rw [← mem_spent_iff, write, mem_foldl_insertSerial, List.mem_append]
  exact or_comm

theorem holds_of_restore (h : v.restore c height = .ok v') :
    v'.Holds { c with spent := v.spent ++ c.spent } height := by
  obtain ⟨hblank, -, rfl⟩ := restore_eq_ok.1 h
  refine ⟨fun key => ?_, ?_, hblank.records_write c, fun n => isSpent_write, rfl⟩
  · rw [balance?, hblank.balances_write, Balances.find?_written_reverse]
    exact Option.or_none
  · rw [hblank.balances_write]
    exact Balances.ordered_written List.Pairwise.nil _

/-- A restore succeeds on the empty vault only, which then holds what it is given, and
changes nothing where it fails. -/
structure FillsEmpty (v : Vault) (c : Changes) (height : UInt64) : Prop where
  empty : (v.update (.restore c height)).1 = .ok () → v = empty
  holds : (v.update (.restore c height)).1 = .ok () →
    (v.update (.restore c height)).2.Holds c height
  refused : ∀ e, (v.update (.restore c height)).1 = .error e →
    (v.update (.restore c height)).2 = v

structure Refills (v : Vault) (c : Changes) (height : UInt64) : Prop where
  succeeds : (v.update (.restore c height)).1 = .ok () ↔ v.Blank ∧ ∀ n ∈ c.spent, n ∉ v.spent
  fails : ∀ e, (v.update (.restore c height)).1 = .error e ↔
    (¬v.Blank ∧ e = .notEmpty) ∨
      v.Blank ∧ ∃ n, c.spent.find? v.isSpent = some n ∧ e = .serialExists n
  refused : ∀ e, (v.update (.restore c height)).1 = .error e →
    (v.update (.restore c height)).2 = v
  holds : (v.update (.restore c height)).1 = .ok () →
    (v.update (.restore c height)).2.Holds { c with spent := v.spent ++ c.spent } height

theorem update_restore_iff : (v.update (.restore c height)).1 = .ok () ↔
    v.Blank ∧ ∀ n ∈ c.spent, n ∉ v.spent := by
  constructor
  · intro h
    obtain ⟨hblank, hnew, -⟩ := restore_eq_ok.1 (attempt_of_update h)
    exact ⟨hblank, hnew⟩
  · rintro ⟨hblank, hnew⟩
    have hok : v.attempt (.restore c height) = .ok { v.write c with height := height } :=
      restore_eq_ok.2 ⟨hblank, hnew, rfl⟩
    rw [update_of_ok hok]

theorem update_restore_error_iff {e : StoreError} :
    (v.update (.restore c height)).1 = .error e ↔ (¬v.Blank ∧ e = .notEmpty) ∨
      v.Blank ∧ ∃ n, c.spent.find? v.isSpent = some n ∧ e = .serialExists n := by
  by_cases hblank : v.Blank
  · rw [update, attempt, restore_of_blank hblank]
    cases c.spent.find? v.isSpent with
    | none => simp [hblank]
    | some n => simp [hblank, eq_comm]
  · rw [update, attempt, restore_of_not_blank hblank]
    simp [hblank, eq_comm]

theorem refills (v : Vault) (c : Changes) (height : UInt64) : v.Refills c height where
  succeeds := update_restore_iff
  fails _ := update_restore_error_iff
  refused _ := update_error
  holds h := holds_of_restore (attempt_of_update h)

theorem fillsEmpty_iff : v.FillsEmpty c height ↔
    ((v.update (.restore c height)).1 = .ok () → v.spent = []) := by
  constructor
  · intro h hok
    exact (eq_empty_iff.1 (h.empty hok)).2
  · intro hspent
    refine ⟨fun hok => ?_, fun hok => ?_, fun _ => update_error⟩
    · exact eq_empty_iff.2 ⟨(update_restore_iff.1 hok).1, hspent hok⟩
    · have hholds := (v.refills c height).holds hok
      rwa [hspent hok] at hholds

/-- Whatever is restored, published serial numbers are all that can be left over. -/
theorem forall_fillsEmpty_iff :
    (∀ c height, v.FillsEmpty c height) ↔ ¬(v.Blank ∧ v.spent ≠ []) := by
  simp only [fillsEmpty_iff, update_restore_iff, not_and, not_not]
  constructor
  · intro h hblank
    exact h Changes.empty 0 ⟨hblank, nofun⟩
  · intro h c height hok
    exact h hok.1

/-! ## A history of operations -/

variable {op : StoreOperation} {ops : List StoreOperation}

theorem blank_operate_iff (hok : (v.operate op).1 = .ok ())
    (hcount : (∃ c, op = .update (.commit c)) → v.height + 1 ≠ 0) :
    (v.operate op).2.Blank ↔ v.Blank ∧ op.Silent := by
  cases op with
  | publish s => exact ⟨fun h => ⟨⟨h.height, h.records, h.balances⟩, trivial⟩,
      fun h => ⟨h.1.height, h.1.records, h.1.balances⟩⟩
  | update u =>
    have hattempt : v.attempt u = .ok (v.operate (.update u)).2 := attempt_of_update hok
    cases u with
    | commit c =>
      -- a commit is counted, so the height gives it away
      rw [(commit_eq_ok.1 hattempt).2]
      exact ⟨fun h => absurd h.height (hcount ⟨c, rfl⟩), fun h => h.2.elim⟩
    | restore c height =>
      obtain ⟨hblank, -, hv'⟩ := restore_eq_ok.1 hattempt
      have hrecords := hblank.records_write c
      have hbalances := hblank.balances_write c
      rw [hv']
      constructor
      · rintro ⟨hheight, hr, hb⟩
        exact ⟨hblank, hheight, hrecords ▸ hr, Balances.written_eq_nil_iff.1 (hbalances ▸ hb)⟩
      · rintro ⟨-, hheight, hr, hw⟩
        exact ⟨hheight, hrecords.trans hr, hbalances.trans (Balances.written_eq_nil_iff.2 hw)⟩

theorem mem_spent_operate (hok : (v.operate op).1 = .ok ()) :
    n ∈ (v.operate op).2.spent ↔ n ∈ v.spent ∨ n ∈ op.serials := by
  cases op with
  | publish s =>
    show n ∈ insertSerial s v.spent ↔ n ∈ v.spent ∨ n ∈ [s]
    rw [mem_insertSerial, List.mem_singleton, or_comm]
  | update u =>
    have hattempt : v.attempt u = .ok (v.operate (.update u)).2 := attempt_of_update hok
    have hspent : (v.operate (.update u)).2.spent = (v.write u.changes).spent := by
      cases u with
      | commit c => rw [(commit_eq_ok.1 hattempt).2]; rfl
      | restore c height => rw [(restore_eq_ok.1 hattempt).2.2]; rfl
    rw [hspent, write, mem_foldl_insertSerial, or_comm]
    rfl

theorem operate_error {e : StoreError} (h : (v.operate op).1 = .error e) : (v.operate op).2 = v := by
  cases op with
  | publish s => cases h
  | update u => exact update_error h

theorem operate_cases (v : Vault) (op : StoreOperation) (ops : List StoreOperation) :
    ((v.operate op).1 = .ok () ∧
      v.performed (op :: ops) = op :: (v.operate op).2.performed ops) ∨
    ((v.operate op).2 = v ∧ v.performed (op :: ops) = v.performed ops) := by
  rw [performed]
  cases hop : v.operate op with
  | mk answer v' =>
    cases answer with
    | ok _ => exact .inl ⟨rfl, rfl⟩
    | error e =>
      have hkept : (v.operate op).2 = v := operate_error (by rw [hop])
      rw [hop] at hkept
      exact .inr ⟨hkept, by rw [← hkept]⟩

theorem blank_operateAll_iff (hcounts : v.Counts ops) :
    (v.operateAll ops).Blank ↔ v.Blank ∧ ∀ op ∈ v.performed ops, op.Silent := by
  induction ops generalizing v with
  | nil => simp [operateAll, performed]
  | cons op ops ih =>
    obtain ⟨hcount, hcounts⟩ := hcounts
    have hrest := ih hcounts
    rw [operateAll, hrest]
    rcases v.operate_cases op ops with ⟨hok, hperformed⟩ | ⟨hkept, hperformed⟩
    · rw [hperformed, blank_operate_iff hok hcount, List.forall_mem_cons, and_assoc]
    · rw [hperformed, hkept]

theorem mem_spent_operateAll : n ∈ (v.operateAll ops).spent ↔
    n ∈ v.spent ∨ n ∈ (v.performed ops).flatMap StoreOperation.serials := by
  induction ops generalizing v with
  | nil => simp [operateAll, performed]
  | cons op ops ih =>
    rw [operateAll, ih]
    rcases v.operate_cases op ops with ⟨hok, hperformed⟩ | ⟨hkept, hperformed⟩
    · rw [hperformed, mem_spent_operate hok, List.flatMap_cons, List.mem_append, or_assoc]
    · rw [hperformed, hkept]

end Vault

/-! ## A ledger over a vault that is filled again -/

namespace Ledger

structure TakesOver (l : Ledger) (s : Snapshot) (before : List SerialNumber) : Prop where
  holds : l.store.vault.Holds ⟨s.accounts, s.records.map Token.stored, before ++ s.spent⟩ s.height
  isSpent : ∀ t, l.isSpent t = .ok (decide (t.serial ∈ s.spent ∨ t.serial ∈ before))

variable {v : Vault} {s : Snapshot} {seeds : SeedSource} {l : Ledger}

theorem find?_snapshotChanges (s : Snapshot) (key : Address) :
    Balances.find? key (snapshotChanges s).writes.reverse =
      Balances.find? key s.accounts.reverse := by
  have hnodup := Balances.nodup_foldl_put (m := []) List.nodup_nil s.accounts
  rw [snapshotChanges_eq, Balances.find?_reverse hnodup, Balances.find?_foldl
    Balances.find?_put_self fun _ _ value m h => Balances.find?_put_of_ne h value m]
  exact Option.or_none

theorem exists_ofSnapshot_iff : (∃ l, ofSnapshot s (Store.ofVault v) seeds = .ok l) ↔
    s.verify = true ∧ v.Blank ∧ ∀ n ∈ s.spent, n ∉ v.spent := by
  have hspent : (snapshotChanges s).spent = s.spent := by rw [snapshotChanges_eq]
  simp only [ofSnapshot_eq_ok, Vault.restore_eq_ok, hspent]
  constructor
  · rintro ⟨l, hverify, v', ⟨hblank, hnew, -⟩, -⟩
    exact ⟨hverify, hblank, hnew⟩
  · rintro ⟨hverify, hblank, hnew⟩
    exact ⟨_, hverify, _, ⟨hblank, hnew, rfl⟩, rfl⟩

theorem takesOver_of_ofSnapshot (h : ofSnapshot s (Store.ofVault v) seeds = .ok l) :
    l.TakesOver s v.spent := by
  obtain ⟨-, v', hv', rfl⟩ := ofSnapshot_eq_ok.1 h
  have hholds := Vault.holds_of_restore hv'
  have hrecords : (snapshotChanges s).records = s.records.map Token.stored := by
    rw [snapshotChanges_eq]
  have hspent : (snapshotChanges s).spent = s.spent := by rw [snapshotChanges_eq]
  have hisSpent (n : SerialNumber) : v'.isSpent n = true ↔ n ∈ v.spent ++ s.spent :=
    hspent ▸ hholds.spent n
  refine ⟨⟨fun key => ?_, hholds.ordered, hholds.records.trans hrecords, hisSpent,
    hholds.height⟩, fun t => ?_⟩
  · exact (hholds.balance key).trans (find?_snapshotChanges s key)
  · have hiff : v'.isSpent t.serial = true ↔ t.serial ∈ s.spent ∨ t.serial ∈ v.spent := by
      rw [hisSpent, List.mem_append, or_comm]
    rw [isSpent_ofVault, Bool.eq_iff_iff.2 (hiff.trans decide_eq_true_iff.symm)]

end Ledger

namespace Vault

structure Restorable (ops : List StoreOperation) (v : Vault) : Prop where
  refills : ∀ c height, v.Refills c height
  fillsEmpty : (∀ c height, v.FillsEmpty c height) ↔ ¬(v.Blank ∧ v.spent ≠ [])
  blank : empty.Counts ops → (v.Blank ↔ ∀ op ∈ empty.performed ops, op.Silent)
  spent : ∀ n, n ∈ v.spent ↔ n ∈ (empty.performed ops).flatMap StoreOperation.serials
  taken : ∀ s seeds, (∃ l, Ledger.ofSnapshot s (Store.ofVault v) seeds = .ok l) ↔
    s.verify = true ∧ v.Blank ∧ ∀ n ∈ s.spent, n ∉ v.spent
  takesOver : ∀ s seeds l, Ledger.ofSnapshot s (Store.ofVault v) seeds = .ok l →
    l.TakesOver s v.spent

theorem restorable_operateAll (ops : List StoreOperation) :
    Restorable ops (empty.operateAll ops) where
  refills := (empty.operateAll ops).refills
  fillsEmpty := forall_fillsEmpty_iff
  blank hcounts := by
    rw [blank_operateAll_iff hcounts]
    exact and_iff_right blank_empty
  spent n := by
    rw [mem_spent_operateAll]
    exact or_iff_right List.not_mem_nil
  taken _ _ := Ledger.exists_ofSnapshot_iff
  takesOver _ _ _ := Ledger.takesOver_of_ofSnapshot

def leftover : Vault :=
  empty.operateAll [.update (.restore ⟨[], [], [(Sample.record 100 1).serial]⟩ 0)]

/-- The vault is restored a second time, and the record that comes with this is marked as spent
although nothing lists it as spent. -/
theorem not_fillsEmpty_leftover :
    (leftover.update (.restore ⟨[], [(Sample.record 100 1).stored], []⟩ 12)).1 = .ok () ∧
      leftover ≠ empty ∧
      ¬leftover.FillsEmpty ⟨[], [(Sample.record 100 1).stored], []⟩ 12 ∧
      ∃ l, Ledger.ofSnapshot (.create [] [Sample.record 100 1] [] 12) (Store.ofVault leftover)
          Sample.seeds = .ok l ∧ l.isSpent (Sample.record 100 1) = .ok true := by
  have hleft : leftover.spent = [(Sample.record 100 1).serial] := rfl
  have hblank : leftover.Blank := ⟨rfl, rfl, rfl⟩
  have hok : (leftover.update (.restore ⟨[], [(Sample.record 100 1).stored], []⟩ 12)).1 = .ok () :=
    update_restore_iff.2 ⟨hblank, nofun⟩
  have hne : leftover ≠ empty := by
    intro h
    have hnone := (eq_empty_iff.1 h).2
    rw [hleft] at hnone
    cases hnone
  have hverify := Snapshot.verify_create [] [Sample.record 100 1] [] 12
  have htaken : ∃ l, Ledger.ofSnapshot (.create [] [Sample.record 100 1] [] 12)
      (Store.ofVault leftover) Sample.seeds = .ok l :=
    Ledger.exists_ofSnapshot_iff.2 ⟨hverify, hblank, nofun⟩
  obtain ⟨l, hl⟩ := htaken
  refine ⟨hok, hne, fun h => hne (h.empty hok), l, hl, ?_⟩
  rw [(Ledger.takesOver_of_ofSnapshot hl).isSpent, hleft]
  simp

end Vault

end TokenLedger
