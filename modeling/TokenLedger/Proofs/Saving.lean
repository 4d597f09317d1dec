import Mathlib.Data.Set.Finite.List
import TokenLedger.Proofs.Footprint
import TokenLedger.Proofs.Reached

/-!
# What a save keeps, whatever the hash does

A snapshot holds for every commitment in the order of issue the token that is
read under it. The vault that is filled from it reads the same: only where
one commitment was given to two tokens, the entry of the first is for the
owner of the second. A vault that reads the same takes the same transactions
and answers the same to all questions but the one for an owner's records.
-/

set_option autoImplicit false

namespace TokenLedger

namespace Vault

/-- The same commitments in the same order, and the same record under each of them. -/
structure SameReading (v w : Vault) : Prop where
  balances : v.balances = w.balances
  names : v.records.map StoredRecord.commitment = w.records.map StoredRecord.commitment
  stored : ∀ c, v.record? c = w.record? c
  spent : v.spent = w.spent
  height : v.height = w.height

variable {v v' w w' : Vault} {tx : Transaction}

namespace SameReading

theorem refl (v : Vault) : v.SameReading v where
  balances := rfl
  names := rfl
  stored _ := rfl
  spent := rfl
  height := rfl

theorem trans {u : Vault} (h : u.SameReading v) (h' : v.SameReading w) : u.SameReading w where
  balances := h.balances.trans h'.balances
  names := h.names.trans h'.names
  stored c := (h.stored c).trans (h'.stored c)
  spent := h.spent.trans h'.spent
  height := h.height.trans h'.height

theorem hasRecord (h : v.SameReading w) (c : Commitment) : v.hasRecord c = w.hasRecord c := by
  rw [Bool.eq_iff_iff, hasRecord_iff, hasRecord_iff, h.names]

theorem isSpent (h : v.SameReading w) (n : SerialNumber) : v.isSpent n = w.isSpent n := by
  rw [Vault.isSpent, Vault.isSpent, h.spent]

theorem token? (h : v.SameReading w) : v.token? = w.token? := token?_congr h.stored

theorem tokens (h : v.SameReading w) : v.tokens = w.tokens := by
  have hfilter (u : Vault) :
      u.tokens = (u.records.map StoredRecord.commitment).filterMap u.token? := by
    rw [List.filterMap_map]
    rfl
  rw [hfilter, hfilter, h.names, h.token?]

theorem unspent (h : v.SameReading w) : v.unspent = w.unspent := unspent_congr h.spent

theorem agrees (h : v.SameReading w) (tx : Transaction) : v.Agrees w tx where
  inputs c _ := h.hasRecord c
  serials t _ := h.isSpent t.serial
  accounts a _ := by rw [balance?, balance?, h.balances]
  outputs c _ := h.hasRecord c

theorem countable (h : v.SameReading w) (hc : v.Countable) : w.Countable where
  balances := h.balances ▸ hc.balances
  records := by
    have hlength := congrArg List.length h.names
    rw [List.length_map, List.length_map] at hlength
    exact hlength ▸ hc.records
  spent := h.spent ▸ hc.spent

theorem outcome (h : v.SameReading w) (hv : v.Outcome tx v') (hw : w.Outcome tx w') :
    v'.SameReading w' where
  balances := by
    refine Balances.ext_of_ordered hv.ordered.balances hw.ordered.balances fun a => ?_
    have hsame : v.balance? = w.balance? := by
      funext key
      rw [balance?, balance?, h.balances]
    exact (hv.balance a).trans (hsame ▸ (hw.balance a).symm)
  names := by rw [hv.records, hw.records, List.map_append, List.map_append, h.names]
  stored c := by
    have hold := h.stored c
    simp only [record?] at hold ⊢
    rw [hv.records, hw.records, List.reverse_append, List.reverse_append, List.find?_append,
      List.find?_append, hold]
  spent := by
    refine serials_ext hv.ordered.spent hw.ordered.spent fun n => ?_
    rw [mem_spent_iff, mem_spent_iff, hv.spent, hw.spent, h.isSpent]
  height := by rw [hv.height, hw.height, h.height]

end SameReading

/-- A vault beside another that reads the same, both as they can be reached. -/
structure Tracks (v w : Vault) : Prop where
  reading : v.SameReading w
  ordered : v.Ordered
  genuine : v.Genuine
  ordered' : w.Ordered
  genuine' : w.Genuine

theorem Tracks.refl (hv : v.Ordered) (hg : v.Genuine) : v.Tracks v := ⟨.refl v, hv, hg, hv, hg⟩

/-! ## The vault of a snapshot -/

/-- The vault with the record that is read in the place of every record. -/
def reread (v : Vault) : Vault := { v with records := v.tokens.map Token.stored }

theorem Genuine.commitment_of_token? (hv : v.Genuine) {c : Commitment} {t : Token}
    (h : v.token? c = some t) : t.commitment = c := by
  obtain ⟨r, hr, htoken⟩ := Option.bind_eq_some_iff.1 h
  obtain ⟨hmem, hname⟩ := mem_of_record? hr
  obtain ⟨u, rfl⟩ := hv r hmem
  rw [Token.stored, Token.ofBytes_toBytes] at htoken
  cases htoken
  exact hname

theorem Genuine.map_commitment_tokens (hv : v.Genuine) :
    v.tokens.map Token.commitment = v.records.map StoredRecord.commitment := by
  rw [tokens, List.map_filterMap, ← List.filterMap_eq_map]
  refine List.filterMap_congr fun r hr => ?_
  obtain ⟨t, -, htoken⟩ := hv.record? (hasRecord_of_mem_records hr)
  rw [htoken, Option.map_some, hv.commitment_of_token? htoken]
  rfl

theorem genuine_reread (v : Vault) : v.reread.Genuine := by
  intro r hr
  obtain ⟨t, -, rfl⟩ := List.mem_map.1 hr
  exact ⟨t, rfl⟩

theorem Genuine.sameReading_reread (hv : v.Genuine) : v.SameReading v.reread := by
  have hnames : v.records.map StoredRecord.commitment =
      v.reread.records.map StoredRecord.commitment := by
    rw [← hv.map_commitment_tokens, Vault.reread, List.map_map]
    rfl
  have hhas (c : Commitment) : v.hasRecord c = v.reread.hasRecord c := by
    rw [Bool.eq_iff_iff, hasRecord_iff, hasRecord_iff, hnames]
  refine ⟨rfl, hnames, fun c => ?_, rfl, rfl⟩
  cases hknown : v.hasRecord c with
  | false =>
    have hnone (u : Vault) (h : u.hasRecord c = false) : u.record? c = none := by
      rw [← Option.not_isSome_iff_eq_none, u.isSome_record?, h]
      exact Bool.false_ne_true
    rw [hnone v hknown, hnone v.reread (hhas c ▸ hknown)]
  | true =>
    -- whichever entry of the name comes last, it is the token that was read under the name
    obtain ⟨t, hrecord, htoken⟩ := hv.record? hknown
    obtain ⟨u, hrecord', -⟩ := v.genuine_reread.record? (hhas c ▸ hknown)
    obtain ⟨hmem, hname⟩ := mem_of_record? hrecord'
    obtain ⟨u', hu', hstored⟩ := List.mem_map.1 hmem
    obtain ⟨r, -, hread⟩ := List.mem_filterMap.1 hu'
    have hr : r.commitment = c := by
      rw [← hv.commitment_of_token? hread, ← hname, ← hstored]
      rfl
    rw [hr, htoken] at hread
    cases hread
    rw [hrecord, hrecord', hstored]

theorem Ordered.reread (hv : v.Ordered) : v.reread.Ordered := ⟨hv.balances, hv.spent⟩

theorem Genuine.owner_of_mem_reread (hv : v.Genuine) {a : Address} {c : Commitment}
    (hc : c ∈ v.reread.recordsOf a) : ∃ t, v.token? c = some t ∧ t.owner = a := by
  obtain ⟨r, hr, rfl⟩ := List.mem_map.1 hc
  obtain ⟨hmem, howner⟩ := List.mem_filter.1 hr
  obtain ⟨t, ht, rfl⟩ := List.mem_map.1 hmem
  obtain ⟨r', -, htoken⟩ := List.mem_filterMap.1 ht
  have hname : t.stored.commitment = r'.commitment := hv.commitment_of_token? htoken
  exact ⟨t, hname ▸ htoken, of_decide_eq_true howner⟩

end Vault

namespace Ledger

variable {v w : Vault}

theorem snapshot_genuine (hg : v.Genuine) (seeds : SeedSource) :
    (ofVault v seeds).snapshot = .ok (v.snapshotOf v.tokens) := by
  have hbalances : (ofVault v seeds).store.balances = .ok v.balances := rfl
  have hrecords : (ofVault v seeds).store.allRecords = .ok v.allRecords := rfl
  rw [snapshot, hbalances, hrecords, Answers.liftStore_ok, Answers.liftStore_ok,
    Answers.ok_bind, Answers.ok_bind, hg.allRecords, mapM_stored]
  rfl

/-- A ledger gives a snapshot, the snapshot is accepted from its bytes, and over an empty vault
it becomes a ledger that reads the same, under any seeds. -/
def Revives (l : Ledger) : Prop :=
  ∃ s v, l.snapshot = .ok s ∧ Snapshot.ofBytes s.toBytes = .ok s ∧ l.store.vault.SameReading v ∧
    ∀ seeds, ofSnapshot s (Store.ofVault Vault.empty) seeds = .ok (ofVault v seeds)

theorem ofBytes_snapshotOf (hg : v.Genuine) (hc : v.Countable) :
    Snapshot.ofBytes (v.snapshotOf v.tokens).toBytes = .ok (v.snapshotOf v.tokens) := by
  have hcount : v.reread.Countable := hg.sameReading_reread.countable hc
  exact Snapshot.ofBytes_toBytes (hcount.snapshotOf rfl) rfl (Snapshot.verify_create ..)

theorem ofSnapshot_reread (hv : v.Ordered) (seeds : SeedSource) :
    ofSnapshot (v.snapshotOf v.tokens) (Store.ofVault Vault.empty) seeds =
      .ok (ofVault v.reread seeds) :=
  ofSnapshot_snapshotOf hv.reread rfl seeds

theorem revives_genuine (hv : v.Ordered) (hg : v.Genuine) (hc : v.Countable) (seeds : SeedSource) :
    (ofVault v seeds).Revives :=
  ⟨_, v.reread, snapshot_genuine hg seeds, ofBytes_snapshotOf hg hc, hg.sameReading_reread,
    ofSnapshot_reread hv⟩

/-! ## Ledgers that read the same -/

theorem apply_tracks (h : v.Tracks w) (seeds : SeedSource) (tx : Transaction) :
    ∃ v' w' : Vault, ((ofVault v seeds).apply tx).2 = ofVault v' seeds ∧
      (ofVault w seeds).apply tx = (((ofVault v seeds).apply tx).1, ofVault w' seeds) ∧
        v'.Tracks w' := by
  rcases v.admissible_or_violates tx with ha | ⟨e, hviolates⟩
  · obtain ⟨v', hout, happly⟩ := apply_of_admissible h.ordered ha seeds
    obtain ⟨w', hout', happly'⟩ :=
      apply_of_admissible h.ordered' ((h.reading.agrees tx).admissible ha) seeds
    have hreading := h.reading.outcome hout hout'
    refine ⟨v', w', by rw [happly], by rw [happly, happly', hreading.height], hreading,
      hout.ordered, hout.genuine h.genuine, hout'.ordered, hout'.genuine h.genuine'⟩
  · have happly := apply_of_violates h.ordered hviolates seeds
    have happly' := apply_of_violates h.ordered' ((h.reading.agrees tx).violates hviolates) seeds
    exact ⟨v, w, by rw [happly], by rw [happly, happly'], h⟩

theorem applyEach_tracks (h : v.Tracks w) (seeds : SeedSource)
    (attempts : List (Except LedgerError Transaction)) :
    ∃ v' w' : Vault, ((ofVault v seeds).applyEach attempts).2 = ofVault v' seeds ∧
      (ofVault w seeds).applyEach attempts =
        (((ofVault v seeds).applyEach attempts).1, ofVault w' seeds) ∧ v'.Tracks w' := by
  induction attempts generalizing v w with
  | nil => exact ⟨v, w, rfl, rfl, h⟩
  | cons attempt attempts ih =>
    cases attempt with
    | error e =>
      obtain ⟨v', w', hv', hw', h'⟩ := ih h
      exact ⟨v', w', hv', by rw [applyEach, hw']; rfl, h'⟩
    | ok tx =>
      obtain ⟨v₁, w₁, hv₁, hw₁, h₁⟩ := apply_tracks h seeds tx
      obtain ⟨v', w', hv', hw', h'⟩ := ih h₁
      rw [applyEach_cons, applyEach_cons, attempt, attempt, hv₁, hw₁]
      exact ⟨v', w', hv', by rw [hw'], h'⟩

theorem perform_tracks (h : v.Tracks w) (seeds : SeedSource) (op : Operation) :
    ∃ (v' w' : Vault) (seeds' : SeedSource), ((ofVault v seeds).perform op).2 = ofVault v' seeds' ∧
      (ofVault w seeds).perform op =
        (((ofVault v seeds).perform op).1, ofVault w' seeds') ∧ v'.Tracks w' := by
  -- what an operation attempts depends on the seeds, not on the vault
  have hattempts : (ofVault w seeds).attempts op = (ofVault v seeds).attempts op := by
    cases op <;> rfl
  obtain ⟨v', w', hv', hw', h'⟩ := applyEach_tracks h ((ofVault v seeds).attempts op).2
    ((ofVault v seeds).attempts op).1
  refine ⟨v', w', _, by rw [perform_eq]; exact hv', ?_, h'⟩
  rw [perform_eq, perform_eq, hattempts, drawn, hattempts]
  exact hw'

theorem unspentRecord_tracks (h : v.SameReading w) (seeds : SeedSource) (c : Commitment) :
    (ofVault w seeds).unspentRecord c = (ofVault v seeds).unspentRecord c := by
  have hknown : (ofVault w seeds).store.hasRecord c = (ofVault v seeds).store.hasRecord c :=
    congrArg Except.ok (h.hasRecord c).symm
  have hspent :
      (ofVault w seeds).store.isSpent c.serial = (ofVault v seeds).store.isSpent c.serial :=
    congrArg Except.ok (h.isSpent c.serial).symm
  have hrecord : (ofVault w seeds).store.record c = (ofVault v seeds).store.record c := by
    simp only [Store.record, ofVault, Store.ofVault, Store.answer, h.stored]
    rfl
  rw [unspentRecord, unspentRecord, load, load, hknown, hspent, hrecord]

theorem totalSupply_tracks (h : v.Tracks w) (seeds : SeedSource) :
    (ofVault w seeds).totalSupply = (ofVault v seeds).totalSupply := by
  rw [totalSupply_genuine h.genuine, totalSupply_genuine h.genuine', h.reading.balances,
    h.reading.tokens, h.reading.unspent]

theorem snapshot_tracks (h : v.Tracks w) (seeds : SeedSource) :
    (ofVault w seeds).snapshot = (ofVault v seeds).snapshot := by
  rw [snapshot_genuine h.genuine, snapshot_genuine h.genuine', Vault.snapshotOf, Vault.snapshotOf,
    h.reading.balances, h.reading.tokens, h.reading.spent, h.reading.height]

end Ledger

/-! ## One commitment for two owners -/

instance finite_byte : Finite UInt8 :=
  Finite.of_injective UInt8.toFin fun _ _ h => UInt8.toFin_inj.1 h

instance finite_bytes32 : Finite Bytes32 := by
  have hlists : {bs : Bytes | bs.length = 32}.Finite := List.finite_length_eq UInt8 32
  have := hlists.to_subtype
  let split (b : Bytes32) : {bs : Bytes | bs.length = 32} := ⟨b.toList, b.length_toList⟩
  exact Finite.of_injective split fun _ _ h => Bytes32.ext (congrArg Subtype.val h)

namespace Sample

def blank (key nonce : Bytes32) : Token := ⟨⟨key⟩, 0, nonce⟩

theorem serial_blank_ne :
    (blank default default).serial ≠ (blank default (Bytes32.replicate 1)).serial := by
  decide +kernel

end Sample

/-- There are as many owners as commitments. So the owners of records that differ in nothing
else have all commitments between them, if they have no two alike, and the commitment of any
other record is one of them. -/
theorem exists_shared_commitment : ∃ key key' nonce nonce' : Bytes32, key ≠ key' ∧
    (Sample.blank key nonce).commitment = (Sample.blank key' nonce').commitment := by
  let commit (key : Bytes32) : Bytes32 := (Sample.blank key default).commitment.digest
  by_cases hinj : Function.Injective commit
  · let other := Sample.blank default (Bytes32.replicate 1)
    obtain ⟨key, hkey⟩ := Finite.injective_iff_surjective.1 hinj other.commitment.digest
    have hname : (Sample.blank key default).commitment = other.commitment :=
      congrArg Commitment.mk hkey
    refine ⟨key, default, default, Bytes32.replicate 1, ?_, hname⟩
    rintro rfl
    exact Sample.serial_blank_ne (congrArg Commitment.serial hname)
  · simp only [Function.Injective, not_forall] at hinj
    obtain ⟨key, key', hname, hne⟩ := hinj
    exact ⟨key, key', default, default, hne, congrArg Commitment.mk hname⟩

end TokenLedger
