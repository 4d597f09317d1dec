import Mathlib.Data.List.AList
import Mathlib.Data.Set.Card
import TokenLedger.Proofs.Ordering

/-!
# Records under their indexes

A vault keeps its records in one list and answers from it. Here the records
are kept three times over: under their commitments, as commitments in the
order of issue, and as commitments for every owner, with all three written
record after record. Both ways answer alike after any updates. The answers
agree with each other as long as no changes that were accepted carry a
commitment twice: such changes pass, and the commitment is listed twice.
-/

set_option autoImplicit false

namespace TokenLedger

inductive Update where
  | commit (c : Changes)
  | restore (c : Changes) (height : UInt64)

def Update.changes : Update → Changes
  | .commit c | .restore c _ => c

/-! ## Updates of a vault -/

namespace Vault

def attempt (v : Vault) : Update → Except StoreError Vault
  | .commit c => v.commit c
  | .restore c height => v.restore c height

def update (v : Vault) (u : Update) : Except StoreError Unit × Vault :=
  match v.attempt u with
  | .ok v' => (.ok (), v')
  | .error e => (.error e, v)

def updates (v : Vault) : List Update → Vault
  | [] => v
  | u :: us => (v.update u).2.updates us

/-- The changes of the updates that succeed. -/
def admitted (v : Vault) : List Update → List Changes
  | [] => []
  | u :: us =>
    match v.update u with
    | (.ok (), v') => u.changes :: v'.admitted us
    | (.error _, v') => v'.admitted us

structure Consistent (v : Vault) : Prop where
  once : (v.allRecords.map StoredRecord.commitment).Nodup
  listed : ∀ c, c ∈ v.allRecords.map StoredRecord.commitment ↔ v.hasRecord c = true
  count : v.allRecords.length = {c | v.hasRecord c = true}.ncard
  record : ∀ c r, v.record? c = some r ↔ r ∈ v.allRecords ∧ r.commitment = c
  owned : ∀ a, v.recordsOf a =
    (v.allRecords.filter fun r => r.owner = a).map StoredRecord.commitment

variable {v v' : Vault} {u : Update}

theorem update_of_ok (h : v.attempt u = .ok v') : v.update u = (.ok (), v') := by
  rw [update, h]

theorem update_of_error {e : StoreError} (h : v.attempt u = .error e) :
    v.update u = (.error e, v) := by
  rw [update, h]

theorem attempt_of_update (h : (v.update u).1 = .ok ()) : v.attempt u = .ok (v.update u).2 := by
  cases hattempt : v.attempt u with
  | error e => rw [update_of_error hattempt] at h; cases h
  | ok v' => rw [update_of_ok hattempt]

theorem update_error {e : StoreError} (h : (v.update u).1 = .error e) : (v.update u).2 = v := by
  cases hattempt : v.attempt u with
  | error e => rw [update_of_error hattempt]
  | ok v' => rw [update_of_ok hattempt] at h; cases h

theorem record?_of_mem {r : StoredRecord} (hr : r ∈ v.records) :
    ∃ r', v.record? r.commitment = some r' ∧ r'.commitment = r.commitment := by
  have hstored := (v.isSome_record? _).trans (hasRecord_iff.2 (List.mem_map_of_mem hr))
  obtain ⟨r', hr'⟩ := Option.isSome_iff_exists.1 hstored
  exact ⟨r', hr', (mem_of_record? hr').2⟩

theorem commitments_allRecords (v : Vault) :
    v.allRecords.map StoredRecord.commitment = v.records.map StoredRecord.commitment := by
  rw [allRecords, List.map_filterMap, ← List.filterMap_eq_map]
  refine List.filterMap_congr fun r hr => ?_
  obtain ⟨r', hr', hname⟩ := record?_of_mem hr
  rw [hr', Option.map_some, hname]
  rfl

theorem mem_commitments_allRecords (c : Commitment) :
    c ∈ v.allRecords.map StoredRecord.commitment ↔ v.hasRecord c = true := by
  rw [commitments_allRecords, hasRecord_iff]

theorem mem_allRecords {r : StoredRecord} :
    r ∈ v.allRecords ↔ v.record? r.commitment = some r := by
  rw [allRecords, List.mem_filterMap]
  constructor
  · rintro ⟨s, -, hs⟩
    rwa [(mem_of_record? hs).2]
  · intro hr
    exact ⟨r, (mem_of_record? hr).1, hr⟩

theorem record?_eq_some_iff {c : Commitment} {r : StoredRecord} :
    v.record? c = some r ↔ r ∈ v.allRecords ∧ r.commitment = c := by
  rw [mem_allRecords]
  constructor
  · intro hr
    obtain ⟨-, rfl⟩ := mem_of_record? hr
    exact ⟨hr, rfl⟩
  · rintro ⟨hr, rfl⟩
    exact hr

theorem allRecords_of_nodup (h : (v.records.map StoredRecord.commitment).Nodup) :
    v.allRecords = v.records := by
  have hself : ∀ r ∈ v.records, v.record? r.commitment = some r := by
    intro r hr
    obtain ⟨r', hr', hname⟩ := record?_of_mem hr
    rw [hr', List.inj_on_of_nodup_map h (mem_of_record? hr').1 hr hname]
  rw [allRecords, List.filterMap_congr hself, List.filterMap_some]

theorem ncard_stored (v : Vault) : {c | v.hasRecord c = true}.ncard =
    (v.records.map StoredRecord.commitment).toFinset.card := by
  have hset : {c | v.hasRecord c = true} = (v.records.map StoredRecord.commitment).toFinset := by
    ext c
    rw [Set.mem_ofPred_eq, hasRecord_iff, Finset.mem_coe, List.mem_toFinset]
  rw [hset, Set.ncard_coe_finset]

theorem length_allRecords (v : Vault) :
    v.allRecords.length = (v.records.map StoredRecord.commitment).length := by
  rw [← commitments_allRecords, List.length_map]

theorem ncard_stored_lt (h : ¬(v.records.map StoredRecord.commitment).Nodup) :
    {c | v.hasRecord c = true}.ncard < v.allRecords.length := by
  rw [ncard_stored, length_allRecords]
  refine Nat.lt_of_le_of_ne (List.toFinset_card_le _) fun heq => h ?_
  exact Multiset.toFinset_card_eq_card_iff_nodup.1 heq

theorem consistent_iff : v.Consistent ↔ (v.records.map StoredRecord.commitment).Nodup := by
  refine ⟨fun h => v.commitments_allRecords ▸ h.once, fun h => ?_⟩
  refine ⟨v.commitments_allRecords ▸ h, mem_commitments_allRecords, ?_,
    fun _ _ => record?_eq_some_iff, fun a => ?_⟩
  · rw [ncard_stored, length_allRecords, List.toFinset_card_of_nodup h]
  · rw [allRecords_of_nodup h, recordsOf]

/-! ### What updates store -/

theorem admits_ok {c : Changes} (h : v.admits c = .ok ()) :
    ∀ r ∈ c.records, r.commitment ∉ v.records.map StoredRecord.commitment := by
  intro r hr hmem
  rw [admits] at h
  split at h
  · cases h
  · split at h
    · cases h
    · next hnone => exact List.find?_eq_none.1 hnone r hr (hasRecord_iff.2 hmem)

theorem attempt_ok (h : v.attempt u = .ok v') : v.admits u.changes = .ok () ∧
    v'.records = v.records ++ u.changes.records := by
  cases u with
  | commit c =>
    obtain ⟨hadmits, rfl⟩ := commit_eq_ok.1 h
    exact ⟨hadmits, rfl⟩
  | restore c height =>
    have hv' := eq_of_restore h
    rw [attempt, restore] at h
    split at h
    · cases h
    · obtain ⟨_, hadmits, -⟩ := Answers.bind_eq_ok.1 h
      exact ⟨hadmits, hv' ▸ rfl⟩

/-- The records are those of the admitted changes in order, and a commitment
is among them twice only if it is twice in some of these changes. -/
theorem records_updates (v : Vault) (us : List Update) :
    (v.updates us).records = v.records ++ (v.admitted us).flatMap Changes.records ∧
      (((v.updates us).records.map StoredRecord.commitment).Nodup ↔
        (v.records.map StoredRecord.commitment).Nodup ∧
          ∀ c ∈ v.admitted us, (c.records.map StoredRecord.commitment).Nodup) := by
  induction us generalizing v with
  | nil => simp [updates, admitted]
  | cons u us ih =>
    cases hattempt : v.attempt u with
    | error e =>
      rw [updates, admitted, update_of_error hattempt]
      exact ih v
    | ok v' =>
      obtain ⟨hadmits, hrecords⟩ := attempt_ok hattempt
      obtain ⟨hall, hnodup⟩ := ih v'
      -- only the stored records were looked at, so the new ones may repeat among themselves
      have hnew := admits_ok hadmits
      have hdisjoint : List.Disjoint (v.records.map StoredRecord.commitment)
          (u.changes.records.map StoredRecord.commitment) := by
        rintro c hold hc
        obtain ⟨r, hr, rfl⟩ := List.mem_map.1 hc
        exact hnew r hr hold
      have hstep : (v'.records.map StoredRecord.commitment).Nodup ↔
          (v.records.map StoredRecord.commitment).Nodup ∧
            (u.changes.records.map StoredRecord.commitment).Nodup := by
        rw [hrecords, List.map_append, List.nodup_append']
        exact ⟨fun h => ⟨h.1, h.2.1⟩, fun h => ⟨h.1, h.2, hdisjoint⟩⟩
      rw [updates, admitted, update_of_ok hattempt]
      refine ⟨?_, ?_⟩
      · rw [hall, hrecords, List.flatMap_cons, List.append_assoc]
      · rw [hnodup, hstep, List.forall_mem_cons, and_assoc]

end Vault

/-! ## Three indexes -/

/-- The store with the record under every commitment, all commitments in the order of
issue, and those of every owner. -/
structure Indexed where
  balances : Balances
  stored : AList fun _ : Commitment => StoredRecord
  issued : List Commitment
  owned : AList fun _ : Address => List Commitment
  spent : List SerialNumber
  height : UInt64

namespace Indexed

def empty : Indexed := ⟨[], ∅, [], ∅, [], 0⟩

def record? (x : Indexed) (c : Commitment) : Option StoredRecord := x.stored.lookup c

def hasRecord (x : Indexed) (c : Commitment) : Bool := c ∈ x.stored

def isSpent (x : Indexed) (s : SerialNumber) : Bool := x.spent.contains s

def recordsOf (x : Indexed) (owner : Address) : List Commitment :=
  (x.owned.lookup owner).getD []

def allRecords (x : Indexed) : List StoredRecord := x.issued.filterMap x.record?

def check (x : Indexed) (c : Changes) : Except StoreError Unit :=
  match c.spent.find? x.isSpent with
  | some s => .error (.serialExists s)
  | none =>
    match c.records.find? fun r => x.hasRecord r.commitment with
    | some r => .error (.recordExists r.commitment)
    | none => .ok ()

def add (x : Indexed) (r : StoredRecord) : Indexed :=
  { x with
    owned := x.owned.insert r.owner (x.recordsOf r.owner ++ [r.commitment])
    issued := x.issued ++ [r.commitment]
    stored := x.stored.insert r.commitment r }

def write (x : Indexed) (c : Changes) : Indexed :=
  c.records.foldl add
    { x with
      balances := c.writes.foldl (fun m p => m.insert p.1 p.2) x.balances
      spent := c.spent.foldl (fun ss s => Vault.insertSerial s ss) x.spent }

def update (x : Indexed) : Update → Except StoreError Unit × Indexed
  | .commit c =>
    match x.check c with
    | .error e => (.error e, x)
    | .ok () => (.ok (), { x.write c with height := x.height + 1 })
  | .restore c height =>
    if x.height ≠ 0 ∨ x.stored.keys ≠ [] ∨ x.balances ≠ [] then (.error .notEmpty, x)
    else
      match x.check c with
      | .error e => (.error e, x)
      | .ok () => (.ok (), { x.write c with height := height })

def updates (x : Indexed) : List Update → Indexed
  | [] => x
  | u :: us => (x.update u).2.updates us

theorem update_error {x : Indexed} {u : Update} {e : StoreError} (h : (x.update u).1 = .error e) :
    (x.update u).2 = x := by
  cases u with
  | commit c =>
    rw [update] at h ⊢
    split
    · rfl
    · next hcheck => rw [hcheck] at h; cases h
  | restore c height =>
    rw [update] at h ⊢
    split
    · rfl
    · next hfull =>
      split
      · rfl
      · next hcheck => rw [if_neg hfull, hcheck] at h; cases h

/-- Indexes hold what a vault lists. -/
structure Mirrors (x : Indexed) (v : Vault) : Prop where
  balances : x.balances = v.balances
  record? : x.record? = v.record?
  issued : x.issued = v.records.map StoredRecord.commitment
  recordsOf : x.recordsOf = v.recordsOf
  spent : x.spent = v.spent
  height : x.height = v.height

namespace Mirrors

variable {x : Indexed} {v : Vault}

theorem empty : Mirrors empty Vault.empty := ⟨rfl, rfl, rfl, rfl, rfl, rfl⟩

theorem hasRecord (h : Mirrors x v) : x.hasRecord = v.hasRecord := by
  funext c
  rw [← v.isSome_record?, ← h.record?, Bool.eq_iff_iff, Indexed.hasRecord, decide_eq_true_iff,
    Indexed.record?, AList.lookup_isSome]

theorem allRecords (h : Mirrors x v) : x.allRecords = v.allRecords := by
  rw [Indexed.allRecords, h.issued, h.record?, List.filterMap_map]
  rfl

theorem isSpent (h : Mirrors x v) : x.isSpent = v.isSpent := by
  funext s
  rw [Indexed.isSpent, h.spent, Vault.isSpent]

theorem keys_eq_nil_iff (h : Mirrors x v) : x.stored.keys = [] ↔ v.records = [] := by
  rw [← List.map_eq_nil_iff (f := StoredRecord.commitment), List.eq_nil_iff_forall_not_mem,
    List.eq_nil_iff_forall_not_mem]
  refine forall_congr' fun c => not_congr ?_
  rw [← Vault.hasRecord_iff, ← h.hasRecord, Indexed.hasRecord, decide_eq_true_iff, AList.mem_keys]

theorem check (h : Mirrors x v) (c : Changes) : x.check c = v.admits c := by
  rw [Indexed.check, h.isSpent, h.hasRecord]
  rfl

theorem add (h : Mirrors x v) (r : StoredRecord) :
    Mirrors (x.add r) { v with records := v.records ++ [r] } where
  balances := h.balances
  record? := by
    funext c
    have hold : x.record? c = v.record? c := congrFun h.record? c
    rw [Vault.record?, List.reverse_append, List.reverse_singleton, List.singleton_append,
      List.find?_cons, Indexed.record?, Indexed.add]
    by_cases hc : r.commitment = c
    · subst hc
      simp [AList.lookup_insert]
    · rw [AList.lookup_insert_ne (Ne.symm hc), decide_eq_false hc]
      exact hold
  issued := by
    rw [List.map_append, ← h.issued]
    rfl
  recordsOf := by
    funext a
    have hold : x.recordsOf = v.recordsOf := h.recordsOf
    rw [Vault.recordsOf, List.filter_append, List.map_append, Indexed.recordsOf, Indexed.add]
    by_cases ha : r.owner = a
    · subst ha
      simp [AList.lookup_insert, hold, Vault.recordsOf]
    · rw [AList.lookup_insert_ne (Ne.symm ha), List.filter_singleton, decide_eq_false ha]
      exact (congrFun hold a).trans (List.append_nil _).symm
  spent := h.spent
  height := h.height

theorem foldl_add (h : Mirrors x v) (rs : List StoredRecord) :
    Mirrors (rs.foldl Indexed.add x) { v with records := v.records ++ rs } := by
  induction rs generalizing x v with
  | nil => rw [List.append_nil]; exact h
  | cons r rs ih =>
    rw [List.append_cons]
    exact ih (h.add r)

theorem write (h : Mirrors x v) (c : Changes) : Mirrors (x.write c) (v.write c) := by
  refine foldl_add (v := { v.write c with records := v.records }) ?_ c.records
  exact ⟨by rw [h.balances]; rfl, h.record?, h.issued, h.recordsOf, by rw [h.spent]; rfl, h.height⟩

theorem setHeight (h : Mirrors x v) (height : UInt64) :
    Mirrors { x with height := height } { v with height := height } :=
  ⟨h.balances, h.record?, h.issued, h.recordsOf, h.spent, rfl⟩

theorem update (h : Mirrors x v) (u : Update) :
    (x.update u).1 = (v.update u).1 ∧ Mirrors (x.update u).2 (v.update u).2 := by
  cases u with
  | commit c =>
    rw [Indexed.update, Vault.update, Vault.attempt, Vault.commit, h.check]
    cases v.admits c with
    | error e => exact ⟨rfl, h⟩
    | ok _ => exact ⟨rfl, h.height ▸ (h.write c).setHeight _⟩
  | restore c height =>
    simp only [Indexed.update, Vault.update, Vault.attempt, Vault.restore, h.check, h.height,
      h.balances, ne_eq, h.keys_eq_nil_iff]
    by_cases hused : ¬v.height = 0 ∨ ¬v.records = [] ∨ ¬v.balances = []
    · rw [if_pos hused, if_pos hused]
      exact ⟨rfl, h⟩
    · rw [if_neg hused, if_neg hused]
      cases v.admits c with
      | error e => exact ⟨rfl, h⟩
      | ok _ => exact ⟨rfl, (h.write c).setHeight _⟩

theorem updates (h : Mirrors x v) (us : List Update) : Mirrors (x.updates us) (v.updates us) := by
  induction us generalizing x v with
  | nil => exact h
  | cons u us ih => exact ih (h.update u).2

end Mirrors

end Indexed

/-! ## What any updates leave -/

namespace Vault

/-- What is known of an empty store after any updates, kept in a list and in indexes. -/
structure KeepsIndexes (us : List Update) (v : Vault) (x : Indexed) : Prop where
  mirrors : x.Mirrors v
  hasRecord : x.hasRecord = v.hasRecord
  allRecords : x.allRecords = v.allRecords
  answers : ∀ u, (x.update u).1 = (v.update u).1
  refused : ∀ u e, (x.update u).1 = .error e → (x.update u).2 = x ∧ (v.update u).2 = v
  listed : ∀ c, c ∈ v.allRecords.map StoredRecord.commitment ↔ v.hasRecord c = true
  record : ∀ c r, v.record? c = some r ↔ r ∈ v.allRecords ∧ r.commitment = c
  issued : v.allRecords.map StoredRecord.commitment =
    ((empty.admitted us).flatMap Changes.records).map StoredRecord.commitment
  owned : ∀ a, v.recordsOf a =
    (((empty.admitted us).flatMap Changes.records).filter fun r => r.owner = a).map
      StoredRecord.commitment
  consistent : v.Consistent ↔
    ∀ c ∈ empty.admitted us, (c.records.map StoredRecord.commitment).Nodup
  doubled : (∃ c ∈ empty.admitted us, ¬(c.records.map StoredRecord.commitment).Nodup) →
    {c | v.hasRecord c = true}.ncard < v.allRecords.length

theorem keepsIndexes_updates (us : List Update) :
    KeepsIndexes us (empty.updates us) (Indexed.empty.updates us) := by
  have hmirrors := Indexed.Mirrors.empty.updates us
  obtain ⟨hrecords, hnodup⟩ := empty.records_updates us
  have hissued : (empty.updates us).records = (empty.admitted us).flatMap Changes.records := hrecords
  have honce : ((empty.updates us).records.map StoredRecord.commitment).Nodup ↔
      ∀ c ∈ empty.admitted us, (c.records.map StoredRecord.commitment).Nodup :=
    hnodup.trans ⟨And.right, fun h => ⟨List.nodup_nil, h⟩⟩
  refine ⟨hmirrors, hmirrors.hasRecord, hmirrors.allRecords, fun u => (hmirrors.update u).1,
    fun u e he => ⟨Indexed.update_error he, update_error ((hmirrors.update u).1.symm.trans he)⟩,
    mem_commitments_allRecords, fun _ _ => record?_eq_some_iff, ?_, fun a => ?_,
    consistent_iff.trans honce, fun ⟨c, hc, hdup⟩ => ncard_stored_lt fun h => ?_⟩
  · rw [commitments_allRecords, hissued]
  · rw [recordsOf, hissued]
  · exact hdup (honce.1 h c hc)

/-! A commitment carried twice, for two owners: it is listed twice with the second record, and
the index of the first owner names a record that the list shows for the second. -/

def first : StoredRecord := ⟨⟨Bytes32.replicate 7⟩, ⟨Bytes32.replicate 1⟩, [1]⟩

def second : StoredRecord := ⟨⟨Bytes32.replicate 7⟩, ⟨Bytes32.replicate 2⟩, [2]⟩

theorem not_consistent_twins :
    (empty.update (.commit ⟨[], [first, second], []⟩)).1 = .ok () ∧
      (empty.updates [.commit ⟨[], [first, second], []⟩]).allRecords = [second, second] ∧
      (empty.updates [.commit ⟨[], [first, second], []⟩]).recordsOf first.owner =
        [second.commitment] ∧
      ¬(empty.updates [.commit ⟨[], [first, second], []⟩]).Consistent := by
  refine ⟨rfl, rfl, rfl, fun h => ?_⟩
  exact absurd h.once (by decide)

end Vault

end TokenLedger
