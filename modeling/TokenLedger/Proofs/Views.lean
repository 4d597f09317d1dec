import TokenLedger.Ledger.Queries
import TokenLedger.Proofs.History
import TokenLedger.Proofs.RecordBody

/-!
# What the queries answer

A ledger whose vault keeps a history answers its queries from that history.
As long as no two tokens were issued under one commitment, a record reads
back as the token it was issued with, and lists and sums run over the tokens
that the vault has as unspent. If the strings hashed for the records do not
collide at all, these are the tokens that were not consumed.
-/

set_option autoImplicit false

namespace TokenLedger

def Token.strings (t : Token) : List Bytes := [t.commitmentPreimage, t.commitment.serialPreimage]

def History.strings (h : History) : List Bytes := (h.issued ++ h.consumed).flatMap Token.strings

/-- No two distinct tokens were issued under one commitment. -/
def History.Named (h : History) : Prop :=
  ∀ t ∈ h.issued, ∀ u ∈ h.issued, t.commitment = u.commitment → t = u

namespace History

variable {h : History}

theorem strings_subset_append (h rest : History) : h.strings ⊆ strings (h ++ rest) := by
  intro x hx
  obtain ⟨t, ht, hxt⟩ := List.mem_flatMap.1 hx
  refine List.mem_flatMap.2 ⟨t, ?_, hxt⟩
  simp only [issued, consumed, List.flatMap_append, List.mem_append] at ht ⊢
  exact ht.imp .inl .inl

theorem commitmentPreimage_mem {t : Token} (ht : t ∈ h.issued ++ h.consumed) :
    t.commitmentPreimage ∈ h.strings :=
  List.mem_flatMap.2 ⟨t, ht, List.mem_cons_self⟩

theorem serialPreimage_mem {t : Token} (ht : t ∈ h.issued ++ h.consumed) :
    t.commitment.serialPreimage ∈ h.strings :=
  List.mem_flatMap.2 ⟨t, ht, by simp [Token.strings]⟩

theorem collisionFree_strings (ts : List Token) (hsub : h.issued ++ h.consumed ⊆ ts)
    (hnodup : ((ts.flatMap Token.strings).map Blake2b.hash).Nodup) : CollisionFree h.strings := by
  refine collisionFree_of_nodup (fun x hx => ?_) hnodup
  obtain ⟨t, ht, hxt⟩ := List.mem_flatMap.1 hx
  exact List.mem_flatMap.2 ⟨t, hsub ht, hxt⟩

theorem token_eq (hf : CollisionFree h.strings) {t u : Token} (ht : t ∈ h.issued ++ h.consumed)
    (hu : u ∈ h.issued ++ h.consumed) (heq : t.commitment = u.commitment) : t = u :=
  hf.token_eq (commitmentPreimage_mem ht) (commitmentPreimage_mem hu) heq

theorem named_of_collisionFree (hf : CollisionFree h.strings) : h.Named :=
  fun _ ht _ hu => token_eq hf (List.mem_append_left _ ht) (List.mem_append_left _ hu)

end History

def Vault.unspent (v : Vault) (ts : List Token) : List Token :=
  ts.filter fun t => !v.isSpent t.serial

theorem Vault.unspent_cons (v : Vault) (t : Token) (ts : List Token) :
    v.unspent (t :: ts) = if v.isSpent t.serial then v.unspent ts else t :: v.unspent ts := by
  rw [unspent, List.filter_cons]
  cases v.isSpent t.serial <;> rfl

theorem Vault.mem_unspent {v : Vault} {t : Token} {ts : List Token} :
    t ∈ v.unspent ts ↔ t ∈ ts ∧ v.isSpent t.serial = false := by
  rw [unspent, List.mem_filter, Bool.not_eq_true']

def Vault.snapshotOf (v : Vault) (ts : List Token) : Snapshot :=
  Snapshot.create v.balances ts v.spent v.height

namespace Vault.Keeps

variable {v : Vault} {h : History}

theorem consumed_subset (hk : v.Keeps h) (hf : CollisionFree h.strings) :
    h.consumed ⊆ h.issued := by
  intro t ht
  obtain ⟨u, hu, heq⟩ := List.mem_map.1 (hk.known t ht)
  rw [History.token_eq hf (List.mem_append_right _ ht) (List.mem_append_left _ hu) heq.symm]
  exact hu

theorem mem_issued_of_accepts {v' : Vault} {tx : Transaction} (hk : v.Keeps h)
    (ha : v.Accepts tx v') (hf : CollisionFree (History.strings (h ++ [tx]))) :
    tx.consumed ⊆ h.issued := by
  intro t ht
  obtain ⟨u, hu, heq⟩ := List.mem_map.1 (hk.known_of_accepts ha t ht)
  have ht' : t ∈ History.issued (h ++ [tx]) ++ History.consumed (h ++ [tx]) := by
    rw [History.consumed_append]
    exact List.mem_append_right _ (List.mem_append_right _ ht)
  have hu' : u ∈ History.issued (h ++ [tx]) ++ History.consumed (h ++ [tx]) := by
    rw [History.issued_append]
    exact List.mem_append_left _ (List.mem_append_left _ hu)
  rw [History.token_eq hf ht' hu' heq.symm]
  exact hu

/-- The inputs leave the live records and the outputs join them at the end. -/
theorem live_append {v' : Vault} {tx : Transaction} (hk : v.Keeps h) (ha : v.Accepts tx v') :
    History.live (h ++ [tx]) = (h.live.filter fun t => t ∉ tx.consumed) ++ tx.outputs := by
  have hnew : ∀ t ∈ tx.outputs, t ∉ h.consumed ++ tx.consumed := by
    intro t ht hmem
    have hfresh := hk.fresh_of_accepts ha t ht
    rcases List.mem_append.1 hmem with hmem | hmem
    · exact hfresh (hk.known t hmem)
    · exact hfresh (hk.known_of_accepts ha t hmem)
  rw [History.live, History.issued_append, History.consumed_append, List.filter_append]
  congr 1
  · rw [History.live, List.filter_filter]
    apply List.filter_congr
    intro t _
    simp [and_comm]
  · rw [List.filter_eq_self]
    intro t ht
    exact decide_eq_true (hnew t ht)

theorem isSpent_iff (hk : v.Keeps h) (hf : CollisionFree h.strings) {t : Token}
    (ht : t ∈ h.issued) : v.isSpent t.serial = true ↔ t ∈ h.consumed := by
  rw [hk.isSpent]
  constructor
  · intro hmem
    obtain ⟨u, hu, heq⟩ := List.mem_map.1 hmem
    have ht' : t ∈ h.issued ++ h.consumed := List.mem_append_left _ ht
    have hu' : u ∈ h.issued ++ h.consumed := List.mem_append_right _ hu
    have hc := hf.commitment_eq (History.serialPreimage_mem hu')
      (History.serialPreimage_mem ht') heq
    rw [History.token_eq hf ht' hu' hc.symm]
    exact hu
  · intro hmem
    exact List.mem_map_of_mem hmem

theorem unspent_eq (hk : v.Keeps h) (hf : CollisionFree h.strings) {ts : List Token}
    (hts : ts ⊆ h.issued) : v.unspent ts = ts.filter fun t => t ∉ h.consumed := by
  apply List.filter_congr
  intro t ht
  rw [Bool.eq_iff_iff, decide_eq_true_iff, ← hk.isSpent_iff hf (hts ht), Bool.not_eq_true',
    Bool.not_eq_true]

theorem unspent_issued (hk : v.Keeps h) (hf : CollisionFree h.strings) :
    v.unspent h.issued = h.live :=
  hk.unspent_eq hf (List.Subset.refl _)

theorem record? (hk : v.Keeps h) (hn : h.Named) {t : Token} (ht : t ∈ h.issued) :
    v.record? t.commitment = some t.stored := by
  have hstored : v.hasRecord t.commitment = true := hk.hasRecord.2 (List.mem_map_of_mem ht)
  obtain ⟨r, hr⟩ := Option.isSome_iff_exists.1 ((v.isSome_record? _).trans hstored)
  obtain ⟨hmem, hname⟩ := mem_of_record? hr
  rw [hk.records] at hmem
  obtain ⟨u, hu, rfl⟩ := List.mem_map.1 hmem
  rw [hr, hn u hu t ht hname]

theorem allRecords (hk : v.Keeps h) (hn : h.Named) :
    v.allRecords = h.issued.map Token.stored := by
  have hread : ∀ t ∈ h.issued,
      ((fun r : StoredRecord => v.record? r.commitment) ∘ Token.stored) t =
        (some ∘ Token.stored) t :=
    fun t ht => hk.record? hn ht
  rw [Vault.allRecords, hk.records, List.filterMap_map, List.filterMap_congr hread,
    List.filterMap_eq_map]

theorem recordsOf (hk : v.Keeps h) (a : Address) :
    v.recordsOf a = (h.issued.filter fun t => t.owner = a).map Token.commitment := by
  rw [Vault.recordsOf, hk.records, List.filter_map, List.map_map]
  rfl

end Vault.Keeps

/-! ## The answers -/

namespace Ledger

variable {v : Vault} {h : History}

theorem publicBalance_ofVault (v : Vault) (seeds : SeedSource) (a : Address) :
    (ofVault v seeds).publicBalance a = .ok ((v.balances.find? a).getD 0) := rfl

theorem isSpent_ofVault (v : Vault) (seeds : SeedSource) (t : Token) :
    (ofVault v seeds).isSpent t = .ok (v.isSpent t.serial) := rfl

theorem load_of_record? (seeds : SeedSource) {c : Commitment} {t : Token}
    (hr : v.record? c = some t.stored) : (ofVault v seeds).load c = .ok t := by
  have hstored : (ofVault v seeds).store.record c = .ok t.stored := by
    simp only [ofVault, Store.record, Store.ofVault, Store.answer, hr]
    rfl
  rw [load, hstored, Answers.liftStore_ok, Answers.ok_bind, Token.stored, Token.ofBytes_toBytes,
    Answers.liftProgram_ok]

theorem loadUnspent_of_load {seeds : SeedSource} {cs : List Commitment} {ts : List Token}
    (hload : List.Forall₂ (fun c t => (ofVault v seeds).load c = .ok t) cs ts) :
    (ofVault v seeds).loadUnspent cs = .ok (v.unspent ts) := by
  induction hload with
  | nil => rfl
  | cons hc _ ih =>
    rw [loadUnspent, hc, Answers.ok_bind, isSpent_ofVault, Answers.ok_bind, ih, Answers.ok_bind,
      Vault.unspent_cons]
    rfl

theorem load_keeps (hk : v.Keeps h) (hn : h.Named) (seeds : SeedSource) {t : Token}
    (ht : t ∈ h.issued) : (ofVault v seeds).load t.commitment = .ok t :=
  load_of_record? seeds (hk.record? hn ht)

theorem loadUnspent_unspent (hk : v.Keeps h) (hn : h.Named) (seeds : SeedSource) {ts : List Token}
    (hts : ts ⊆ h.issued) :
    (ofVault v seeds).loadUnspent (ts.map Token.commitment) = .ok (v.unspent ts) := by
  refine loadUnspent_of_load (List.forall₂_map_left_iff.2 (List.forall₂_same.2 fun t ht => ?_))
  exact load_keeps hk hn seeds (hts ht)

theorem recordsOf_unspent (hk : v.Keeps h) (hn : h.Named) (seeds : SeedSource) (a : Address) :
    (ofVault v seeds).recordsOf a = .ok ((v.unspent h.issued).filter fun t => t.owner = a) := by
  have hread : (ofVault v seeds).store.recordsOf a = .ok (v.recordsOf a) := rfl
  rw [recordsOf, hread, Answers.liftStore_ok, Answers.ok_bind, hk.recordsOf,
    loadUnspent_unspent hk hn seeds (List.filter_subset_self _), Vault.unspent, Vault.unspent,
    List.filter_filter, List.filter_filter]
  simp only [Bool.and_comm]

theorem recordsOf_keeps (hk : v.Keeps h) (hf : CollisionFree h.strings) (seeds : SeedSource)
    (a : Address) :
    (ofVault v seeds).recordsOf a = .ok (h.live.filter fun t => t.owner = a) := by
  rw [recordsOf_unspent hk (History.named_of_collisionFree hf), hk.unspent_issued hf]

theorem unspentTotal_ofVault (v : Vault) (seeds : SeedSource) (ts : List Token) :
    (ofVault v seeds).unspentTotal (ts.map Token.stored) = .ok (Token.total (v.unspent ts)) := by
  induction ts with
  | nil => rfl
  | cons t ts ih =>
    rw [List.map_cons, unspentTotal, Token.stored, Token.ofBytes_toBytes, Answers.liftProgram_ok,
      Answers.ok_bind, isSpent_ofVault, Answers.ok_bind, ih, Answers.ok_bind, Vault.unspent_cons]
    cases v.isSpent t.serial <;> rfl

theorem totalSupply_unspent (hk : v.Keeps h) (hn : h.Named) (seeds : SeedSource) :
    (ofVault v seeds).totalSupply =
      .ok (v.balances.total + Token.total (v.unspent h.issued)) := by
  have hbalances : (ofVault v seeds).store.balances = .ok v.balances := rfl
  have hrecords : (ofVault v seeds).store.allRecords = .ok v.allRecords := rfl
  rw [totalSupply, hbalances, hrecords, Answers.liftStore_ok, Answers.liftStore_ok,
    Answers.ok_bind, Answers.ok_bind, hk.allRecords hn, unspentTotal_ofVault]
  rfl

theorem totalSupply_keeps (hk : v.Keeps h) (hf : CollisionFree h.strings) (seeds : SeedSource) :
    (ofVault v seeds).totalSupply = .ok (v.balances.total + Token.total h.live) := by
  rw [totalSupply_unspent hk (History.named_of_collisionFree hf), hk.unspent_issued hf]

theorem mapM_stored (ts : List Token) :
    ((ts.map Token.stored).mapM fun r => LedgerError.liftProgram (Token.ofBytes r.bytes)) =
      .ok ts := by
  induction ts with
  | nil => rfl
  | cons t ts ih =>
    rw [List.map_cons, List.mapM_cons, ih, Token.stored, Token.ofBytes_toBytes,
      Answers.liftProgram_ok]
    rfl

theorem snapshot_keeps (hk : v.Keeps h) (hn : h.Named) (seeds : SeedSource) :
    (ofVault v seeds).snapshot = .ok (v.snapshotOf h.issued) := by
  have hbalances : (ofVault v seeds).store.balances = .ok v.balances := rfl
  have hrecords : (ofVault v seeds).store.allRecords = .ok v.allRecords := rfl
  rw [snapshot, hbalances, hrecords, Answers.liftStore_ok, Answers.liftStore_ok,
    Answers.ok_bind, Answers.ok_bind, hk.allRecords hn, mapM_stored]
  rfl

end Ledger

/-! ## Parts of a concrete run -/

namespace Sample

def owner : Address := ⟨Bytes32.replicate 1⟩

def record (balance : UInt64) (nonce : UInt8) : Token := ⟨owner, balance, Bytes32.replicate nonce⟩

def transaction (function : Function) (consumed outputs : List Token) : Transaction :=
  ⟨default, function, owner, consumed, outputs, none, none⟩

def seeds : SeedSource := ⟨fun _ => .ok default, 0⟩

end Sample

end TokenLedger
