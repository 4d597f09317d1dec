import TokenLedger.Proofs.Totals

/-!
# Records in another order

Two vaults that list the same records in different orders, and agree in all
else, answer alike: every commitment has the same record under it, the
supply is the same and every owner has the same unspent records, as many
times. Nothing is assumed about the names of records here: where one record
is listed twice, or two tokens share a name, both vaults read the same.
-/

set_option autoImplicit false

namespace TokenLedger

namespace Vault

/-- Every record that is stored is the body of some token under its name. -/
def Genuine (v : Vault) : Prop := ∀ r ∈ v.records, ∃ t : Token, r = t.stored

def token? (v : Vault) (c : Commitment) : Option Token :=
  (v.record? c).bind fun r => (Token.ofBytes r.bytes).toOption

def tokens (v : Vault) : List Token := v.records.filterMap fun r => v.token? r.commitment

/-- The same but for the order in which the records were issued. -/
structure Alike (v w : Vault) : Prop where
  balances : v.balances = w.balances
  records : v.records.Perm w.records
  stored : ∀ c, v.record? c = w.record? c
  spent : v.spent = w.spent
  height : v.height = w.height

variable {v w : Vault}

theorem Alike.refl (v : Vault) : v.Alike v where
  balances := rfl
  records := .refl _
  stored _ := rfl
  spent := rfl
  height := rfl

theorem Genuine.record? (hv : v.Genuine) {c : Commitment} (hc : v.hasRecord c = true) :
    ∃ t : Token, v.record? c = some t.stored ∧ v.token? c = some t := by
  obtain ⟨r, hr⟩ := Option.isSome_iff_exists.1 ((v.isSome_record? c).trans hc)
  obtain ⟨t, rfl⟩ := hv r (Vault.mem_of_record? hr).1
  refine ⟨t, hr, ?_⟩
  rw [token?, hr, Option.bind_some, Token.stored, Token.ofBytes_toBytes]
  rfl

theorem hasRecord_of_mem_records {r : StoredRecord} (hr : r ∈ v.records) :
    v.hasRecord r.commitment = true :=
  hasRecord_iff.2 (List.mem_map_of_mem hr)

theorem Genuine.allRecords (hv : v.Genuine) : v.allRecords = v.tokens.map Token.stored := by
  rw [tokens, List.map_filterMap]
  refine List.filterMap_congr fun r hr => ?_
  obtain ⟨t, hrecord, htoken⟩ := hv.record? (hasRecord_of_mem_records hr)
  rw [hrecord, htoken, Option.map_some]

theorem hasRecord_of_mem_recordsOf {a : Address} {c : Commitment} (hc : c ∈ v.recordsOf a) :
    v.hasRecord c = true := by
  obtain ⟨r, hr, rfl⟩ := List.mem_map.1 hc
  exact hasRecord_of_mem_records (List.mem_filter.1 hr).1

theorem token?_congr (h : ∀ c, v.record? c = w.record? c) : v.token? = w.token? := by
  funext c
  rw [token?, token?, h]

theorem unspent_congr (h : v.spent = w.spent) : v.unspent = w.unspent := by
  funext ts
  simp only [unspent, isSpent, h]

namespace Alike

theorem token? (h : v.Alike w) : v.token? = w.token? := token?_congr h.stored

theorem unspent (h : v.Alike w) : v.unspent = w.unspent := unspent_congr h.spent

theorem tokens (h : v.Alike w) : v.tokens.Perm w.tokens := by
  rw [Vault.tokens, Vault.tokens, h.token?]
  exact h.records.filterMap _

theorem recordsOf (h : v.Alike w) (a : Address) : (v.recordsOf a).Perm (w.recordsOf a) :=
  (h.records.filter _).map _

end Alike

end Vault

namespace Ledger

variable {v w : Vault}

theorem loadUnspent_genuine (hv : v.Genuine) (seeds : SeedSource) {cs : List Commitment}
    (hcs : ∀ c ∈ cs, v.hasRecord c = true) :
    (ofVault v seeds).loadUnspent cs = .ok (v.unspent (cs.filterMap v.token?)) := by
  apply loadUnspent_of_load
  induction cs with
  | nil => exact .nil
  | cons c cs ih =>
    obtain ⟨t, hrecord, htoken⟩ := hv.record? (hcs c (by simp))
    rw [List.filterMap_cons_some htoken]
    exact .cons (load_of_record? seeds hrecord) (ih fun d hd => hcs d (by simp [hd]))

theorem recordsOf_genuine (hv : v.Genuine) (seeds : SeedSource) (a : Address) :
    (ofVault v seeds).recordsOf a = .ok (v.unspent ((v.recordsOf a).filterMap v.token?)) := by
  have hread : (ofVault v seeds).store.recordsOf a = .ok (v.recordsOf a) := rfl
  rw [recordsOf, hread, Answers.liftStore_ok, Answers.ok_bind,
    loadUnspent_genuine hv seeds fun _ => Vault.hasRecord_of_mem_recordsOf]

theorem totalSupply_genuine (hv : v.Genuine) (seeds : SeedSource) :
    (ofVault v seeds).totalSupply =
      .ok (v.balances.total + Token.total (v.unspent v.tokens)) := by
  have hbalances : (ofVault v seeds).store.balances = .ok v.balances := rfl
  have hrecords : (ofVault v seeds).store.allRecords = .ok v.allRecords := rfl
  rw [totalSupply, hbalances, hrecords, Answers.liftStore_ok, Answers.liftStore_ok,
    Answers.ok_bind, Answers.ok_bind, hv.allRecords, unspentTotal_ofVault]
  rfl

theorem totalSupply_alike (h : v.Alike w) (hv : v.Genuine) (hw : w.Genuine) (seeds : SeedSource) :
    ∃ n, (ofVault v seeds).totalSupply = .ok n ∧ (ofVault w seeds).totalSupply = .ok n := by
  have htotal : Token.total (w.unspent v.tokens) = Token.total (w.unspent w.tokens) :=
    Token.total_perm (h.tokens.filter _)
  refine ⟨_, totalSupply_genuine hv seeds, ?_⟩
  rw [totalSupply_genuine hw, h.balances, h.unspent, htotal]

theorem recordsOf_alike (h : v.Alike w) (hv : v.Genuine) (hw : w.Genuine) (seeds : SeedSource)
    (a : Address) : ∃ ts us, (ofVault v seeds).recordsOf a = .ok ts ∧
      (ofVault w seeds).recordsOf a = .ok us ∧ ts.Perm us := by
  refine ⟨_, _, recordsOf_genuine hv seeds a, recordsOf_genuine hw seeds a, ?_⟩
  rw [h.unspent, h.token?]
  exact ((h.recordsOf a).filterMap _).filter _

end Ledger

end TokenLedger
