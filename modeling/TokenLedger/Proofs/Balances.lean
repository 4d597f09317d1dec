import Mathlib.Data.List.Nodup
import TokenLedger.Store.Changes
import TokenLedger.Proofs.AddressText

/-!
# Ordered balances

The accounts of a vault stand in their order and each stands once. In that
form a list of balances is determined by what is found under the accounts,
and a balance put among them changes the total by exactly its own change.
-/

set_option autoImplicit false

namespace TokenLedger.Balances

def Ordered (m : Balances) : Prop :=
  m.Pairwise fun p q => p.1.le q.1 = true ∧ p.1 ≠ q.1

def amount (key : Address) (m : Balances) : Nat := ((find? key m).getD 0).toNat

theorem ordered_cons {p : Address × UInt64} {m : Balances} :
    Ordered (p :: m) ↔ (∀ q ∈ m, p.1.le q.1 = true ∧ p.1 ≠ q.1) ∧ Ordered m :=
  List.pairwise_cons

theorem Ordered.nodup_keys {m : Balances} (h : Ordered m) : (m.map Prod.fst).Nodup :=
  List.pairwise_map.2 (h.imp And.right)

theorem find?_eq_none {key : Address} {m : Balances} (h : ∀ p ∈ m, p.1 ≠ key) :
    find? key m = none := by
  induction m with
  | nil => rfl
  | cons p m ih =>
    have hp : p.1 ≠ key := h p (by simp)
    rw [find?, if_neg hp]
    exact ih fun q hq => h q (by simp [hq])

theorem find?_eq_none_of_le {key : Address} {p : Address × UInt64} {m : Balances}
    (h : Ordered (p :: m)) (hle : key.le p.1 = true) : find? key m = none := by
  apply find?_eq_none
  rintro q hq rfl
  have hpq := (ordered_cons.1 h).1 q hq
  exact hpq.2 (Address.le_antisymm hpq.1 hle)

theorem mem_insert {key : Address} {value : UInt64} {m : Balances} {p : Address × UInt64}
    (h : p ∈ insert key value m) : p = (key, value) ∨ p ∈ m := by
  induction m with
  | nil => exact .inl (List.mem_singleton.1 h)
  | cons q m ih =>
    rw [insert] at h
    split at h
    · rcases List.mem_cons.1 h with h | h
      · exact .inl h
      · exact .inr (by simp [h])
    · split at h
      · rcases List.mem_cons.1 h with h | h
        · exact .inl h
        · exact .inr h
      · rcases List.mem_cons.1 h with h | h
        · exact .inr (by simp [h])
        · exact (ih h).imp_right fun h => by simp [h]

theorem ordered_insert {m : Balances} (h : Ordered m) (key : Address) (value : UInt64) :
    Ordered (insert key value m) := by
  induction m with
  | nil => exact List.pairwise_singleton ..
  | cons q m ih =>
    obtain ⟨hq, hm⟩ := ordered_cons.1 h
    rw [insert]
    split
    · next heq => exact ordered_cons.2 ⟨heq ▸ hq, hm⟩
    · next hne =>
      split
      · next hle =>
        refine ordered_cons.2 ⟨fun p hp => ?_, h⟩
        rcases List.mem_cons.1 hp with rfl | hp
        · exact ⟨hle, fun heq => hne heq.symm⟩
        · have hqp := hq p hp
          refine ⟨Address.le_trans hle hqp.1, ?_⟩
          rintro rfl
          exact hne (Address.le_antisymm hqp.1 hle)
      · next hle =>
        refine ordered_cons.2 ⟨fun p hp => ?_, ih hm⟩
        rcases mem_insert hp with rfl | hp
        · exact ⟨Address.le_of_not_le hle, hne⟩
        · exact hq p hp

theorem total_insert {m : Balances} (h : Ordered m) (key : Address) (value : UInt64) :
    total (insert key value m) + amount key m = total m + value.toNat := by
  induction m with
  | nil => simp [insert, amount, total, find?]
  | cons q m ih =>
    obtain ⟨k, v⟩ := q
    have hm := ih (ordered_cons.1 h).2
    rw [insert]
    split
    · next heq =>
      simp only [amount, total, find?, heq, if_true, Option.getD_some]
      omega
    · next hne =>
      split
      · next hle =>
        have hnone := find?_eq_none_of_le h hle
        simp only [amount, total, find?, hne, if_false, hnone, Option.getD_none]
        simp only [UInt64.toNat_zero]
        omega
      · simp only [amount, total, find?, hne, if_false] at hm ⊢
        omega

theorem amount_insert_self (key : Address) (value : UInt64) (m : Balances) :
    amount key (insert key value m) = value.toNat := by
  rw [amount, find?_insert_self, Option.getD_some]

theorem amount_insert_of_ne {key other : Address} (h : other ≠ key) (value : UInt64)
    (m : Balances) : amount other (insert key value m) = amount other m := by
  rw [amount, find?_insert_of_ne h, amount]

theorem ext_of_ordered {m m' : Balances} (h : Ordered m) (h' : Ordered m')
    (hfind : ∀ key, find? key m = find? key m') : m = m' := by
  induction m generalizing m' with
  | nil =>
    cases m' with
    | nil => rfl
    | cons q m' =>
      have hq := hfind q.1
      simp [find?] at hq
  | cons p m ih =>
    cases m' with
    | nil =>
      have hp := hfind p.1
      simp [find?] at hp
    | cons q m' =>
      obtain ⟨k, v⟩ := p
      obtain ⟨k', v'⟩ := q
      -- each head is found in the other list, so neither comes before the other
      have hkey : k = k' := by
        by_contra hne
        have hk := hfind k
        have hk' := hfind k'
        simp only [find?, if_true, hne, Ne.symm hne, if_false] at hk hk'
        by_cases hle : k.le k' = true
        · rw [find?_eq_none_of_le h' hle] at hk
          cases hk
        · rw [find?_eq_none_of_le h (Address.le_of_not_le hle)] at hk'
          cases hk'
      subst hkey
      have hvalue := hfind k
      simp only [find?, if_true, Option.some.injEq] at hvalue
      subst hvalue
      congr 1
      apply ih (ordered_cons.1 h).2 (ordered_cons.1 h').2
      intro key
      have hkey := hfind key
      by_cases hk : k = key
      · subst hk
        rw [find?_eq_none_of_le h (Address.le_refl k), find?_eq_none_of_le h' (Address.le_refl k)]
      · simpa only [find?, hk, if_false] using hkey

/-! ## Writes over a list of balances -/

def written (m writes : Balances) : Balances := writes.foldl (fun m p => m.insert p.1 p.2) m

theorem ordered_written {m : Balances} (h : Ordered m) (writes : Balances) :
    Ordered (written m writes) := by
  induction writes generalizing m with
  | nil => exact h
  | cons p writes ih => exact ih (ordered_insert h p.1 p.2)

theorem find?_append (m n : Balances) (key : Address) :
    find? key (m ++ n) = (find? key m).or (find? key n) := by
  induction m with
  | nil => rfl
  | cons p m ih =>
    rw [List.cons_append, find?, find?]
    split
    · rfl
    · exact ih

/-- Of the writes to one account the last one stands, whatever the way in which they are placed. -/
theorem find?_foldl {place : Address → UInt64 → Balances → Balances}
    (hself : ∀ key value m, find? key (place key value m) = some value)
    (hother : ∀ key other value m, other ≠ key →
      find? other (place key value m) = find? other m)
    (m writes : Balances) (key : Address) :
    find? key (writes.foldl (fun m p => place p.1 p.2 m) m) =
      (find? key writes.reverse).or (find? key m) := by
  induction writes generalizing m with
  | nil => rfl
  | cons p writes ih =>
    rw [List.foldl_cons, ih, List.reverse_cons, find?_append, Option.or_assoc]
    congr 1
    by_cases hk : p.1 = key
    · rw [find?, if_pos hk, ← hk, hself]
      rfl
    · rw [find?, if_neg hk, hother _ _ _ _ (Ne.symm hk)]
      rfl

theorem find?_written_reverse (m writes : Balances) (key : Address) :
    find? key (written m writes) = (find? key writes.reverse).or (find? key m) :=
  find?_foldl find?_insert_self (fun _ _ value m h => find?_insert_of_ne h value m) m writes key

theorem written_eq_nil_iff {writes : Balances} : written [] writes = [] ↔ writes = [] := by
  constructor
  · intro h
    cases hw : writes.reverse with
    | nil => exact List.reverse_eq_nil_iff.1 hw
    | cons p rest =>
      have hfind := find?_written_reverse [] writes p.1
      rw [h, hw, find?, find?, if_pos rfl] at hfind
      cases hfind
  · rintro rfl
    rfl

theorem find?_written {writes : Balances} (hw : (writes.map Prod.fst).Nodup) (m : Balances)
    (key : Address) : find? key (written m writes) = (find? key writes).or (find? key m) := by
  induction writes generalizing m with
  | nil => rfl
  | cons p writes ih =>
    obtain ⟨hp, hw⟩ := List.nodup_cons.1 hw
    show find? key (written (insert p.1 p.2 m) writes) = _
    rw [ih hw]
    by_cases hk : p.1 = key
    · have hnone : find? key writes = none := find?_eq_none fun q hq heq =>
        hp (List.mem_map.2 ⟨q, hq, heq.trans hk.symm⟩)
      rw [hnone, find?, if_pos hk, ← hk, find?_insert_self]
      rfl
    · rw [find?_insert_of_ne (Ne.symm hk), find?, if_neg hk]

theorem find?_reverse {m : Balances} (h : (m.map Prod.fst).Nodup) (key : Address) :
    find? key m.reverse = find? key m := by
  have hwritten := (find?_written_reverse [] m key).symm.trans (find?_written h [] key)
  rwa [find?, Option.or_none, Option.or_none] at hwritten

theorem mem_keys_put {key other : Address} {value : UInt64} {writes : Balances} :
    other ∈ (put key value writes).map Prod.fst ↔ other = key ∨ other ∈ writes.map Prod.fst := by
  induction writes with
  | nil => simp [put]
  | cons p writes ih =>
    rw [put]
    split
    · next h => simp [h]
    · simp only [List.map_cons, List.mem_cons, ih]
      exact or_left_comm

theorem put_of_not_mem {key : Address} {m : Balances} (h : key ∉ m.map Prod.fst)
    (value : UInt64) : put key value m = m ++ [(key, value)] := by
  induction m with
  | nil => rfl
  | cons p m ih =>
    obtain ⟨hp, hm⟩ := not_or.1 (mt List.mem_cons.2 h)
    rw [put, if_neg (Ne.symm hp), ih hm, List.cons_append]

theorem keys_put_of_mem {key : Address} {m : Balances} (h : key ∈ m.map Prod.fst)
    (value : UInt64) : (put key value m).map Prod.fst = m.map Prod.fst := by
  induction m with
  | nil => cases h
  | cons p m ih =>
    rw [put]
    split
    · next hp => rw [List.map_cons, List.map_cons, hp]
    · next hp =>
      have hm : key ∈ m.map Prod.fst := (List.mem_cons.1 h).resolve_left (Ne.symm hp)
      rw [List.map_cons, List.map_cons, ih hm]

theorem nodup_put {writes : Balances} (hw : (writes.map Prod.fst).Nodup) (key : Address)
    (value : UInt64) : ((put key value writes).map Prod.fst).Nodup := by
  induction writes with
  | nil => simp [put]
  | cons p writes ih =>
    obtain ⟨hp, hw⟩ := List.nodup_cons.1 hw
    rw [put]
    split
    · next h => exact List.nodup_cons.2 ⟨h ▸ hp, hw⟩
    · next h =>
      refine List.nodup_cons.2 ⟨fun hmem => ?_, ih hw⟩
      rcases mem_keys_put.1 hmem with heq | hmem
      · exact h heq
      · exact hp hmem

theorem nodup_foldl_put {m : Balances} (h : (m.map Prod.fst).Nodup) (ps : Balances) :
    ((ps.foldl (fun m p => put p.1 p.2 m) m).map Prod.fst).Nodup := by
  induction ps generalizing m with
  | nil => exact h
  | cons p ps ih => exact ih (nodup_put h p.1 p.2)

/-- A write gathered among others is a write to the balances they lead to. -/
theorem written_put {m writes : Balances} (h : Ordered m) (hw : (writes.map Prod.fst).Nodup)
    (key : Address) (value : UInt64) :
    written m (put key value writes) = insert key value (written m writes) := by
  apply ext_of_ordered (ordered_written h _) (ordered_insert (ordered_written h _) key value)
  intro other
  rw [find?_written (nodup_put hw key value)]
  by_cases ho : other = key
  · rw [ho, find?_put_self, find?_insert_self]
    rfl
  · rw [find?_put_of_ne ho, find?_insert_of_ne ho, find?_written hw]

end TokenLedger.Balances
