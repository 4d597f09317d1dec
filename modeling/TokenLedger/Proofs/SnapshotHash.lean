import TokenLedger.Proofs.Collisions
import TokenLedger.Proofs.SnapshotBody

/-!
# The hash of a snapshot binds its content

What is hashed lists the sections behind their counts, in items of a fixed
width, so it comes apart in one way only. Accounts stand in it by their keys
and serial numbers by their digests, records only by their commitments. Two
snapshots that verify under one hash are therefore the same, or two of the
strings hashed for them collide.
-/

set_option autoImplicit false

namespace TokenLedger

theorem SerialNumber.digest_inj {n m : SerialNumber} (h : n.digest.toList = m.digest.toList) :
    n = m :=
  congrArg SerialNumber.mk (Bytes32.ext h)

namespace Bytes

variable {α : Type} {f : α → Bytes} {width : Nat}

theorem flatMap_append_inj (hwidth : ∀ x, (f x).length = width) {xs ys : List α}
    {rest rest' : Bytes} (hlength : xs.length = ys.length)
    (h : xs.flatMap f ++ rest = ys.flatMap f ++ rest') :
    xs.map f = ys.map f ∧ rest = rest' := by
  induction xs generalizing ys with
  | nil =>
    cases List.length_eq_zero_iff.1 hlength.symm
    exact ⟨rfl, h⟩
  | cons x xs ih =>
    cases ys with
    | nil => cases hlength
    | cons y ys =>
      rw [List.flatMap_cons, List.flatMap_cons, List.append_assoc, List.append_assoc] at h
      obtain ⟨hhead, htail⟩ := List.append_inj h (by rw [hwidth, hwidth])
      obtain ⟨hmap, hrest⟩ := ih (Nat.succ.inj hlength) htail
      exact ⟨by rw [List.map_cons, List.map_cons, hhead, hmap], hrest⟩

/-- A section is its count and its items, and nothing of it can pass for what follows. -/
theorem section_append_inj (hwidth : ∀ x, (f x).length = width) {xs ys : List α}
    {rest rest' : Bytes} (hx : xs.length < Radix.capacity 256 8)
    (hy : ys.length < Radix.capacity 256 8)
    (h : word 8 xs.length ++ (xs.flatMap f ++ rest) = word 8 ys.length ++ (ys.flatMap f ++ rest')) :
    xs.map f = ys.map f ∧ rest = rest' := by
  obtain ⟨hcount, hitems⟩ := List.append_inj h (by rw [length_word, length_word])
  exact flatMap_append_inj hwidth (word_inj hx hy hcount) hitems

end Bytes

namespace CollisionFree

variable {strings : List Bytes}

theorem tokens_eq (hf : CollisionFree strings) {ts us : List Token}
    (ht : ts.map Token.commitmentPreimage ⊆ strings)
    (hu : us.map Token.commitmentPreimage ⊆ strings)
    (h : ts.map Token.commitment = us.map Token.commitment) : ts = us := by
  induction ts generalizing us with
  | nil => exact (List.map_eq_nil_iff.1 h.symm).symm
  | cons t ts ih =>
    obtain ⟨u, us, rfl, hhead, htail⟩ := List.map_eq_cons_iff.1 h.symm
    rw [List.map_cons, List.cons_subset] at ht hu
    rw [hf.token_eq ht.1 hu.1 hhead.symm, ih ht.2 hu.2 htail.symm]

end CollisionFree

namespace Snapshot

def strings (s : Snapshot) : List Bytes := s.preimage :: s.records.map Token.commitmentPreimage

structure SameContent (s s' : Snapshot) : Prop where
  version : s.version = s'.version
  height : s.height = s'.height
  accounts : s.accounts = s'.accounts
  records : s.records = s'.records
  spent : s.spent = s'.spent

variable {s s' : Snapshot}

theorem preimage_inj (hs : s.Countable) (hs' : s'.Countable) (h : s.preimage = s'.preimage) :
    s.version = s'.version ∧ s.height = s'.height ∧ s.accounts = s'.accounts ∧
      s.records.map Token.commitment = s'.records.map Token.commitment ∧ s.spent = s'.spent := by
  -- from the front: two words of known width, then each section behind its count
  simp only [preimage, List.append_assoc] at h
  obtain ⟨hversion, h⟩ := List.append_inj h (by rw [Bytes.length_word, Bytes.length_word])
  obtain ⟨hheight, h⟩ := List.append_inj h (by rw [Bytes.length_word, Bytes.length_word])
  obtain ⟨haccounts, h⟩ := Bytes.section_append_inj
    (fun p => by rw [List.length_append, p.1.key.length_toList, Bytes.length_word])
    hs.accounts hs'.accounts h
  obtain ⟨hrecords, h⟩ := Bytes.section_append_inj
    (fun t => t.commitment.digest.length_toList) hs.records hs'.records h
  rw [← List.append_nil (s.spent.flatMap _), ← List.append_nil (s'.spent.flatMap _)] at h
  obtain ⟨hspent, -⟩ := Bytes.section_append_inj
    (fun n => n.digest.length_toList) hs.spent hs'.spent h
  have hfits (n : UInt32) : n.toNat < Radix.capacity 256 4 := n.toNat_lt
  refine ⟨?_, Bytes.word_toNat_inj hheight, ?_, ?_, ?_⟩
  · exact UInt32.toNat_inj.1 (Bytes.word_inj (hfits _) (hfits _) hversion)
  · refine (List.map_inj_right fun p q hpq => ?_).1 haccounts
    obtain ⟨hkey, hbalance⟩ := List.append_inj hpq
      (by rw [p.1.key.length_toList, q.1.key.length_toList])
    exact Prod.ext (Address.key_inj hkey) (Bytes.word_toNat_inj hbalance)
  · refine (List.map_inj_right fun c d => Commitment.digest_inj).1 ?_
    rw [List.map_map, List.map_map]
    exact hrecords
  · exact (List.map_inj_right fun n m => SerialNumber.digest_inj).1 hspent

theorem sameContent_of_contentHash (hs : s.Countable) (hs' : s'.Countable)
    (hf : CollisionFree (s.strings ++ s'.strings)) (h : s.contentHash = s'.contentHash) :
    s.SameContent s' := by
  have hpreimage : s.preimage = s'.preimage :=
    hf _ (by simp [strings]) _ (by simp [strings]) h
  obtain ⟨hversion, hheight, haccounts, hrecords, hspent⟩ := preimage_inj hs hs' hpreimage
  refine ⟨hversion, hheight, haccounts, hf.tokens_eq ?_ ?_ hrecords, hspent⟩
  · exact fun x hx => List.mem_append_left _ (List.mem_cons_of_mem _ hx)
  · exact fun x hx => List.mem_append_right _ (List.mem_cons_of_mem _ hx)

/-- Among snapshots of one hash at most one content verifies, unless strings collide. -/
structure Bound (s s' : Snapshot) : Prop where
  same : s.verify = true → s'.verify = true →
    s.SameContent s' ∨ Collides (s.strings ++ s'.strings)
  changed : s.verify = true → ¬s.SameContent s' → s'.verify = false ∨
    Collides (s.strings ++ s'.strings)

theorem bound_of_hash (hs : s.Countable) (hs' : s'.Countable) (h : s.hash = s'.hash) :
    s.Bound s' := by
  have hsame (hv : s.verify = true) (hv' : s'.verify = true) :
      s.SameContent s' ∨ Collides (s.strings ++ s'.strings) := by
    have hcontent : s.contentHash = s'.contentHash := by
      rw [← eq_of_beq hv, ← eq_of_beq hv', h]
    exact (collisionFree_or_collides _).imp_left fun hf =>
      sameContent_of_contentHash hs hs' hf hcontent
  refine ⟨hsame, fun hv hchanged => ?_⟩
  cases hv' : s'.verify with
  | false => exact .inl rfl
  | true => exact .inr ((hsame hv hv').resolve_left hchanged)

theorem bound_dropped :
    sample.Countable ∧ { sample with spent := [] }.Countable ∧ sample.verify = true ∧
      ¬sample.SameContent { sample with spent := [] } ∧
        ({ sample with spent := [] }.verify = false ∨
          Collides (sample.strings ++ strings { sample with spent := [] })) := by
  have hdropped : { sample with spent := [] }.Countable :=
    ⟨countable_sample.accounts, countable_sample.records, by decide⟩
  have hverify : sample.verify = true := verify_create ..
  have hchanged : ¬sample.SameContent { sample with spent := [] } := by
    intro h
    cases h.spent
  have hbound := bound_of_hash countable_sample hdropped rfl
  exact ⟨countable_sample, hdropped, hverify, hchanged, hbound.changed hverify hchanged⟩

end Snapshot

end TokenLedger
