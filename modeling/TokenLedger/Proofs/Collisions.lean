import Mathlib.Data.List.Nodup
import TokenLedger.Transcript

/-!
# Strings without a collision

No hash is injective, so nothing here is assumed of the hash as a whole: a
finite list of strings is free of collisions when no two of them share a
digest. Among such strings a commitment fixes its record, a serial number
its commitment and a nonce its transition and slot.
-/

set_option autoImplicit false

namespace TokenLedger

/-- No two distinct strings of the list have the same digest. -/
def CollisionFree (strings : List Bytes) : Prop :=
  ∀ x ∈ strings, ∀ y ∈ strings, Blake2b.hash x = Blake2b.hash y → x = y

theorem CollisionFree.mono {xs ys : List Bytes} (h : CollisionFree ys) (hsub : xs ⊆ ys) :
    CollisionFree xs :=
  fun x hx y hy => h x (hsub hx) y (hsub hy)

/-- Distinct digests, listed once for each string, leave no room for a collision. -/
theorem collisionFree_of_nodup {xs ys : List Bytes} (hsub : xs ⊆ ys)
    (h : (ys.map Blake2b.hash).Nodup) : CollisionFree xs :=
  fun _ hx _ hy heq => List.inj_on_of_nodup_map h (hsub hx) (hsub hy) heq

theorem CollisionFree.append_comm {xs ys : List Bytes} (h : CollisionFree (xs ++ ys)) :
    CollisionFree (ys ++ xs) :=
  h.mono fun _ hx => List.mem_append.2 (List.mem_append.1 hx).symm

def Collides (strings : List Bytes) : Prop :=
  ∃ x ∈ strings, ∃ y ∈ strings, x ≠ y ∧ Blake2b.hash x = Blake2b.hash y

theorem collisionFree_or_collides (strings : List Bytes) :
    CollisionFree strings ∨ Collides strings := by
  by_cases h : Collides strings
  · exact .inr h
  · refine .inl fun x hx y hy heq => ?_
    by_contra hne
    exact h ⟨x, hx, y, hy, hne, heq⟩

/-! ## Preimages determine what they were made of -/

theorem Digest.preimage_inj {domain : Bytes} {ps qs : List Bytes}
    (h : preimage domain ps = preimage domain qs) : ps.flatten = qs.flatten :=
  List.append_cancel_left h

theorem Digest.domain_inj {domain domain' : Bytes} {ps qs : List Bytes}
    (hd : domain.length < Radix.capacity 256 8) (hd' : domain'.length < Radix.capacity 256 8)
    (h : preimage domain ps = preimage domain' qs) : domain = domain' := by
  rw [preimage, preimage, List.append_assoc, List.append_assoc] at h
  obtain ⟨hlength, hrest⟩ := List.append_inj h (by rw [Bytes.length_word, Bytes.length_word])
  exact (List.append_inj hrest (Bytes.word_inj hd hd' hlength)).1

theorem Address.key_inj {a b : Address} (h : a.key.toList = b.key.toList) : a = b :=
  congrArg Address.mk (Bytes32.ext h)

theorem Commitment.digest_inj {c d : Commitment} (h : c.digest.toList = d.digest.toList) : c = d :=
  congrArg Commitment.mk (Bytes32.ext h)

theorem TransitionId.digest_inj {id id' : TransitionId}
    (h : id.digest.toList = id'.digest.toList) : id = id' :=
  congrArg TransitionId.mk (Bytes32.ext h)

theorem Bytes.word_toNat_inj {m n : UInt64} (h : word 8 m.toNat = word 8 n.toNat) : m = n := by
  have hfits (n : UInt64) : n.toNat < Radix.capacity 256 8 := n.toNat_lt
  exact UInt64.toNat_inj.1 (word_inj (hfits m) (hfits n) h)

theorem Token.commitmentPreimage_inj {t u : Token}
    (h : t.commitmentPreimage = u.commitmentPreimage) : t = u := by
  obtain ⟨owner, balance, nonce⟩ := t
  obtain ⟨owner', balance', nonce'⟩ := u
  have hparts := Digest.preimage_inj h
  simp only [List.flatten_cons, List.flatten_nil, List.append_nil] at hparts
  obtain ⟨hkey, hrest⟩ := List.append_inj hparts
    (by rw [Bytes32.length_toList, Bytes32.length_toList])
  obtain ⟨hbalance, hnonce⟩ := List.append_inj hrest
    (by rw [Bytes.length_word, Bytes.length_word])
  rw [Address.key_inj hkey, Bytes.word_toNat_inj hbalance, Bytes32.ext hnonce]

theorem Commitment.serialPreimage_inj {c d : Commitment}
    (h : c.serialPreimage = d.serialPreimage) : c = d := by
  have hparts := Digest.preimage_inj h
  simp only [List.flatten_cons, List.flatten_nil, List.append_nil] at hparts
  exact Commitment.digest_inj hparts

theorem TransitionId.noncePreimage_inj {id id' : TransitionId} {i j : Nat}
    (hi : i < Radix.capacity 256 2) (hj : j < Radix.capacity 256 2)
    (h : id.noncePreimage i = id'.noncePreimage j) : id = id' ∧ i = j := by
  have hparts := Digest.preimage_inj h
  simp only [List.flatten_cons, List.flatten_nil, List.append_nil] at hparts
  obtain ⟨hid, hslot⟩ := List.append_inj hparts
    (by rw [Bytes32.length_toList, Bytes32.length_toList])
  exact ⟨TransitionId.digest_inj hid, Bytes.word_inj hi hj hslot⟩

/-! ## Names among strings without a collision -/

namespace CollisionFree

variable {strings : List Bytes}

theorem token_eq (hf : CollisionFree strings) {t u : Token}
    (ht : t.commitmentPreimage ∈ strings) (hu : u.commitmentPreimage ∈ strings)
    (h : t.commitment = u.commitment) : t = u :=
  Token.commitmentPreimage_inj (hf _ ht _ hu (congrArg Commitment.digest h))

theorem commitment_eq (hf : CollisionFree strings) {c d : Commitment}
    (hc : c.serialPreimage ∈ strings) (hd : d.serialPreimage ∈ strings)
    (h : c.serial = d.serial) : c = d :=
  Commitment.serialPreimage_inj (hf _ hc _ hd (congrArg SerialNumber.digest h))

theorem nonce_eq (hf : CollisionFree strings) {id id' : TransitionId} {i j : Nat}
    (hi : i < Radix.capacity 256 2) (hj : j < Radix.capacity 256 2)
    (hmi : id.noncePreimage i ∈ strings) (hmj : id'.noncePreimage j ∈ strings)
    (h : id.nonce i = id'.nonce j) : id = id' ∧ i = j :=
  TransitionId.noncePreimage_inj hi hj (hf _ hmi _ hmj h)

end CollisionFree

end TokenLedger
