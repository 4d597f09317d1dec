import TokenLedger.Proofs.AddressText
import TokenLedger.Proofs.Answers

/-!
# The body of a record reads back

The binary form of a value is read back from the front of any bytes, and
what stands behind it is left over. From this the body under which a record
is stored gives the record again.
-/

set_option autoImplicit false

namespace TokenLedger

namespace Text.Utf8

theorem encode_cons (c : Char) (cs : List Char) :
    encode (c :: cs) = String.utf8EncodeChar c ++ encode cs := List.flatMap_cons ..

theorem encodeChar_ascii {c : Char} (h : c.toNat < 128) :
    String.utf8EncodeChar c = [UInt8.ofNat c.toNat] := by
  have hle : c.val.toNat ≤ 0x7f := by
    show c.toNat ≤ 0x7f
    omega
  simp only [String.utf8EncodeChar, hle, if_true]
  rfl

theorem length_encode_ascii {cs : List Char} (h : ∀ c ∈ cs, c.toNat < 128) :
    (encode cs).length = cs.length := by
  induction cs with
  | nil => rfl
  | cons c cs ih =>
    have hs := ih fun d hd => h d (by simp [hd])
    rw [encode_cons, encodeChar_ascii (h c (by simp)), List.length_append, hs]
    simp [Nat.add_comm]

theorem decodeFrom_low {b : UInt8} (h : b < 0x80) (i : Nat) (bs : Bytes) :
    decodeFrom i (b :: bs) = (Char.ofNat b.toNat :: ·) <$> decodeFrom (i + 1) bs := by
  rw [decodeFrom.eq_def]
  exact if_pos h

theorem decodeFrom_encode_ascii {cs : List Char} (h : ∀ c ∈ cs, c.toNat < 128) (i : Nat) :
    decodeFrom i (encode cs) = .ok cs := by
  induction cs generalizing i with
  | nil => simp [encode, decodeFrom]
  | cons c cs ih =>
    have hc := h c (by simp)
    have hbyte : (UInt8.ofNat c.toNat).toNat = c.toNat := by
      simpa using Nat.mod_eq_of_lt (show c.toNat < 256 by omega)
    have hlow : UInt8.ofNat c.toNat < 0x80 := by
      rw [UInt8.lt_iff_toNat_lt, hbyte]
      exact hc
    rw [encode_cons, encodeChar_ascii hc, List.singleton_append, decodeFrom_low hlow,
      ih fun d hd => h d (by simp [hd]), hbyte, Char.ofNat_toNat]
    rfl

end Text.Utf8

namespace Wire

namespace Reader

theorem take_append {w : Bytes} {n : Nat} (h : w.length = n) (rest : Bytes) :
    take n (w ++ rest) = .ok (w, rest) := by
  have hle : n ≤ (w ++ rest).length := by simp [← h]
  rw [take, if_pos hle, List.take_left' h, List.drop_left' h]

theorem word_append {n m : Nat} (h : m < Radix.capacity 256 n) (rest : Bytes) :
    word n (Bytes.word n m ++ rest) = .ok (m, rest) := by
  rw [word, take_append (Bytes.length_word n m)]
  simp [Bytes.wordValue_word, Nat.mod_eq_of_lt h]

theorem text_append {cs : List Char} (h : ∀ c ∈ cs, c.toNat < 128)
    (hlen : cs.length < Radix.capacity 256 8) (rest : Bytes) :
    text (putText (String.ofList cs) ++ rest) = .ok (String.ofList cs, rest) := by
  have henc : (Text.Utf8.encode cs).length = cs.length := Text.Utf8.length_encode_ascii h
  have hle : cs.length ≤ (Text.Utf8.encode cs ++ rest).length := by simp [henc]
  have hdec : Text.Utf8.decode (Text.Utf8.encode cs) = .ok cs :=
    Text.Utf8.decodeFrom_encode_ascii h 0
  rw [putText, Text.Utf8.ofString, String.toList_ofList, text, List.append_assoc, henc,
    word_append hlen]
  simp only [Answers.ok_bind, if_pos hle, List.take_left' henc, List.drop_left' henc, hdec]

end Reader

/-- The written form of a value is read from the front of any bytes. -/
def ReadsBack (α : Type) [Binary α] : Prop :=
  ∀ (x : α) (rest : Bytes), get (put x ++ rest) = .ok (x, rest)

theorem readsBack_uint64 : ReadsBack UInt64 := by
  intro n rest
  have hn : n.toNat < Radix.capacity 256 8 := n.toNat_lt
  simp only [get, put, Reader.word_append hn]
  simp

theorem readsBack_bytes32 : ReadsBack Bytes32 := by
  intro a rest
  simp only [get, put, Reader.take_append a.length_toList]
  simp [Bytes32.ofList?_toList]

theorem readsBack_address : ReadsBack Address := by
  intro a rest
  have hlen : a.chars.length < Radix.capacity 256 8 := by
    rw [Address.length_chars]
    decide
  have htext := Reader.text_append (fun _ => Address.toNat_lt_of_mem_chars) hlen rest
  rw [← Address.text] at htext
  simp only [get, put, Reader.literal, htext]
  simp [Address.parse_text]

theorem readsBack_token : ReadsBack Token := by
  intro t rest
  have howner := readsBack_address t.owner (put t.balance ++ (put t.nonce ++ rest))
  have hbalance := readsBack_uint64 t.balance (put t.nonce ++ rest)
  have hnonce := readsBack_bytes32 t.nonce rest
  have hput : put t ++ rest = put t.owner ++ (put t.balance ++ (put t.nonce ++ rest)) := by
    show put t.owner ++ put t.balance ++ put t.nonce ++ rest = _
    rw [List.append_assoc, List.append_assoc]
  rw [hput]
  show (get (put t.owner ++ (put t.balance ++ (put t.nonce ++ rest))) >>= _) = _
  simp only [howner, hbalance, hnonce, Answers.ok_bind, Answers.pure_eq]

end Wire

theorem Token.ofBytes_toBytes (t : Token) : Token.ofBytes t.toBytes = .ok t := by
  have h := Wire.readsBack_token t []
  rw [List.append_nil] at h
  rw [Token.ofBytes, Token.toBytes, h]

end TokenLedger
