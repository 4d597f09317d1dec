import TokenLedger.Proofs.Producible

/-!
# Identifiers are unique

Transcripts, nonces, commitments and serial numbers are hashed under four
tags. Each of these strings determines what it was made of and its tag, so
equal identifiers of two evaluations come from the same call in the same
context and the same slot, unless two of the strings hashed on the way
collide.
-/

set_option autoImplicit false

namespace TokenLedger

/-! ## Arguments -/

theorem Function.ascii_name_inj {f g : Function}
    (h : Bytes.ascii f.name = Bytes.ascii g.name) : f = g := by
  have hfound (f : Function) :
      (Function.all.find? fun g => Bytes.ascii g.name == Bytes.ascii f.name) = some f := by
    cases f <;> decide
  have hf := hfound f
  rw [h, hfound g] at hf
  exact (Option.some.inj hf).symm

namespace Scalar

theorem utf8_text (a : Scalar) : Text.Utf8.ofString a.text = Text.Utf8.encode a.chars := by
  rw [Text.Utf8.ofString, text, String.toList_ofList]

theorem utf8_text_inj {a b : Scalar}
    (h : Text.Utf8.ofString a.text = Text.Utf8.ofString b.text) : a = b := by
  have hdecode (a : Scalar) : Text.Utf8.decodeFrom 0 (Text.Utf8.encode a.chars) = .ok a.chars :=
    Text.Utf8.decodeFrom_encode_ascii (fun _ => toNat_lt_of_mem_chars) 0
  have hchars := hdecode a
  rw [← utf8_text, h, utf8_text, hdecode b] at hchars
  have hparse := parse_text a
  rw [text, ← Except.ok.inj hchars, ← text, parse_text b] at hparse
  exact (Except.ok.inj hparse).symm

end Scalar

namespace Call

theorem length_lt_of_mem_arguments {call : Call} {x : Bytes} (h : x ∈ call.arguments) :
    x.length < Radix.capacity 256 4 := by
  have hcap : 82 < Radix.capacity 256 4 := by decide
  have hblock (a : Bytes32) : a.toList.length ≤ 82 := by
    rw [a.length_toList]
    decide
  have htext (a : Scalar) : (Text.Utf8.ofString a.text).length ≤ 82 := by
    rw [Scalar.utf8_text, Text.Utf8.length_encode_ascii fun _ => Scalar.toNat_lt_of_mem_chars]
    exact a.length_chars_le
  have hle : ∀ x ∈ call.arguments, x.length ≤ 82 := by
    cases call <;> simp [arguments, hblock, htext]
  have := hle x h
  omega

/-- The transcript names the inputs by their commitments; all else it holds in full. -/
theorem eq_of_arguments {call call' : Call} (hfunction : call.function = call'.function)
    (harguments : call.arguments = call'.arguments)
    (hinputs : ∀ t ∈ call.inputs, ∀ u ∈ call'.inputs, t.commitment = u.commitment → t = u) :
    call = call' := by
  -- the function tells the eight calls apart, so only equal ones have arguments to compare
  cases call with
  | mint amount =>
    cases call' with
    | mint amount' =>
      simp only [arguments, List.cons.injEq, and_true] at harguments
      rw [Bytes.word_toNat_inj harguments]
    | _ => cases hfunction
  | transferPrivate receiver amount input =>
    cases call' with
    | transferPrivate receiver' amount' input' =>
      simp only [arguments, List.cons.injEq, and_true] at harguments
      obtain ⟨hreceiver, hamount, hinput⟩ := harguments
      rw [Address.key_inj hreceiver, Bytes.word_toNat_inj hamount,
        hinputs input (by simp [inputs]) input' (by simp [inputs]) (Commitment.digest_inj hinput)]
    | _ => cases hfunction
  | transferPrivateToPublic receiver amount input =>
    cases call' with
    | transferPrivateToPublic receiver' amount' input' =>
      simp only [arguments, List.cons.injEq, and_true] at harguments
      obtain ⟨hreceiver, hamount, hinput⟩ := harguments
      rw [Address.key_inj hreceiver, Bytes.word_toNat_inj hamount,
        hinputs input (by simp [inputs]) input' (by simp [inputs]) (Commitment.digest_inj hinput)]
    | _ => cases hfunction
  | transferPublicToPrivate receiver amount =>
    cases call' with
    | transferPublicToPrivate receiver' amount' =>
      simp only [arguments, List.cons.injEq, and_true] at harguments
      rw [Address.key_inj harguments.1, Bytes.word_toNat_inj harguments.2]
    | _ => cases hfunction
  | join input input2 =>
    cases call' with
    | join input' input2' =>
      simp only [arguments, List.cons.injEq, and_true] at harguments
      obtain ⟨hinput, hinput2⟩ := harguments
      rw [hinputs input (by simp [inputs]) input' (by simp [inputs]) (Commitment.digest_inj hinput),
        hinputs input2 (by simp [inputs]) input2' (by simp [inputs])
          (Commitment.digest_inj hinput2)]
    | _ => cases hfunction
  | mintPublic receiver amount =>
    cases call' with
    | mintPublic receiver' amount' =>
      simp only [arguments, List.cons.injEq, and_true] at harguments
      rw [Address.key_inj harguments.1, Bytes.word_toNat_inj harguments.2]
    | _ => cases hfunction
  | transferPublic receiver amount =>
    cases call' with
    | transferPublic receiver' amount' =>
      simp only [arguments, List.cons.injEq, and_true] at harguments
      rw [Address.key_inj harguments.1, Bytes.word_toNat_inj harguments.2]
    | _ => cases hfunction
  | gate a b =>
    cases call' with
    | gate a' b' =>
      simp only [arguments, List.cons.injEq, and_true] at harguments
      rw [Scalar.utf8_text_inj harguments.1, Scalar.utf8_text_inj harguments.2]
    | _ => cases hfunction

end Call

/-! ## Transcripts -/

namespace Transcript

theorem append_item_inj {x y xs ys : Bytes} (hx : x.length < Radix.capacity 256 4)
    (hy : y.length < Radix.capacity 256 4) (h : item x ++ xs = item y ++ ys) :
    x = y ∧ xs = ys := by
  rw [item, item, List.append_assoc, List.append_assoc] at h
  obtain ⟨hlength, hrest⟩ := List.append_inj h (by rw [Bytes.length_word, Bytes.length_word])
  exact List.append_inj hrest (Bytes.word_inj hx hy hlength)

theorem item_ne_nil (x : Bytes) : item x ≠ [] := by
  intro h
  have hlength := congrArg List.length h
  rw [item, List.length_append, Bytes.length_word, List.length_nil] at hlength
  omega

theorem flatMap_item_inj {xs ys : List Bytes} (hx : ∀ x ∈ xs, x.length < Radix.capacity 256 4)
    (hy : ∀ y ∈ ys, y.length < Radix.capacity 256 4) (h : xs.flatMap item = ys.flatMap item) :
    xs = ys := by
  induction xs generalizing ys with
  | nil =>
    cases ys with
    | nil => rfl
    | cons y ys =>
      have hitem := (List.append_eq_nil_iff.1 h.symm).1
      exact absurd hitem (item_ne_nil y)
  | cons x xs ih =>
    cases ys with
    | nil =>
      have hitem := (List.append_eq_nil_iff.1 h).1
      exact absurd hitem (item_ne_nil x)
    | cons y ys =>
      obtain ⟨hhead, htail⟩ := append_item_inj (hx x (by simp)) (hy y (by simp)) h
      rw [hhead, ih (fun z hz => hx z (by simp [hz])) (fun z hz => hy z (by simp [hz])) htail]

theorem length_lt_of_mem_items {ctx : Context} {call : Call} {x : Bytes}
    (h : x ∈ items ctx call) : x.length < Radix.capacity 256 4 := by
  have hname : (Bytes.ascii call.function.name).length < Radix.capacity 256 4 := by
    cases call.function <;> decide
  have hblock (a : Bytes32) : a.toList.length < Radix.capacity 256 4 := by
    rw [a.length_toList]
    decide
  simp only [items, List.mem_cons] at h
  rcases h with rfl | rfl | rfl | h
  · exact hname
  · exact hblock _
  · exact hblock _
  · exact Call.length_lt_of_mem_arguments h

variable {ctx ctx' : Context} {call call' : Call}

theorem preimage_inj (h : preimage ctx call = preimage ctx' call') :
    ctx = ctx' ∧ call.function = call'.function ∧ call.arguments = call'.arguments := by
  have hparts := Digest.preimage_inj h
  simp only [List.flatten_cons, List.flatten_nil, List.append_nil] at hparts
  have hitems := flatMap_item_inj (fun _ => length_lt_of_mem_items)
    (fun _ => length_lt_of_mem_items) hparts
  simp only [items, List.cons.injEq] at hitems
  obtain ⟨hname, hcaller, hseed, harguments⟩ := hitems
  refine ⟨?_, Function.ascii_name_inj hname, harguments⟩
  obtain ⟨caller, seed⟩ := ctx
  obtain ⟨caller', seed'⟩ := ctx'
  exact congr (congrArg Context.mk (Address.key_inj hcaller)) (Bytes32.ext hseed)

/-- A transcript determines the context, and the call as far as its inputs do not collide. -/
theorem eq_of_preimage {strings : List Bytes} (hf : CollisionFree strings)
    (hinputs : ∀ t ∈ call.inputs ++ call'.inputs, t.commitmentPreimage ∈ strings)
    (h : preimage ctx call = preimage ctx' call') : ctx = ctx' ∧ call = call' := by
  obtain ⟨hctx, hfunction, harguments⟩ := preimage_inj h
  refine ⟨hctx, Call.eq_of_arguments hfunction harguments fun t ht u hu heq => ?_⟩
  exact hf.token_eq (hinputs t (List.mem_append_left _ ht)) (hinputs u (List.mem_append_right _ hu))
    heq

end Transcript

/-! ## Tags -/

inductive Domain where
  | transition
  | nonce
  | commitment
  | serial
  deriving DecidableEq

namespace Domain

def tag : Domain → Bytes
  | transition => Bytes.ascii "veil.transition"
  | nonce => Bytes.ascii "veil.nonce"
  | commitment => Bytes.ascii "veil.commitment"
  | serial => Bytes.ascii "veil.serial"

theorem length_tag_lt (d : Domain) : d.tag.length < Radix.capacity 256 8 := by
  cases d <;> decide

theorem tag_inj {d e : Domain} (h : d.tag = e.tag) : d = e := by
  revert h
  cases d <;> cases e <;> decide

end Domain

inductive Tagged where
  | transition (ctx : Context) (call : Call)
  | nonce (id : TransitionId) (slot : UInt16)
  | commitment (t : Token)
  | serial (c : Commitment)

namespace Tagged

def domain : Tagged → Domain
  | transition _ _ => .transition
  | nonce _ _ => .nonce
  | commitment _ => .commitment
  | serial _ => .serial

def preimage : Tagged → Bytes
  | transition ctx call => Transcript.preimage ctx call
  | nonce id slot => id.noncePreimage slot.toNat
  | commitment t => t.commitmentPreimage
  | serial c => c.serialPreimage

def inputs : Tagged → List Token
  | transition _ call => call.inputs
  | nonce _ _ | commitment _ | serial _ => []

variable {a b : Tagged}

theorem preimage_eq (a : Tagged) : ∃ parts, a.preimage = Digest.preimage a.domain.tag parts := by
  cases a <;> exact ⟨_, rfl⟩

theorem domain_inj (h : a.preimage = b.preimage) : a.domain = b.domain := by
  obtain ⟨parts, ha⟩ := a.preimage_eq
  obtain ⟨parts', hb⟩ := b.preimage_eq
  rw [ha, hb] at h
  exact Domain.tag_inj
    (Digest.domain_inj a.domain.length_tag_lt b.domain.length_tag_lt h)

theorem preimage_inj (hf : CollisionFree ((a.inputs ++ b.inputs).map Token.commitmentPreimage))
    (h : a.preimage = b.preimage) : a = b := by
  have hdomain := domain_inj h
  cases a with
  | transition ctx call =>
    cases b with
    | transition ctx' call' =>
      obtain ⟨hctx, hcall⟩ := Transcript.eq_of_preimage hf (fun _ => List.mem_map_of_mem) h
      rw [hctx, hcall]
    | _ => cases hdomain
  | nonce id slot =>
    cases b with
    | nonce id' slot' =>
      obtain ⟨hid, hslot⟩ := TransitionId.noncePreimage_inj slot.toNat_lt slot'.toNat_lt h
      rw [hid, UInt16.toNat_inj.1 hslot]
    | _ => cases hdomain
  | commitment t =>
    cases b with
    | commitment u => rw [Token.commitmentPreimage_inj h]
    | _ => cases hdomain
  | serial c =>
    cases b with
    | serial d => rw [Commitment.serialPreimage_inj h]
    | _ => cases hdomain

end Tagged

/-! ## Evaluations -/

namespace Call

def strings (ctx : Context) (call : Call) (tx : Transaction) : List Bytes :=
  Transcript.preimage ctx call :: (call.inputs.map Token.commitmentPreimage ++ tx.nonceStrings ++
    tx.outputs.flatMap Token.strings)

variable {ctx ctx' : Context} {call call' : Call} {tx tx' : Transaction} {i j : Nat} {t u : Token}

theorem id_eq (h : call.evaluate ctx = .ok tx) : tx.id = Transcript.id ctx call := by
  obtain ⟨-, issued, value, -, -, rfl⟩ := evaluate_eq_ok.1 h
  rfl

theorem transcript_mem : Transcript.preimage ctx call ∈ strings ctx call tx := List.mem_cons_self

theorem input_mem (ht : t ∈ call.inputs) : t.commitmentPreimage ∈ strings ctx call tx :=
  List.mem_cons_of_mem _ (List.mem_append_left _ (List.mem_append_left _ (List.mem_map_of_mem ht)))

theorem nonce_mem (hi : i < tx.outputs.length) : tx.id.noncePreimage i ∈ strings ctx call tx :=
  List.mem_cons_of_mem _ (List.mem_append_left _ (List.mem_append_right _ (noncePreimage_mem hi)))

theorem output_mem (ht : t ∈ tx.outputs) {x : Bytes} (hx : x ∈ t.strings) :
    x ∈ strings ctx call tx :=
  List.mem_cons_of_mem _ (List.mem_append_right _ (List.mem_flatMap.2 ⟨t, ht, hx⟩))

theorem slot_lt (h : call.evaluate ctx = .ok tx) (hi : i < tx.outputs.length) :
    i < Radix.capacity 256 2 := by
  have hissues := (evaluate_sound h).issues
  have htwo := tx.function.issues_le_two
  have hcap : 2 < Radix.capacity 256 2 := by decide
  omega

theorem eq_of_id (h : call.evaluate ctx = .ok tx) (h' : call'.evaluate ctx' = .ok tx')
    (hf : CollisionFree (strings ctx call tx ++ strings ctx' call' tx')) (hid : tx.id = tx'.id) :
    ctx = ctx' ∧ call = call' := by
  rw [id_eq h, id_eq h'] at hid
  have hpreimage := hf _ (List.mem_append_left _ transcript_mem) _
    (List.mem_append_right _ transcript_mem) (congrArg TransitionId.digest hid)
  refine Transcript.eq_of_preimage hf (fun t ht => ?_) hpreimage
  rcases List.mem_append.1 ht with ht | ht
  · exact List.mem_append_left _ (input_mem ht)
  · exact List.mem_append_right _ (input_mem ht)

/-- A commitment leads back to the nonce in it, and the nonce to the transition and the slot. -/
theorem eq_of_commitment (h : call.evaluate ctx = .ok tx) (h' : call'.evaluate ctx' = .ok tx')
    (hf : CollisionFree (strings ctx call tx ++ strings ctx' call' tx'))
    (ht : tx.outputs[i]? = some t) (hu : tx'.outputs[j]? = some u)
    (hc : t.commitment = u.commitment) : ctx = ctx' ∧ call = call' ∧ i = j := by
  have hi := (List.getElem?_eq_some_iff.1 ht).1
  have hj := (List.getElem?_eq_some_iff.1 hu).1
  have htoken : t = u := hf.token_eq
    (List.mem_append_left _ (output_mem (List.mem_of_getElem? ht) (by simp [Token.strings])))
    (List.mem_append_right _ (output_mem (List.mem_of_getElem? hu) (by simp [Token.strings]))) hc
  have hnonce : tx.id.nonce i = tx'.id.nonce j := by
    rw [← (evaluate_ok h).nonce_output ht, ← (evaluate_ok h').nonce_output hu, htoken]
  obtain ⟨hid, hslot⟩ := hf.nonce_eq (slot_lt h hi) (slot_lt h' hj)
    (List.mem_append_left _ (nonce_mem hi)) (List.mem_append_right _ (nonce_mem hj)) hnonce
  obtain ⟨hctx, hcall⟩ := eq_of_id h h' hf hid
  exact ⟨hctx, hcall, hslot⟩

theorem eq_of_serial (h : call.evaluate ctx = .ok tx) (h' : call'.evaluate ctx' = .ok tx')
    (hf : CollisionFree (strings ctx call tx ++ strings ctx' call' tx'))
    (ht : tx.outputs[i]? = some t) (hu : tx'.outputs[j]? = some u) (hs : t.serial = u.serial) :
    ctx = ctx' ∧ call = call' ∧ i = j := by
  apply eq_of_commitment h h' hf ht hu
  exact hf.commitment_eq
    (List.mem_append_left _ (output_mem (List.mem_of_getElem? ht) (by simp [Token.strings])))
    (List.mem_append_right _ (output_mem (List.mem_of_getElem? hu) (by simp [Token.strings]))) hs

theorem nodup_commitments (h : call.evaluate ctx = .ok tx)
    (hf : CollisionFree (strings ctx call tx)) : (tx.outputs.map Token.commitment).Nodup := by
  have hboth : CollisionFree (strings ctx call tx ++ strings ctx call tx) :=
    hf.mono (List.append_subset.2 ⟨List.Subset.refl _, List.Subset.refl _⟩)
  rw [List.nodup_iff_pairwise_ne, List.pairwise_iff_getElem]
  intro i j hi hj hlt heq
  rw [List.length_map] at hi hj
  rw [List.getElem_map, List.getElem_map] at heq
  have hslot := (eq_of_commitment h h hboth (List.getElem?_eq_getElem hi)
    (List.getElem?_eq_getElem hj) heq).2.2
  omega

/-- Two evaluations with an identifier in common are one, and in one slot, unless two of
the strings hashed for them collide. -/
structure Distinguished (ctx : Context) (call : Call) (tx : Transaction) (ctx' : Context)
    (call' : Call) (tx' : Transaction) : Prop where
  id : tx.id = tx'.id →
    (ctx = ctx' ∧ call = call') ∨ Collides (strings ctx call tx ++ strings ctx' call' tx')
  output : ∀ (i j : Nat) (t u : Token), tx.outputs[i]? = some t → tx'.outputs[j]? = some u →
    t.commitment = u.commitment ∨ t.serial = u.serial →
      (ctx = ctx' ∧ call = call' ∧ i = j) ∨
        Collides (strings ctx call tx ++ strings ctx' call' tx')

/-- Identifiers are unique: the strings behind them determine what they are made of, and the
outputs of one transition are distinct records. -/
theorem distinguished_of_evaluate (h : call.evaluate ctx = .ok tx)
    (h' : call'.evaluate ctx' = .ok tx') :
    Distinguished ctx call tx ctx' call' tx' ∧
      ((tx.outputs.map Token.commitment).Nodup ∨ Collides (strings ctx call tx)) ∧
      ∀ a b : Tagged, a.preimage = b.preimage →
        a = b ∨ Collides ((a.inputs ++ b.inputs).map Token.commitmentPreimage) := by
  refine ⟨?_, ?_, ?_⟩
  · rcases collisionFree_or_collides (strings ctx call tx ++ strings ctx' call' tx') with hf | hc
    · constructor
      · exact fun hid => .inl (eq_of_id h h' hf hid)
      · rintro i j t u ht hu (hc | hs)
        · exact .inl (eq_of_commitment h h' hf ht hu hc)
        · exact .inl (eq_of_serial h h' hf ht hu hs)
    · exact ⟨fun _ => .inr hc, fun _ _ _ _ _ _ _ => .inr hc⟩
  · exact (collisionFree_or_collides _).imp_left (nodup_commitments h)
  · intro a b hpreimage
    exact (collisionFree_or_collides _).imp_left fun hf => Tagged.preimage_inj hf hpreimage

theorem distinguished_halves :
    let ctx : Context := ⟨Sample.owner, Bytes32.replicate 1⟩
    let split := transferPrivate Sample.owner 50 (Sample.record 100 1)
    let tx := split.transaction ctx [(Sample.owner, 50), (Sample.owner, 50)] none
    let tx' := (mint 50).transaction ctx [(Sample.owner, 50)] none
    split.evaluate ctx = .ok tx ∧ (mint 50).evaluate ctx = .ok tx' ∧
      Distinguished ctx split tx ctx (mint 50) tx' ∧
      ((tx.outputs.map Token.commitment).Nodup ∨ Collides (strings ctx split tx)) := by
  intro ctx split tx tx'
  have h : split.evaluate ctx = .ok tx :=
    evaluate_eq_ok.2 ⟨by decide, _, _, by decide, rfl, rfl⟩
  have h' : (mint 50).evaluate ctx = .ok tx' :=
    evaluate_eq_ok.2 ⟨by decide, _, _, rfl, rfl, rfl⟩
  have hboth := distinguished_of_evaluate h h'
  exact ⟨h, h', hboth.1, hboth.2.1⟩

end Call

end TokenLedger
