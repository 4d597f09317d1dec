import Mathlib.Data.List.Nodup
import TokenLedger.Proofs.AddressText
import TokenLedger.Proofs.JsonText
import TokenLedger.Wire.Messages

/-!
# JSON forms read back

The JSON form of a value is plain and gives the value again, so its text does.
An object under names that are all different has each of its members looked up
under the name of the member.
-/

set_option autoImplicit false

namespace TokenLedger

namespace Json

theorem lookup_mem {ms : List (String × Json)} (hnodup : (ms.map Prod.fst).Nodup)
    {m : String × Json} (hm : m ∈ ms) : ms.lookup m.1 = some m.2 := by
  induction ms with
  | nil => cases hm
  | cons m' ms ih =>
    obtain ⟨hfresh, hnodup⟩ := List.nodup_cons.1 hnodup
    rcases List.mem_cons.1 hm with rfl | hm
    · exact List.lookup_cons_self
    · have hne : (m.1 == m'.1) = false := by
        rw [beq_eq_false_iff_ne]
        rintro heq
        exact hfresh (heq ▸ List.mem_map_of_mem hm)
      rw [List.lookup_cons, hne]
      exact ih hnodup hm

theorem fields?_object (ms : List (String × Json)) (hnodup : (ms.map Prod.fst).Nodup) :
    (object ms).fields? (ms.map Prod.fst) = some (ms.map fun m => some m.2) := by
  have honce : ((ms.map Prod.fst).all fun name => (ms.countP fun m => m.1 == name) ≤ 1) = true := by
    rw [List.all_eq_true]
    intro name _
    have hcount := List.nodup_iff_count_le_one.1 hnodup name
    rw [List.count, List.countP_map] at hcount
    exact decide_eq_true hcount
  have hlookup : (ms.map Prod.fst).map (fun name => ms.lookup name) =
      ms.map fun m => some m.2 := by
    rw [List.map_map]
    exact List.map_congr_left fun m hm => lookup_mem hnodup hm
  rw [fields?, if_pos honce, hlookup]

end Json

namespace Wire

/-- The JSON form is plain and gives the value again. -/
structure Lossless (α : Type) [JsonForm α] : Prop where
  plain : ∀ x : α, (toJson x).Plain
  back : ∀ x : α, ofJson? (toJson x) = some x

variable {α : Type} [JsonForm α]

theorem Lossless.parse?_render (h : Lossless α) (x : α) :
    (Json.parse? (toJson x).render).bind ofJson? = some x := by
  rw [Json.parse?_render (h.plain x), Option.bind_some, h.back]

theorem Lossless.required (h : Lossless α) (x : α) : required (some (toJson x)) = some x := h.back x

theorem lossless_uint8 : Lossless UInt8 where
  plain n := .nat n.toNat
  back n := by
    have hn : n.toNat < UInt8.size := n.toNat_lt
    simp [ofJson?, toJson, jsonWord?, hn]

theorem lossless_uint64 : Lossless UInt64 where
  plain n := .nat n.toNat
  back n := by
    have hn : n.toNat < UInt64.size := n.toNat_lt
    simp [ofJson?, toJson, jsonWord?, hn]

theorem lossless_list (h : Lossless α) : Lossless (List α) where
  plain xs := by
    refine .array fun j hj => ?_
    obtain ⟨x, -, rfl⟩ := List.mem_map.1 hj
    exact h.plain x
  back xs := Json.mapM_map h.back xs

theorem optional_some (j : Json) : optional (some j) = (ofJson? j : Option (Option α)) := by
  cases j <;> rfl

theorem ofJson?_of_ne_null {j : Json} (h : j ≠ .null) :
    (ofJson? j : Option (Option α)) = some <$> ofJson? j := by
  cases j with
  | null => exact absurd rfl h
  | _ => rfl

/-- Null stands for no value, so it must not be the form of one. -/
theorem lossless_option (h : Lossless α) (hne : ∀ x : α, toJson x ≠ .null) :
    Lossless (Option α) where
  plain x := by
    cases x with
    | none => exact .null
    | some x => exact h.plain x
  back x := by
    cases x with
    | none => rfl
    | some x =>
      show ofJson? (toJson x) = _
      rw [ofJson?_of_ne_null (hne x), h.back]
      rfl

theorem Lossless.optional (h : Lossless α) (hne : ∀ x : α, toJson x ≠ .null) (x : Option α) :
    optional (some (toJson x)) = some x :=
  (optional_some _).trans ((lossless_option h hne).back x)

theorem lossless_bytes32 : Lossless Bytes32 where
  plain a := (lossless_list lossless_uint8).plain a.toList
  back a := by
    show (ofJson? (toJson a.toList) : Option (List UInt8)).bind Bytes32.ofList? = some a
    rw [(lossless_list lossless_uint8).back, Option.bind_some, Bytes32.ofList?_toList]

theorem lossless_address : Lossless Address where
  plain a := .text a.text
  back a := by simp [ofJson?, toJson, Address.parse_text, Except.toOption]

theorem lossless_scalar : Lossless Scalar where
  plain a := .text a.text
  back a := by simp [ofJson?, toJson, Scalar.parse_text, Except.toOption]

theorem lossless_transitionId : Lossless TransitionId where
  plain t := lossless_bytes32.plain t.digest
  back t := by
    show TransitionId.mk <$> ofJson? (toJson t.digest) = some t
    rw [lossless_bytes32.back]
    rfl

theorem taggedFunction?_tag (f : Function) : taggedFunction? f.tag = some f := by
  cases f <;> decide

theorem lossless_function : Lossless Function where
  plain f := .text f.tag
  back f := taggedFunction?_tag f

/-! ## Records -/

theorem lossless_token : Lossless Token where
  plain t := by
    refine .object (List.forall_mem_cons.2 ⟨lossless_address.plain t.owner, ?_⟩)
    refine List.forall_mem_cons.2 ⟨lossless_uint64.plain t.balance, ?_⟩
    exact List.forall_mem_singleton.2 (lossless_bytes32.plain t.nonce)
  back t := by
    have hfields : (toJson t).fields? ["owner", "balance", "nonce"] =
        some [some (toJson t.owner), some (toJson t.balance), some (toJson t.nonce)] :=
      Json.fields?_object [("owner", toJson t.owner), ("balance", toJson t.balance),
        ("nonce", toJson t.nonce)] (by simp)
    show ((toJson t).fields? ["owner", "balance", "nonce"] >>= _) = _
    rw [hfields]
    simp [lossless_address.required, lossless_uint64.required, lossless_bytes32.required]

theorem plain_accountAmount (name : String) (account : Address) (amount : UInt64) :
    (accountAmount name account amount).Plain := by
  refine .object (List.forall_mem_cons.2 ⟨lossless_address.plain account, ?_⟩)
  exact List.forall_mem_singleton.2 (lossless_uint64.plain amount)

theorem accountAmount?_accountAmount {name : String} (hname : name ≠ "amount")
    (account : Address) (amount : UInt64) :
    accountAmount? name (accountAmount name account amount) = some (account, amount) := by
  have hfields : (accountAmount name account amount).fields? [name, "amount"] =
      some [some (toJson account), some (toJson amount)] :=
    Json.fields?_object [(name, toJson account), ("amount", toJson amount)] (by simpa using hname)
  show ((accountAmount name account amount).fields? [name, "amount"] >>= _) = _
  rw [hfields]
  simp [lossless_address.required, lossless_uint64.required]

theorem plain_payment (receiver : Address) (amount : UInt64) (input : Token) :
    (payment receiver amount input).Plain := by
  refine .object (List.forall_mem_cons.2 ⟨lossless_address.plain receiver, ?_⟩)
  refine List.forall_mem_cons.2 ⟨lossless_uint64.plain amount, ?_⟩
  exact List.forall_mem_singleton.2 (lossless_token.plain input)

theorem payment?_payment (receiver : Address) (amount : UInt64) (input : Token) :
    payment? (payment receiver amount input) = some (receiver, amount, input) := by
  have hfields : (payment receiver amount input).fields? ["receiver", "amount", "input"] =
      some [some (toJson receiver), some (toJson amount), some (toJson input)] :=
    Json.fields?_object [("receiver", toJson receiver), ("amount", toJson amount),
      ("input", toJson input)] (by simp)
  show ((payment receiver amount input).fields? ["receiver", "amount", "input"] >>= _) = _
  rw [hfields]
  simp [lossless_address.required, lossless_uint64.required, lossless_token.required]

theorem plain_callBody (c : Call) : (callBody c).Plain := by
  cases c with
  | mint amount => exact .object (List.forall_mem_singleton.2 (lossless_uint64.plain amount))
  | transferPrivate receiver amount input => exact plain_payment receiver amount input
  | transferPrivateToPublic receiver amount input => exact plain_payment receiver amount input
  | transferPublicToPrivate receiver amount => exact plain_accountAmount _ receiver amount
  | mintPublic receiver amount => exact plain_accountAmount _ receiver amount
  | transferPublic receiver amount => exact plain_accountAmount _ receiver amount
  | join input input2 =>
    refine .object (List.forall_mem_cons.2 ⟨lossless_token.plain input, ?_⟩)
    exact List.forall_mem_singleton.2 (lossless_token.plain input2)
  | gate a b =>
    refine .object (List.forall_mem_cons.2 ⟨lossless_scalar.plain a, ?_⟩)
    exact List.forall_mem_singleton.2 (lossless_scalar.plain b)

theorem callOfBody?_callBody (c : Call) : callOfBody? (callBody c) c.function = some c := by
  have hreceiver (receiver : Address) (amount : UInt64) :
      accountAmount? "receiver" (accountAmount "receiver" receiver amount) =
        some (receiver, amount) :=
    accountAmount?_accountAmount (by decide) receiver amount
  cases c with
  | mint amount =>
    have hfields : (callBody (.mint amount)).fields? ["amount"] = some [some (toJson amount)] :=
      Json.fields?_object [("amount", toJson amount)] (by simp)
    show ((callBody (.mint amount)).fields? ["amount"] >>= _) = _
    rw [hfields]
    simp [lossless_uint64.required]
  | transferPrivate receiver amount input =>
    simp [callOfBody?, callBody, Call.function, payment?_payment]
  | transferPrivateToPublic receiver amount input =>
    simp [callOfBody?, callBody, Call.function, payment?_payment]
  | transferPublicToPrivate receiver amount =>
    simp [callOfBody?, callBody, Call.function, hreceiver]
  | mintPublic receiver amount => simp [callOfBody?, callBody, Call.function, hreceiver]
  | transferPublic receiver amount => simp [callOfBody?, callBody, Call.function, hreceiver]
  | join input input2 =>
    have hfields : (callBody (.join input input2)).fields? ["input", "input2"] =
        some [some (toJson input), some (toJson input2)] :=
      Json.fields?_object [("input", toJson input), ("input2", toJson input2)] (by simp)
    show ((callBody (.join input input2)).fields? ["input", "input2"] >>= _) = _
    rw [hfields]
    simp [lossless_token.required]
  | gate a b =>
    have hfields : (callBody (.gate a b)).fields? ["a", "b"] =
        some [some (toJson a), some (toJson b)] :=
      Json.fields?_object [("a", toJson a), ("b", toJson b)] (by simp)
    show ((callBody (.gate a b)).fields? ["a", "b"] >>= _) = _
    rw [hfields]
    simp [lossless_scalar.required]

theorem lossless_call : Lossless Call where
  plain c := .object (List.forall_mem_singleton.2 (plain_callBody c))
  back c := by
    show (taggedFunction? c.function.tag >>= callOfBody? (callBody c)) = some c
    rw [taggedFunction?_tag]
    exact callOfBody?_callBody c

theorem plain_settlementBody (s : Settlement) : (settlementBody s).Plain := by
  cases s with
  | transferPrivateToPublic receiver amount => exact plain_accountAmount _ receiver amount
  | transferPublicToPrivate caller amount => exact plain_accountAmount _ caller amount
  | mintPublic receiver amount => exact plain_accountAmount _ receiver amount
  | transferPublic caller receiver amount =>
    refine .object (List.forall_mem_cons.2 ⟨lossless_address.plain caller, ?_⟩)
    refine List.forall_mem_cons.2 ⟨lossless_address.plain receiver, ?_⟩
    exact List.forall_mem_singleton.2 (lossless_uint64.plain amount)

theorem settlementOfBody?_settlementBody (s : Settlement) :
    settlementOfBody? (settlementBody s) s.function = some s := by
  cases s with
  | transferPrivateToPublic receiver amount =>
    simp [settlementOfBody?, settlementBody, Settlement.function,
      accountAmount?_accountAmount (show "receiver" ≠ "amount" by decide)]
  | transferPublicToPrivate caller amount =>
    simp [settlementOfBody?, settlementBody, Settlement.function,
      accountAmount?_accountAmount (show "caller" ≠ "amount" by decide)]
  | mintPublic receiver amount =>
    simp [settlementOfBody?, settlementBody, Settlement.function,
      accountAmount?_accountAmount (show "receiver" ≠ "amount" by decide)]
  | transferPublic caller receiver amount =>
    have hfields : (settlementBody (.transferPublic caller receiver amount)).fields?
          ["caller", "receiver", "amount"] =
        some [some (toJson caller), some (toJson receiver), some (toJson amount)] :=
      Json.fields?_object [("caller", toJson caller), ("receiver", toJson receiver),
        ("amount", toJson amount)] (by simp)
    show ((settlementBody (.transferPublic caller receiver amount)).fields?
      ["caller", "receiver", "amount"] >>= _) = _
    rw [hfields]
    simp [lossless_address.required, lossless_uint64.required]

theorem lossless_settlement : Lossless Settlement where
  plain s := .object (List.forall_mem_singleton.2 (plain_settlementBody s))
  back s := by
    show (taggedFunction? s.function.tag >>= settlementOfBody? (settlementBody s)) = some s
    rw [taggedFunction?_tag]
    exact settlementOfBody?_settlementBody s

theorem settlement_ne_null (s : Settlement) : toJson s ≠ .null := nofun

theorem scalar_ne_null (a : Scalar) : toJson a ≠ .null := nofun

theorem lossless_transaction : Lossless Transaction where
  plain tx := by
    have htokens := lossless_list lossless_token
    refine .object (List.forall_mem_cons.2 ⟨lossless_transitionId.plain tx.id, ?_⟩)
    refine List.forall_mem_cons.2 ⟨lossless_function.plain tx.function, ?_⟩
    refine List.forall_mem_cons.2 ⟨lossless_address.plain tx.caller, ?_⟩
    refine List.forall_mem_cons.2 ⟨htokens.plain tx.consumed, ?_⟩
    refine List.forall_mem_cons.2 ⟨htokens.plain tx.outputs, ?_⟩
    refine List.forall_mem_cons.2
      ⟨(lossless_option lossless_settlement settlement_ne_null).plain tx.settlement, ?_⟩
    exact List.forall_mem_singleton.2
      ((lossless_option lossless_scalar scalar_ne_null).plain tx.value)
  back tx := by
    have hfields : (toJson tx).fields?
          ["id", "function", "caller", "consumed", "outputs", "pending", "value"] =
        some [some (toJson tx.id), some (toJson tx.function), some (toJson tx.caller),
          some (toJson tx.consumed), some (toJson tx.outputs), some (toJson tx.settlement),
          some (toJson tx.value)] :=
      Json.fields?_object [("id", toJson tx.id), ("function", toJson tx.function),
        ("caller", toJson tx.caller), ("consumed", toJson tx.consumed),
        ("outputs", toJson tx.outputs), ("pending", toJson tx.settlement),
        ("value", toJson tx.value)] (by simp)
    show ((toJson tx).fields?
      ["id", "function", "caller", "consumed", "outputs", "pending", "value"] >>= _) = _
    rw [hfields]
    simp [lossless_transitionId.required, lossless_function.required, lossless_address.required,
      (lossless_list lossless_token).required,
      lossless_settlement.optional settlement_ne_null,
      lossless_scalar.optional scalar_ne_null]

theorem lossless_receipt : Lossless Receipt where
  plain r := by
    refine .object (List.forall_mem_cons.2 ⟨lossless_transitionId.plain r.id, ?_⟩)
    refine List.forall_mem_cons.2 ⟨lossless_function.plain r.function, ?_⟩
    refine List.forall_mem_cons.2 ⟨(lossless_list lossless_token).plain r.outputs, ?_⟩
    refine List.forall_mem_cons.2
      ⟨(lossless_option lossless_scalar scalar_ne_null).plain r.value, ?_⟩
    exact List.forall_mem_singleton.2 (lossless_uint64.plain r.height)
  back r := by
    have hfields : (toJson r).fields? ["id", "function", "outputs", "value", "height"] =
        some [some (toJson r.id), some (toJson r.function), some (toJson r.outputs),
          some (toJson r.value), some (toJson r.height)] :=
      Json.fields?_object [("id", toJson r.id), ("function", toJson r.function),
        ("outputs", toJson r.outputs), ("value", toJson r.value),
        ("height", toJson r.height)] (by simp)
    show ((toJson r).fields? ["id", "function", "outputs", "value", "height"] >>= _) = _
    rw [hfields]
    simp [lossless_transitionId.required, lossless_function.required,
      (lossless_list lossless_token).required, lossless_scalar.optional scalar_ne_null,
      lossless_uint64.required]

end Wire

end TokenLedger
