import TokenLedger.LedgerError
import TokenLedger.Call
import TokenLedger.Wire.JsonForm

/-!
# Messages

Both forms of what is sent and stored: tokens, calls, settlements,
transactions, receipts, stored records and snapshots.
-/

set_option autoImplicit false

namespace TokenLedger.Wire

/-! ## Binary form -/

instance : Binary Call where
  put
    | .mint amount => putChoice 0 ++ put amount
    | .transferPrivate receiver amount input =>
      putChoice 1 ++ put receiver ++ put amount ++ put input
    | .transferPrivateToPublic receiver amount input =>
      putChoice 2 ++ put receiver ++ put amount ++ put input
    | .transferPublicToPrivate receiver amount => putChoice 3 ++ put receiver ++ put amount
    | .join input input2 => putChoice 4 ++ put input ++ put input2
    | .mintPublic receiver amount => putChoice 5 ++ put receiver ++ put amount
    | .transferPublic receiver amount => putChoice 6 ++ put receiver ++ put amount
    | .gate a b => putChoice 7 ++ put a ++ put b
  get bs := do
    let (i, bs) ← Reader.choice 8 bs
    match i with
    | 0 =>
      let (amount, bs) ← get bs
      return (.mint amount, bs)
    | 1 =>
      let (receiver, bs) ← get bs
      let (amount, bs) ← get bs
      let (input, bs) ← get bs
      return (.transferPrivate receiver amount input, bs)
    | 2 =>
      let (receiver, bs) ← get bs
      let (amount, bs) ← get bs
      let (input, bs) ← get bs
      return (.transferPrivateToPublic receiver amount input, bs)
    | 3 =>
      let (receiver, bs) ← get bs
      let (amount, bs) ← get bs
      return (.transferPublicToPrivate receiver amount, bs)
    | 4 =>
      let (input, bs) ← get bs
      let (input2, bs) ← get bs
      return (.join input input2, bs)
    | 5 =>
      let (receiver, bs) ← get bs
      let (amount, bs) ← get bs
      return (.mintPublic receiver amount, bs)
    | 6 =>
      let (receiver, bs) ← get bs
      let (amount, bs) ← get bs
      return (.transferPublic receiver amount, bs)
    | _ =>
      let (a, bs) ← get bs
      let (b, bs) ← get bs
      return (.gate a b, bs)

instance : Binary Settlement where
  put
    | .transferPrivateToPublic receiver amount => putChoice 0 ++ put receiver ++ put amount
    | .transferPublicToPrivate caller amount => putChoice 1 ++ put caller ++ put amount
    | .mintPublic receiver amount => putChoice 2 ++ put receiver ++ put amount
    | .transferPublic caller receiver amount =>
      putChoice 3 ++ put caller ++ put receiver ++ put amount
  get bs := do
    let (i, bs) ← Reader.choice 4 bs
    match i with
    | 0 =>
      let (receiver, bs) ← get bs
      let (amount, bs) ← get bs
      return (.transferPrivateToPublic receiver amount, bs)
    | 1 =>
      let (caller, bs) ← get bs
      let (amount, bs) ← get bs
      return (.transferPublicToPrivate caller amount, bs)
    | 2 =>
      let (receiver, bs) ← get bs
      let (amount, bs) ← get bs
      return (.mintPublic receiver amount, bs)
    | _ =>
      let (caller, bs) ← get bs
      let (receiver, bs) ← get bs
      let (amount, bs) ← get bs
      return (.transferPublic caller receiver amount, bs)

instance : Binary Transaction where
  put tx := put tx.id ++ put tx.function ++ put tx.caller ++ put tx.consumed ++ put tx.outputs ++
    put tx.settlement ++ put tx.value
  get bs := do
    let (id, bs) ← get bs
    let (function, bs) ← get bs
    let (caller, bs) ← get bs
    let (consumed, bs) ← get bs
    let (outputs, bs) ← get bs
    let (settlement, bs) ← get bs
    let (value, bs) ← get bs
    return (⟨id, function, caller, consumed, outputs, settlement, value⟩, bs)

instance : Binary Receipt where
  put r := put r.id ++ put r.function ++ put r.outputs ++ put r.value ++ put r.height
  get bs := do
    let (id, bs) ← get bs
    let (function, bs) ← get bs
    let (outputs, bs) ← get bs
    let (value, bs) ← get bs
    let (height, bs) ← get bs
    return (⟨id, function, outputs, value, height⟩, bs)

instance : Binary StoredRecord where
  put r := put r.commitment ++ put r.owner ++ put r.bytes
  get bs := do
    let (commitment, bs) ← get bs
    let (owner, bs) ← get bs
    let (body, bs) ← get bs
    return (⟨commitment, owner, body⟩, bs)

/-! ## JSON form -/

instance : JsonForm Token where
  toJson t := .object [("owner", toJson t.owner), ("balance", toJson t.balance),
    ("nonce", toJson t.nonce)]
  ofJson? j := do
    match ← j.fields? ["owner", "balance", "nonce"] with
    | [owner, balance, nonce] =>
      return ⟨← required owner, ← required balance, ← required nonce⟩
    | _ => none

def accountAmount? (name : String) (j : Json) : Option (Address × UInt64) := do
  match ← j.fields? [name, "amount"] with
  | [account, amount] => return (← required account, ← required amount)
  | _ => none

def accountAmount (name : String) (account : Address) (amount : UInt64) : Json :=
  .object [(name, toJson account), ("amount", toJson amount)]

def payment? (j : Json) : Option (Address × UInt64 × Token) := do
  match ← j.fields? ["receiver", "amount", "input"] with
  | [receiver, amount, input] =>
    return (← required receiver, ← required amount, ← required input)
  | _ => none

def payment (receiver : Address) (amount : UInt64) (input : Token) : Json :=
  .object [("receiver", toJson receiver), ("amount", toJson amount), ("input", toJson input)]

def callBody : Call → Json
  | .mint amount => .object [("amount", toJson amount)]
  | .transferPrivate receiver amount input | .transferPrivateToPublic receiver amount input =>
    payment receiver amount input
  | .transferPublicToPrivate receiver amount | .mintPublic receiver amount
  | .transferPublic receiver amount => accountAmount "receiver" receiver amount
  | .join input input2 => .object [("input", toJson input), ("input2", toJson input2)]
  | .gate a b => .object [("a", toJson a), ("b", toJson b)]

def callOfBody? (j : Json) : Function → Option Call
  | .mint => do
    match ← j.fields? ["amount"] with
    | [amount] => return .mint (← required amount)
    | _ => none
  | .transferPrivate => do
    let (receiver, amount, input) ← payment? j
    return .transferPrivate receiver amount input
  | .transferPrivateToPublic => do
    let (receiver, amount, input) ← payment? j
    return .transferPrivateToPublic receiver amount input
  | .transferPublicToPrivate => do
    let (receiver, amount) ← accountAmount? "receiver" j
    return .transferPublicToPrivate receiver amount
  | .join => do
    match ← j.fields? ["input", "input2"] with
    | [input, input2] => return .join (← required input) (← required input2)
    | _ => none
  | .mintPublic => do
    let (receiver, amount) ← accountAmount? "receiver" j
    return .mintPublic receiver amount
  | .transferPublic => do
    let (receiver, amount) ← accountAmount? "receiver" j
    return .transferPublic receiver amount
  | .gate => do
    match ← j.fields? ["a", "b"] with
    | [a, b] => return .gate (← required a) (← required b)
    | _ => none

def taggedFunction? (tag : String) : Option Function := Function.all.find? fun f => f.tag == tag

instance : JsonForm Call where
  toJson c := .object [(c.function.tag, callBody c)]
  ofJson? j := do
    let (tag, body) ← j.choice?
    callOfBody? body (← taggedFunction? tag)

def settlementBody : Settlement → Json
  | .transferPrivateToPublic receiver amount | .mintPublic receiver amount =>
    accountAmount "receiver" receiver amount
  | .transferPublicToPrivate caller amount => accountAmount "caller" caller amount
  | .transferPublic caller receiver amount =>
    .object [("caller", toJson caller), ("receiver", toJson receiver), ("amount", toJson amount)]

def settlementOfBody? (j : Json) : Function → Option Settlement
  | .transferPrivateToPublic => do
    let (receiver, amount) ← accountAmount? "receiver" j
    return .transferPrivateToPublic receiver amount
  | .transferPublicToPrivate => do
    let (caller, amount) ← accountAmount? "caller" j
    return .transferPublicToPrivate caller amount
  | .mintPublic => do
    let (receiver, amount) ← accountAmount? "receiver" j
    return .mintPublic receiver amount
  | .transferPublic => do
    match ← j.fields? ["caller", "receiver", "amount"] with
    | [caller, receiver, amount] =>
      return .transferPublic (← required caller) (← required receiver) (← required amount)
    | _ => none
  | .mint | .transferPrivate | .join | .gate => none

instance : JsonForm Settlement where
  toJson s := .object [(s.function.tag, settlementBody s)]
  ofJson? j := do
    let (tag, body) ← j.choice?
    settlementOfBody? body (← taggedFunction? tag)

instance : JsonForm Transaction where
  toJson tx := .object [("id", toJson tx.id), ("function", toJson tx.function),
    ("caller", toJson tx.caller), ("consumed", toJson tx.consumed),
    ("outputs", toJson tx.outputs), ("pending", toJson tx.settlement),
    ("value", toJson tx.value)]
  ofJson? j := do
    match ← j.fields?
      ["id", "function", "caller", "consumed", "outputs", "pending", "value"] with
    | [id, function, caller, consumed, outputs, settlement, value] =>
      return ⟨← required id, ← required function, ← required caller, ← required consumed,
        ← required outputs, ← optional settlement, ← optional value⟩
    | _ => none

instance : JsonForm Receipt where
  toJson r := .object [("id", toJson r.id), ("function", toJson r.function),
    ("outputs", toJson r.outputs), ("value", toJson r.value), ("height", toJson r.height)]
  ofJson? j := do
    match ← j.fields? ["id", "function", "outputs", "value", "height"] with
    | [id, function, outputs, value, height] =>
      return ⟨← required id, ← required function, ← required outputs, ← optional value,
        ← required height⟩
    | _ => none

instance : JsonForm StoredRecord where
  toJson r := .object [("commitment", toJson r.commitment), ("owner", toJson r.owner),
    ("bytes", toJson r.bytes)]
  ofJson? j := do
    match ← j.fields? ["commitment", "owner", "bytes"] with
    | [commitment, owner, body] =>
      return ⟨← required commitment, ← required owner, ← required body⟩
    | _ => none

instance : JsonForm (Address × UInt64) where
  toJson p := .object [("address", toJson p.1), ("balance", toJson p.2)]
  ofJson? j := do
    match ← j.fields? ["address", "balance"] with
    | [address, balance] => return (← required address, ← required balance)
    | _ => none

instance : JsonForm Snapshot where
  toJson s := .object [("hash", toJson s.hash), ("height", toJson s.height),
    ("accounts", toJson s.accounts), ("records", toJson s.records), ("spent", toJson s.spent),
    ("version", toJson s.version)]
  ofJson? j := do
    match ← j.fields? ["hash", "height", "accounts", "records", "spent", "version"] with
    | [hash, height, accounts, records, spent, version] =>
      return ⟨← required hash, ← required height, ← required accounts, ← required records,
        ← required spent, ← required version⟩
    | _ => none

end TokenLedger.Wire
