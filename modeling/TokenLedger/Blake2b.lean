import TokenLedger.Bytes

/-!
# Blake2b with 32 bytes of output

The working state of sixteen words is four rows of four. A round mixes the
columns, turns the rows so that the diagonals stand in columns, mixes again
and turns back. Only full blocks that are not the last are absorbed plainly;
the last block is filled up with zeros and flagged, also when it is full or
when the input is empty.
-/

set_option autoImplicit false

namespace TokenLedger.Blake2b

structure Row where
  a : UInt64
  b : UInt64
  c : UInt64
  d : UInt64
  deriving DecidableEq

namespace Row

def add (r s : Row) : Row := ⟨r.a + s.a, r.b + s.b, r.c + s.c, r.d + s.d⟩

def xor (r s : Row) : Row := ⟨r.a ^^^ s.a, r.b ^^^ s.b, r.c ^^^ s.c, r.d ^^^ s.d⟩

def rotate (w : UInt64) (k : UInt64) : UInt64 := (w >>> k) ||| (w <<< (64 - k))

def rotateRight (r : Row) (k : UInt64) : Row :=
  ⟨rotate r.a k, rotate r.b k, rotate r.c k, rotate r.d k⟩

def turn1 (r : Row) : Row := ⟨r.b, r.c, r.d, r.a⟩
def turn2 (r : Row) : Row := ⟨r.c, r.d, r.a, r.b⟩
def turn3 (r : Row) : Row := ⟨r.d, r.a, r.b, r.c⟩

def bytes (r : Row) : Bytes :=
  Bytes.word 8 r.a.toNat ++ Bytes.word 8 r.b.toNat ++
    Bytes.word 8 r.c.toNat ++ Bytes.word 8 r.d.toNat

theorem length_bytes (r : Row) : r.bytes.length = 32 := by simp [bytes]

end Row

structure State where
  r0 : Row
  r1 : Row
  r2 : Row
  r3 : Row

def mix (v : State) (x y : Row) : State :=
  let a := (v.r0.add v.r1).add x
  let d := (v.r3.xor a).rotateRight 32
  let c := v.r2.add d
  let b := (v.r1.xor c).rotateRight 24
  let a := (a.add b).add y
  let d := (d.xor a).rotateRight 16
  let c := c.add d
  let b := (b.xor c).rotateRight 63
  ⟨a, b, c, d⟩

/-- Row one is moved by one place, row two by two, row three by three. -/
def State.diagonal (v : State) : State := ⟨v.r0, v.r1.turn1, v.r2.turn2, v.r3.turn3⟩
def State.columns (v : State) : State := ⟨v.r0, v.r1.turn3, v.r2.turn2, v.r3.turn1⟩

def iv0 : Row :=
  ⟨0x6a09e667f3bcc908, 0xbb67ae8584caa73b, 0x3c6ef372fe94f82b, 0xa54ff53a5f1d36f1⟩

def iv1 : Row :=
  ⟨0x510e527fade682d1, 0x9b05688c2b3e6c1f, 0x1f83d9abfb41bd6b, 0x5be0cd19137e2179⟩

def schedule : List (List Nat) := [
  [0, 1, 2, 3, 4, 5, 6, 7, 8, 9, 10, 11, 12, 13, 14, 15],
  [14, 10, 4, 8, 9, 15, 13, 6, 1, 12, 0, 2, 11, 7, 5, 3],
  [11, 8, 12, 0, 5, 2, 15, 13, 10, 14, 3, 6, 7, 1, 9, 4],
  [7, 9, 3, 1, 13, 12, 11, 14, 2, 6, 5, 10, 4, 0, 15, 8],
  [9, 0, 5, 7, 2, 4, 10, 15, 14, 1, 11, 12, 6, 8, 3, 13],
  [2, 12, 6, 10, 0, 11, 8, 3, 4, 13, 7, 5, 15, 14, 1, 9],
  [12, 5, 1, 15, 14, 13, 4, 10, 0, 7, 6, 3, 9, 2, 8, 11],
  [13, 11, 7, 14, 12, 1, 3, 9, 5, 0, 15, 4, 8, 6, 2, 10],
  [6, 15, 14, 9, 11, 3, 0, 8, 12, 2, 13, 7, 1, 4, 10, 5],
  [10, 2, 8, 4, 7, 6, 1, 5, 15, 11, 9, 14, 3, 12, 13, 0],
  [0, 1, 2, 3, 4, 5, 6, 7, 8, 9, 10, 11, 12, 13, 14, 15],
  [14, 10, 4, 8, 9, 15, 13, 6, 1, 12, 0, 2, 11, 7, 5, 3]]

def round (m : Array UInt64) (v : State) (order : List Nat) : State :=
  match order.map (m.getD · 0) with
  | [m0, m1, m2, m3, m4, m5, m6, m7, m8, m9, m10, m11, m12, m13, m14, m15] =>
    let v := mix v ⟨m0, m2, m4, m6⟩ ⟨m1, m3, m5, m7⟩
    (mix v.diagonal ⟨m8, m10, m12, m14⟩ ⟨m9, m11, m13, m15⟩).columns
  | _ => v

def blockWords : Nat → Bytes → List UInt64
  | 0, _ => []
  | n + 1, bs => UInt64.ofNat (Bytes.wordValue (bs.take 8)) :: blockWords n (bs.drop 8)

structure Chain where
  r0 : Row
  r1 : Row

/-- The chained value takes in one block of 128 bytes. `count` is the length of
the input up to the end of the block. -/
def compress (h : Chain) (block : Bytes) (count : Nat) (isLast : Bool) : Chain :=
  let m := (blockWords 16 block).toArray
  let mark : Row :=
    ⟨UInt64.ofNat count, UInt64.ofNat (count / UInt64.size), if isLast then 0xffffffffffffffff else 0, 0⟩
  let v := schedule.foldl (round m) ⟨h.r0, h.r1, iv0, iv1.xor mark⟩
  ⟨(h.r0.xor v.r0).xor v.r2, (h.r1.xor v.r1).xor v.r3⟩

/-- The parameters of the hash: 32 bytes of output, no key, one tree level. -/
def start : Chain := ⟨iv0.xor ⟨0x01010020, 0, 0, 0⟩, iv1⟩

def absorb (h : Chain) (count : Nat) : Nat → Bytes → Chain
  | 0, bs => compress h (bs ++ List.replicate (128 - bs.length) 0) (count + bs.length) true
  | n + 1, bs =>
    absorb (compress h (bs.take 128) (count + 128) false) (count + 128) n (bs.drop 128)

def hash (bs : Bytes) : Bytes32 :=
  let h := absorb start 0 ((bs.length - 1) / 128) bs
  ⟨h.r0.bytes, h.r0.length_bytes⟩

end TokenLedger.Blake2b
