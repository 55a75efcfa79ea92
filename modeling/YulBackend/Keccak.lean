namespace YulBackend.Keccak

/-- Twenty-five lanes; the lane of column `x` and row `y` stands at `x + 5 * y`. -/
abbrev Lanes := List UInt64

def lane (lanes : Lanes) (x y : Nat) : UInt64 := lanes.getD (x % 5 + 5 * (y % 5)) 0

/-- Builds a state lane by lane from column and row. -/
def build (f : Nat → Nat → UInt64) : Lanes :=
  (List.range 25).map fun i => f (i % 5) (i / 5)

def rotate (w : UInt64) (n : Nat) : UInt64 :=
  if n % 64 = 0 then w
  else (w <<< UInt64.ofNat (n % 64)) ||| (w >>> UInt64.ofNat (64 - n % 64))

/-- How far each lane turns. -/
def offsets : List Nat :=
  [0, 1, 62, 28, 27, 36, 44, 6, 55, 20, 3, 10, 43, 25, 39, 41, 45, 15, 21, 8, 18, 2, 61, 56, 14]

def roundConstants : List UInt64 :=
  [0x0000000000000001, 0x0000000000008082, 0x800000000000808a, 0x8000000080008000,
    0x000000000000808b, 0x0000000080000001, 0x8000000080008081, 0x8000000000008009,
    0x000000000000008a, 0x0000000000000088, 0x0000000080008009, 0x000000008000000a,
    0x000000008000808b, 0x800000000000008b, 0x8000000000008089, 0x8000000000008003,
    0x8000000000008002, 0x8000000000000080, 0x000000000000800a, 0x800000008000000a,
    0x8000000080008081, 0x8000000000008080, 0x0000000080000001, 0x8000000080008008]

/-- Mixes each column with its neighbours. -/
def theta (a : Lanes) : Lanes :=
  let column := (List.range 5).map fun x =>
    lane a x 0 ^^^ lane a x 1 ^^^ lane a x 2 ^^^ lane a x 3 ^^^ lane a x 4
  let c (x : Nat) : UInt64 := column.getD (x % 5) 0
  build fun x y => lane a x y ^^^ c (x + 4) ^^^ rotate (c (x + 1)) 1

/-- Turns each lane and moves it: the lane at `(x + 3 y, x)` comes to `(x, y)`. -/
def rhoPi (a : Lanes) : Lanes :=
  build fun x y =>
    let column := (x + 3 * y) % 5
    rotate (lane a column x) (offsets.getD (column + 5 * x) 0)

def chi (a : Lanes) : Lanes :=
  build fun x y => lane a x y ^^^ ((~~~ lane a (x + 1) y) &&& lane a (x + 2) y)

def iota (constant : UInt64) (a : Lanes) : Lanes :=
  build fun x y => if x = 0 ∧ y = 0 then lane a 0 0 ^^^ constant else lane a x y

def permute (a : Lanes) : Lanes :=
  roundConstants.foldl (fun a constant => iota constant (chi (rhoPi (theta a)))) a

/-- Bytes absorbed at a time. -/
def rate : Nat := 136

/-- Fills a message up to a multiple of the rate: a one bit right behind it and one at the end. -/
def pad (message : List UInt8) : List UInt8 :=
  let missing := rate - message.length % rate
  if missing = 1 then message ++ [0x81]
  else message ++ 0x01 :: (List.replicate (missing - 2) 0 ++ [0x80])

/-- The lane that eight bytes make up, least significant first. -/
def laneOfBytes (bytes : List UInt8) : UInt64 :=
  bytes.foldr (fun b w => (w <<< 8) ||| b.toUInt64) 0

def bytesOfLane (w : UInt64) : List UInt8 :=
  (List.range 8).map fun i => (w >>> UInt64.ofNat (8 * i)).toUInt8

def absorb (a : Lanes) (block : List UInt8) : Lanes :=
  permute <| build fun x y =>
    let i := x + 5 * y
    lane a x y ^^^ laneOfBytes ((block.drop (8 * i)).take 8)

/-- The first `count` blocks of padded input, absorbed in turn. -/
def absorbAll : Nat → Lanes → List UInt8 → Lanes
  | 0, a, _ => a
  | count + 1, a, input => absorbAll count (absorb a (input.take rate)) (input.drop rate)

/-- The 32-byte hash of a message: the sponge over the 1600-bit permutation with rate 136 bytes and padding that starts
with a single one bit. -/
def hash (message : List UInt8) : List UInt8 :=
  let padded := pad message
  let final := absorbAll (padded.length / rate) (List.replicate 25 0) padded
  (final.flatMap bytesOfLane).take 32

end YulBackend.Keccak
