namespace YulBackend.Hex

/-- As many digits as the number needs, and one for zero. -/
def ofNat (n : Nat) : String := String.ofList (Nat.toDigits 16 n)

/-- Digits padded with zeros in front to a least width. -/
def padded (width n : Nat) : String :=
  let digits := Nat.toDigits 16 n
  String.ofList (List.replicate (width - digits.length) '0' ++ digits)

/-- Two digits for each byte. -/
def ofBytes (bytes : List UInt8) : String := String.join (bytes.map (padded 2 ·.toNat))

/-- A number as code spells it. -/
def literal (n : Nat) : String := "0x" ++ ofNat n

end YulBackend.Hex
