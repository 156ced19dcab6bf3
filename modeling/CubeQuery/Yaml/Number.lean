/-!
# Numbers in plain scalars

A plain scalar is a number when it is written like one: an integer in decimal, hexadecimal, octal
or binary, or a floating-point number of finite value. Decimal digits behind a leading zero are no
number.
-/

namespace CubeQuery.Yaml

/-- What number a plain scalar is. -/
inductive Number where
  /-- An integer of 64 bits. Zero may have a minus too. -/
  | int (minus : Bool) (magnitude : Nat)
  /-- A larger integer, of at most 128 bits. -/
  | wide
  | float
  deriving DecidableEq, Repr

namespace Number

/-- The value of a digit, which may be a letter. -/
def digit? (c : Char) : Option Nat :=
  if c.isDigit then some (c.toNat - '0'.toNat)
  else if 'a' ≤ c ∧ c ≤ 'z' then some (c.toNat - 'a'.toNat + 10)
  else if 'A' ≤ c ∧ c ≤ 'Z' then some (c.toNat - 'A'.toNat + 10)
  else none

/-- The number written by one or more digits of a base. -/
def natural? (base : Nat) : List Char → Option Nat
  | [] => none
  | cs => cs.foldlM (fun acc c => (digit? c).bind fun d =>
      if d < base then some (acc * base + d) else none) 0

/-- The digits behind a mark such as `0x`, with the base that the mark stands for. -/
def based? : List Char → Option (Nat × List Char)
  | '0' :: 'x' :: cs => some (16, cs)
  | '0' :: 'o' :: cs => some (8, cs)
  | '0' :: 'b' :: cs => some (2, cs)
  | _ => none

/-- The magnitude of an integer without a sign. -/
def magnitude? (cs : List Char) : Option Nat :=
  match based? cs with
  | some (base, digits) => natural? base digits
  | none => natural? 10 cs

/-- Decimal digits, more than one, the first of them zero. -/
def isZeroPadded : List Char → Bool
  | '0' :: c :: cs => (c :: cs).all Char.isDigit
  | _ => false

/-- A text without one sign in front of it, and whether the sign was a minus. -/
def splitSign : List Char → Bool × List Char
  | '+' :: cs => (false, cs)
  | '-' :: cs => (true, cs)
  | cs => (false, cs)

/-- The integer that a text writes: whether it has a minus, and its magnitude. -/
def int? (cs : List Char) : Option (Bool × Nat) :=
  let (minus, digits) := splitSign cs
  if isZeroPadded digits then none else (magnitude? digits).map (minus, ·)

/-- `m * 10 ^ e` lies at or beyond the point from which values round to infinity, 2^1024 - 2^970.
The number of digits settles it unless it is just the critical one. -/
def overflows (digits : List Char) (e : Int) : Bool :=
  let significant := digits.dropWhile (· = '0')
  let size := significant.length + e
  if significant.isEmpty || size < 309 then false
  else if size > 309 then true
  else
    let m := (natural? 10 significant).getD 0
    let limit := Nat.pow 2 1024 - Nat.pow 2 970
    if 0 ≤ e then limit ≤ m * Nat.pow 10 e.toNat else limit * Nat.pow 10 (-e).toNat ≤ m

/-- The exponent behind `e` or `E`; no exponent is zero. -/
def exponent? : List Char → Option Int
  | [] => some 0
  | c :: cs =>
    if c = 'e' ∨ c = 'E' then
      let (minus, digits) := splitSign cs
      if digits.all Char.isDigit then
        (natural? 10 digits).map fun m => if minus then -(m : Int) else m
      else none
    else none

/-- The text writes a floating-point number of finite value, without a sign. -/
def isFinite (cs : List Char) : Bool :=
  let whole := cs.takeWhile Char.isDigit
  let rest := cs.dropWhile Char.isDigit
  let (fraction, rest) := match rest with
    | '.' :: r => (r.takeWhile Char.isDigit, r.dropWhile Char.isDigit)
    | r => ([], r)
  if whole.isEmpty && fraction.isEmpty then false
  else match exponent? rest with
    | none => false
    | some e => !overflows (whole ++ fraction) (e - fraction.length)

/-- The words for infinity and for what is not a number. -/
def isSpecial (text : String) : Bool :=
  text ∈ [".inf", ".Inf", ".INF", "+.inf", "+.Inf", "+.INF", "-.inf", "-.Inf", "-.INF",
    ".nan", ".NaN", ".NAN"]

/-- An integer that so many bits can hold. Behind a minus one of them is the sign. -/
def fits (bits : Nat) (minus : Bool) (magnitude : Nat) : Bool :=
  if minus then magnitude ≤ Nat.pow 2 (bits - 1) else magnitude < Nat.pow 2 bits

/-- The number that a plain scalar is. -/
def ofText? (text : String) : Option Number :=
  let cs := text.toList
  let (_, unsigned) := splitSign cs
  let float :=
    if !isZeroPadded unsigned && (isSpecial text || isFinite unsigned) then some Number.float
    else none
  match int? cs with
  | some (minus, m) =>
    if fits 64 minus m then some (.int minus m)
    else if fits 128 minus m then some .wide
    else float
  | none => float

end Number
end CubeQuery.Yaml
