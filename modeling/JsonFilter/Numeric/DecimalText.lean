import JsonFilter.Numeric.Shortest

/-!
# Numbers as decimal text

Writing: `FloatFormat` says where positional notation ends, and `FloatFormat.render` lays out the
shortest digits.  Reading: `Binary64.ofText?` reads a decimal with the nearest rounding, its exponent
kept below a bound, and `Binary64.ofPowers?` is the quicker reading that multiplies a 64-bit
significand by one rounded power of ten at a time.
-/

namespace JsonFilter

/-! ### Writing -/

/-- Decimal digits of a natural number. -/
def decimalDigits (n : Nat) : List Char := Nat.toDigits 10 n

/-- How a float is laid out: the exponents of the first digit that are written positionally. -/
structure FloatFormat where
  leastPositional : Int
  greatestPositional : Int

namespace FloatFormat

/-- An exponent with its sign. -/
def exponentText (e : Int) : List Char :=
  (if e < 0 then ['e', '-'] else ['e', '+']) ++ decimalDigits e.natAbs

/-- Lays out digits whose first one counts units of `10 ^ leading`. -/
def layout (format : FloatFormat) (digits : List Char) (leading : Int) : List Char :=
  if format.leastPositional ≤ leading && leading ≤ format.greatestPositional then
    if leading < 0 then '0' :: '.' :: (List.replicate (-leading - 1).toNat '0' ++ digits)
    else
      let whole := leading.toNat + 1
      let fraction := digits.drop whole
      digits.take whole ++ List.replicate (whole - digits.length) '0' ++
        '.' :: (if fraction.isEmpty then ['0'] else fraction)
  else
    match digits with
    | [] => []
    | [d] => d :: exponentText leading
    | d :: rest => d :: '.' :: (rest ++ exponentText leading)

/-- The text of a finite number. -/
def render (format : FloatFormat) (x : Finite64) : String :=
  let magnitude :=
    if x.isZero then ['0', '.', '0']
    else
      let d := x.shortest
      let digits := decimalDigits d.digits
      format.layout digits (d.exponent + digits.length - 1)
  .ofList (if x.negative then '-' :: magnitude else magnitude)

end FloatFormat

/-- Every float is positional. -/
def FloatFormat.positional : FloatFormat := ⟨-400, 400⟩

/-- A number without exponent, and without a point where nothing stands behind it. -/
def Binary64.plainText : Binary64 → String
  | .nan => "NaN"
  | .infinite negative => if negative then "-inf" else "inf"
  | .finite x =>
    let chars := (FloatFormat.positional.render x).toList
    let whole := ['.', '0']
    .ofList (if whole.isSuffixOf chars then chars.take (chars.length - whole.length) else chars)

/-! ### Reading -/

/-- The value of a run of decimal digits. -/
def digitsValue (digits : List Char) : Nat :=
  digits.foldl (fun n c => n * 10 + (c.toNat - '0'.toNat)) 0

namespace Binary64

/-- How many digits of a decimal are read one by one.  A number that lies halfway between two others
has at most 767 of them, so of the digits behind these it only matters whether one is not zero. -/
def readDigits : Nat := 800

/-- The digits that decide how a decimal is rounded: the first ones, and a last one that stands for
all those behind them. -/
def decidingDigits (digits : List Char) : List Char :=
  let first := digits.take readDigits
  if (digits.drop readDigits).any (· ≠ '0') then first ++ ['1'] else first

/-- The nearest number to the decimal with the given digits, of which the last one counts units of
`10 ^ exponent`.  A decimal that is too great or too small for any finite number is decided by its
first digit's place. -/
def ofDigits (negative : Bool) (digits : List Char) (exponent : Int) : Binary64 :=
  let significant := digits.dropWhile (· = '0')
  let place : Int := exponent + significant.length
  if significant.isEmpty then .finite (.zero negative)
  else if 400 < place then .infinite negative
  else if place < -400 then .finite (.zero negative)
  else
    let deciding := decidingDigits significant
    ofDecimal negative (digitsValue deciding) (place - deciding.length)

/-- An exponent takes up no more digits when it has reached this. -/
def exponentBound : Nat := 65536

/-- The value of the digits of an exponent.  A digit is dropped where the value before it has reached
the bound, so that what is left is below ten times the bound.  Only a decimal with tens of thousands
of digits can tell. -/
def exponentValue (digits : List Char) : Nat :=
  digits.foldl (fun n c => if n < exponentBound then n * 10 + digitsValue [c] else n) 0

/-- An exponent mark with its digits, or nothing at all. -/
def readExponent? : List Char → Option Int
  | [] => some 0
  | mark :: rest =>
    if mark = 'e' || mark = 'E' then
      let (negative, digits) := match rest with
        | '-' :: digits => (true, digits)
        | '+' :: digits => (false, digits)
        | digits => (false, digits)
      if !digits.isEmpty && digits.all Char.isDigit then
        some (if negative then -(exponentValue digits : Int) else exponentValue digits)
      else none
    else none

/-- Digits with an optional point, then an optional exponent. -/
def readMagnitude? (negative : Bool) (text : List Char) : Option Binary64 :=
  let whole := text.takeWhile Char.isDigit
  let afterWhole := text.dropWhile Char.isDigit
  let (fraction, rest) := match afterWhole with
    | '.' :: more => (more.takeWhile Char.isDigit, more.dropWhile Char.isDigit)
    | _ => ([], afterWhole)
  if whole.isEmpty && fraction.isEmpty then none
  else
    (readExponent? rest).map fun e =>
      ofDigits negative (whole ++ fraction) (e - fraction.length)

/-- Reads a decimal number, `inf`, `infinity` or `nan` in any case, with an optional sign; the
nearest number to the decimal, with its exponent bounded. -/
def ofText? (text : String) : Option Binary64 :=
  let (negative, body) := match text.toList with
    | '-' :: rest => (true, rest)
    | '+' :: rest => (false, rest)
    | rest => (false, rest)
  let word := String.ofList (body.map Char.toLower)
  if word = "inf" || word = "infinity" then some (.infinite negative)
  else if word = "nan" then some .nan
  else readMagnitude? negative body

/-- The power of ten that is nearest, for exponents up to 308. -/
def powerOfTen (exponent : Nat) : Binary64 := ofDecimal false 1 exponent

/-- Multiplies or divides by powers of ten of at most 308, one rounding each; a product that
overflows is none.  `steps` bounds the divisions by `1e308`. -/
def scaleByPowers? : Nat → Binary64 → Int → Option Binary64
  | 0, x, _ => some x
  | steps + 1, x, exponent =>
    if exponent.natAbs ≤ 308 then
      if 0 ≤ exponent then
        let product := mul x (powerOfTen exponent.natAbs)
        if product.isFinite then some product else none
      else some (div x (powerOfTen exponent.natAbs))
    else if compare? x zero = some .eq then some x
    else if 0 < exponent then none
    else scaleByPowers? steps (div x (powerOfTen 308)) (exponent + 308)

/-- The quick reading of `significand * 10 ^ exponent`; none where it overflows. -/
def ofPowers? (negative : Bool) (significand : Nat) (exponent : Int) : Option Binary64 :=
  (scaleByPowers? (exponent.natAbs / 308 + 2) (ofInt significand) exponent).map fun x =>
    if negative then neg x else x

end Binary64
end JsonFilter
