import CellStore.Toml.Lexeme

/-! # TOML numbers and moments

Integers are signed words of 64 bits, in decimal with an optional sign or in
hexadecimal, octal or binary without one; underscores may stand between digits.
A decimal with a fraction or an exponent is a float, and one that rounds to
positive infinity is refused. Dates and times are checked against the calendar
and the clock.
-/
namespace CellStore.Toml

/-- Digits with single underscores between them, the underscores dropped. -/
def digits (isDigit : Char → Bool) : List Char → List Char × List Char
  | '_' :: c :: cs =>
    if isDigit c then
      let (ds, rest) := digits isDigit cs
      (c :: ds, rest)
    else ([], '_' :: c :: cs)
  | c :: cs =>
    if isDigit c then
      let (ds, rest) := digits isDigit cs
      (c :: ds, rest)
    else ([], c :: cs)
  | [] => ([], [])

/-- One or more digits, the first of them not behind an underscore. -/
def digits? (isDigit : Char → Bool) (cs : List Char) : Option (List Char × List Char) :=
  if cs.head?.any isDigit then some (digits isDigit cs) else none

def valueIn (base : Nat) (ds : List Char) : Nat :=
  ds.foldl (fun n c => n * base + (hexDigit? c).getD 0) 0

/-- Whether a character is a digit of a base up to sixteen. -/
def isDigitOf (base : Nat) (c : Char) : Bool := (hexDigit? c).any (· < base)

/-- Whether a number fits in a signed word. -/
def fitsWord (n : Int) : Bool := -9223372036854775808 ≤ n && n ≤ 9223372036854775807

/-- Whether `mantissa * 10 ^ exponent` rounds to infinity as a float of 64 bits: all floats are below
`2 ^ 1024`, and half a unit in the last place below it the rounding turns. The number of digits
settles all but the close cases. -/
def overflowsFloat (mantissa : Nat) (exponent : Int) : Bool :=
  let size : Int := (Nat.toDigits 10 mantissa).length + exponent
  if mantissa = 0 || size < 309 then false
  else if 310 < size then true
  else
    let limit := Nat.pow 2 1024 - Nat.pow 2 970
    match exponent with
    | .ofNat e => limit ≤ mantissa * Nat.pow 10 e
    | .negSucc e => limit * Nat.pow 10 (e + 1) ≤ mantissa

inductive Number where
  | integer (n : Int)
  | float (text : String)
deriving DecidableEq, Repr

/-- A sign, if there is one: whether it is a minus. -/
def sign : List Char → Bool × List Char
  | '+' :: cs => (false, cs)
  | '-' :: cs => (true, cs)
  | cs => (false, cs)

/-- An integer in another base than ten, behind its mark. -/
def basedInteger (base : Nat) (cs : List Char) : Option (Number × List Char) := do
  let (ds, cs) ← digits? (isDigitOf base) cs
  let n := valueIn base ds
  if fitsWord n then some (.integer n, cs) else none

/-- The digits behind a point, if there is one. -/
def fraction : List Char → Option (Option (List Char) × List Char)
  | '.' :: cs => (digits? Char.isDigit cs).map fun (ds, cs) => (some ds, cs)
  | cs => some (none, cs)

/-- The exponent, if there is one. -/
def exponent : List Char → Option (Option Int × List Char)
  | 'e' :: cs | 'E' :: cs => do
    let (negative, cs) := sign cs
    let (ds, cs) ← digits? Char.isDigit cs
    let n : Int := valueIn 10 ds
    some (some (if negative then -n else n), cs)
  | cs => some (none, cs)

/-- The digits before the point: a zero alone, or digits that do not begin with one. -/
def whole : List Char → Option (List Char × List Char)
  | '0' :: cs => some (['0'], cs)
  | cs => digits? Char.isDigit cs

/-- A decimal integer or float, from its sign on. -/
def decimal (cs : List Char) : Option (Number × List Char) := do
  let (negative, rest) := sign cs
  match rest with
  | 'i' :: 'n' :: 'f' :: rest => some (.float (if negative then "-inf" else "inf"), rest)
  | 'n' :: 'a' :: 'n' :: rest => some (.float "nan", rest)
  | _ =>
    let (ds, rest) ← whole rest
    let (point, rest) ← fraction rest
    let (power, rest) ← exponent rest
    if point.isNone && power.isNone then
      let n : Int := valueIn 10 ds
      let n := if negative then -n else n
      if fitsWord n then some (.integer n, rest) else none
    else
      let places := point.getD []
      let mantissa := valueIn 10 (ds ++ places)
      if !negative && overflowsFloat mantissa (power.getD 0 - places.length) then none
      else some (.float (String.ofList (cs.take (cs.length - rest.length))), rest)

/-- A number of any form. -/
def number? : List Char → Option (Number × List Char)
  | '0' :: 'x' :: cs => basedInteger 16 cs
  | '0' :: 'o' :: cs => basedInteger 8 cs
  | '0' :: 'b' :: cs => basedInteger 2 cs
  | cs => decimal cs

/-! ## Moments -/

/-- A number of exactly so many digits. -/
def fixed : Nat → Nat → List Char → Option (Nat × List Char)
  | 0, value, cs => some (value, cs)
  | _ + 1, _, [] => none
  | n + 1, value, c :: cs =>
    if c.isDigit then fixed n (value * 10 + (c.toNat - '0'.toNat)) cs else none

def isLeapYear (year : Nat) : Bool := year % 4 == 0 && (year % 100 != 0 || year % 400 == 0)

def daysIn (year month : Nat) : Nat :=
  if month = 2 then (if isLeapYear year then 29 else 28)
  else if month = 4 || month = 6 || month = 9 || month = 11 then 30
  else 31

/-- The text after a given character. -/
def after? (c : Char) : List Char → Option (List Char)
  | d :: cs => if c = d then some cs else none
  | [] => none

/-- The text after a date of the calendar. -/
def date? (cs : List Char) : Option (List Char) := do
  let (year, cs) ← fixed 4 0 cs
  let (month, cs) ← fixed 2 0 (← after? '-' cs)
  let (day, cs) ← fixed 2 0 (← after? '-' cs)
  if 1 ≤ month && month ≤ 12 && 1 ≤ day && day ≤ daysIn year month then some cs else none

/-- The text after hours and minutes. -/
def hourMinute? (cs : List Char) : Option (List Char) := do
  let (hour, cs) ← fixed 2 0 cs
  let (minute, cs) ← fixed 2 0 (← after? ':' cs)
  if hour ≤ 23 && minute ≤ 59 then some cs else none

/-- The text after a time of day; the last second of a day may be a leap second. -/
def time? (cs : List Char) : Option (List Char) := do
  let (second, cs) ← fixed 2 0 (← after? ':' (← hourMinute? cs))
  if 60 < second then none
  match cs with
  | '.' :: d :: ds => some (if d.isDigit then ds.dropWhile Char.isDigit else cs)
  | _ => some cs

/-- The text after the offset of a time, if there is one. -/
def offset : List Char → Option (List Char)
  | 'Z' :: cs | 'z' :: cs => some cs
  | '+' :: cs | '-' :: cs => hourMinute? cs
  | cs => some cs

/-- The text after a date, a time of day, or a date with a time. -/
def moment? (cs : List Char) : Option (List Char) :=
  match date? cs with
  | none => time? cs
  | some rest =>
    match rest with
    | c :: cs =>
      if c = 'T' || c = 't' || c = ' ' then
        match time? cs with
        | some cs => offset cs
        | none => some rest
      else some rest
    | [] => some []

end CellStore.Toml
