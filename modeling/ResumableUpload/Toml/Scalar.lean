import ResumableUpload.Toml.Text
import ResumableUpload.Toml.Value

/-
  TOML scalars — numbers, truth values, dates and times

  What is held:
    1. `integer` — decimal, hexadecimal, octal or binary, within 64 bits.
    2. `float` — with a fraction or an exponent, or `inf` or `nan`. A number
       beyond the greatest double is refused.
    3. `dateTime` — dates and times of the calendar and the clock.
-/

namespace ResumableUpload.Toml

/-! ## Digits -/

/-- A decimal digit. -/
def isDecimal (c : Char) : Bool := '0' ≤ c && c ≤ '9'

/-- An octal digit. -/
def isOctal (c : Char) : Bool := '0' ≤ c && c ≤ '7'

/-- A binary digit. -/
def isBinary (c : Char) : Bool := c = '0' || c = '1'

/-- A hexadecimal digit. -/
def isHex (c : Char) : Bool := (Hex.value? c).isSome

/-- The digits that go on a number; between two digits one underscore may stand. -/
def moreDigits (ok : Char → Bool) : Rest → Option (List Char × Rest)
  | [] => some ([], [])
  | ['_'] => none
  | '_' :: c :: rest =>
    if ok c then (moreDigits ok rest).map fun (ds, rest) => (c :: ds, rest) else none
  | c :: rest =>
    if ok c then (moreDigits ok rest).map fun (ds, rest) => (c :: ds, rest)
    else some ([], c :: rest)

/-- One digit or more. -/
def digits (ok : Char → Bool) : Rest → Option (List Char × Rest)
  | [] => none
  | c :: rest =>
    if ok c then (moreDigits ok rest).map fun (ds, rest) => (c :: ds, rest) else none

/-- The number that digits stand for. -/
def ofDigits (base : Nat) (ds : List Char) : Nat :=
  ds.foldl (fun n c => n * base + (Hex.value? c).getD 0) 0

/-- Takes a sign off the front; whether it is a minus. -/
def sign : Rest → Bool × Rest
  | '-' :: rest => (true, rest)
  | '+' :: rest => (false, rest)
  | cs => (false, cs)

/-- A decimal number without leading zeros, and whether a minus stands before it. -/
def decimal (cs : Rest) : Option ((Bool × List Char) × Rest) :=
  match sign cs with
  | (negative, '0' :: rest) => some ((negative, ['0']), rest)
  | (negative, cs) => (digits isDecimal cs).map fun (ds, rest) => ((negative, ds), rest)

/-! ## Integers -/

/-- A number within 64 bits, the sign included. -/
def inRange (n : Int) : Bool := -Int.pow 2 63 ≤ n && n < Int.pow 2 63

/-- An integer. Other bases have a mark and no sign. -/
def integer (cs : Rest) : Option (Value × Rest) :=
  let checked : Option (Int × Rest) :=
    match cs with
    | '0' :: 'x' :: rest => (digits isHex rest).map fun (ds, rest) => (Int.ofNat (ofDigits 16 ds), rest)
    | '0' :: 'o' :: rest => (digits isOctal rest).map fun (ds, rest) => (Int.ofNat (ofDigits 8 ds), rest)
    | '0' :: 'b' :: rest => (digits isBinary rest).map fun (ds, rest) => (Int.ofNat (ofDigits 2 ds), rest)
    | _ =>
      (decimal cs).map fun ((negative, ds), rest) =>
        let n := Int.ofNat (ofDigits 10 ds)
        (if negative then -n else n, rest)
  match checked with
  | some (n, rest) => if inRange n then some (.integer n, rest) else none
  | none => none

/-! ## Floats -/

/-- Whether `mantissa · 10 ^ exponent` is beyond the greatest double, rounded to nearest: that
double and half of the last step are `2 ^ 1024 - 2 ^ 970`. -/
def beyondDouble (mantissa : Nat) (exponent : Int) : Bool :=
  let width : Int := (Nat.toDigits 10 mantissa).length
  if mantissa = 0 then false
  else if 310 < width + exponent then true
  else if width + exponent < 300 then false
  else
    let limit := Nat.pow 2 1024 - Nat.pow 2 970
    if 0 ≤ exponent then limit ≤ mantissa * Nat.pow 10 exponent.toNat
    else limit * Nat.pow 10 (-exponent).toNat ≤ mantissa

/-- The digits after a point, if one is next. -/
def fraction : Rest → Option (List Char × Rest)
  | '.' :: rest => digits isDecimal rest
  | cs => some ([], cs)

/-- The exponent, if one is next. -/
def exponent (cs : Rest) : Option (Int × Rest) :=
  match cs with
  | c :: rest =>
    if c = 'e' ∨ c = 'E' then
      let (negative, rest) := sign rest
      (digits isDecimal rest).map fun (ds, rest) =>
        let n := Int.ofNat (ofDigits 10 ds)
        (if negative then -n else n, rest)
    else some (0, cs)
  | [] => some (0, [])

/-- A part of a text, from its front up to what is left. -/
def consumed (cs rest : Rest) : String := String.ofList (cs.take (cs.length - rest.length))

/-- A float: a decimal number with a fraction, an exponent or both. -/
def finiteFloat (cs : Rest) : Option (Value × Rest) :=
  match decimal cs with
  | none => none
  | some ((negative, whole), afterWhole) =>
    match fraction afterWhole with
    | none => none
    | some (part, afterFraction) =>
      match exponent afterFraction with
      | none => none
      | some (power, rest) =>
        if rest.length = afterWhole.length then none
        else if !negative && beyondDouble (ofDigits 10 (whole ++ part)) (power - part.length) then none
        else some (.float (consumed cs rest), rest)

/-- Infinity or no number, with or without a sign. -/
def specialFloat (cs : Rest) : Option (Value × Rest) :=
  match (sign cs).2 with
  | 'i' :: 'n' :: 'f' :: rest => some (.float (consumed cs rest), rest)
  | 'n' :: 'a' :: 'n' :: rest => some (.float (consumed cs rest), rest)
  | _ => none

/-- A float of either kind. -/
def float (cs : Rest) : Option (Value × Rest) :=
  (finiteFloat cs).or (specialFloat cs)

/-! ## Dates and times -/

/-- `count` digits that make a number from `least` to `greatest`. -/
def fixedDigits (count least greatest : Nat) (cs : Rest) : Option (Nat × Rest) :=
  let ds := cs.take count
  let n := ofDigits 10 ds
  if ds.length = count && ds.all isDecimal && least ≤ n && n ≤ greatest then some (n, cs.drop count)
  else none

/-- Takes one character off the front. -/
def expect (c : Char) : Rest → Option Rest
  | [] => none
  | d :: rest => if d = c then some rest else none

/-- How many days a month has. -/
def daysIn (year month : Nat) : Nat :=
  if month = 2 then
    (if year % 4 = 0 ∧ (year % 100 ≠ 0 ∨ year % 400 = 0) then 29 else 28)
  else if month = 4 ∨ month = 6 ∨ month = 9 ∨ month = 11 then 30
  else 31

/-- A date of the calendar. -/
def date (cs : Rest) : Option Rest := do
  let (year, cs) ← fixedDigits 4 0 9999 cs
  let (month, cs) ← fixedDigits 2 1 12 (← expect '-' cs)
  let (_, cs) ← fixedDigits 2 1 (daysIn year month) (← expect '-' cs)
  some cs

/-- A time of the clock; a minute may have a second more than sixty. -/
def time (cs : Rest) : Option Rest := do
  let (_, cs) ← fixedDigits 2 0 23 cs
  let (_, cs) ← fixedDigits 2 0 59 (← expect ':' cs)
  let (_, cs) ← fixedDigits 2 0 60 (← expect ':' cs)
  match cs with
  | '.' :: rest =>
    let ds := rest.takeWhile isDecimal
    if ds.isEmpty then none else some (rest.dropWhile isDecimal)
  | _ => some cs

/-- The distance from universal time, if one is next. -/
def offset (cs : Rest) : Option Rest :=
  match cs with
  | c :: rest =>
    if c = 'Z' ∨ c = 'z' then some rest
    else if c = '+' ∨ c = '-' then do
      let (_, rest) ← fixedDigits 2 0 23 rest
      let (_, rest) ← fixedDigits 2 0 59 (← expect ':' rest)
      some rest
    else some cs
  | [] => some []

/-- A date with a time, a date, or a time. A blank between date and time belongs to them only if a
time follows. -/
def dateTime (cs : Rest) : Option (Value × Rest) :=
  let rest? :=
    match date cs with
    | none => time cs
    | some afterDate =>
      match afterDate with
      | c :: rest =>
        if c = 'T' ∨ c = 't' then (time rest).bind offset
        else if c = ' ' then
          match fixedDigits 2 0 23 rest with
          | some (_, ':' :: _) => (time rest).bind offset
          | _ => some afterDate
        else some afterDate
      | [] => some []
  rest?.map fun rest => (.dateTime (consumed cs rest), rest)

end ResumableUpload.Toml
