/-!
Calendar times to the second, with an optional offset from universal time: `2024-01-02T03:04:05` or
`2024-01-02T03:04:05+02:00`.
-/

namespace ApiRecords.Text

structure Offset where
  west : Bool
  hours : Nat
  minutes : Nat
  seconds : Nat

structure Timestamp where
  year : Nat
  month : Nat
  day : Nat
  hour : Nat
  minute : Nat
  second : Nat
  offset : Option Offset

def padded (width n : Nat) : String :=
  let digits := toString n
  String.ofList (List.replicate (width - digits.length) '0') ++ digits

def Offset.isZero (o : Offset) : Bool := o.hours = 0 && o.minutes = 0 && o.seconds = 0

/-- Seconds are left out where there are none, and no offset counts as east. -/
def Offset.text (o : Offset) : String :=
  (if o.west && !o.isZero then "-" else "+") ++ padded 2 o.hours ++ ":" ++ padded 2 o.minutes ++
    (if o.seconds = 0 then "" else ":" ++ padded 2 o.seconds)

def Timestamp.text (t : Timestamp) : String :=
  padded 4 t.year ++ "-" ++ padded 2 t.month ++ "-" ++ padded 2 t.day ++ "T" ++
    padded 2 t.hour ++ ":" ++ padded 2 t.minute ++ ":" ++ padded 2 t.second ++
    (t.offset.map Offset.text).getD ""

/-- A number of exactly `width` digits, and what follows it. -/
def fixedDigits (width : Nat) (cs : List Char) : Option (Nat × List Char) :=
  let digits := cs.take width
  if digits.length = width ∧ digits.all Char.isDigit then
    some (digits.foldl (fun n c => 10 * n + (c.toNat - '0'.toNat)) 0, cs.drop width)
  else none

/-- Up to `count` numbers of two digits, a colon before each but the first. What is left out is
zero. -/
def readClock : Nat → List Char → Option (List Nat × List Char)
  | 0, cs => some ([], cs)
  | count + 1, cs => do
    let (n, rest) ← fixedDigits 2 cs
    match rest with
    | ':' :: rest =>
      let (ns, rest) ← readClock count rest
      return (n :: ns, rest)
    | _ => return ([n], rest)

/-- What follows a fraction of a second, which is passed over. -/
def skipFraction : List Char → List Char
  | '.' :: cs | ',' :: cs => cs.dropWhile Char.isDigit
  | cs => cs

def readOffset? : List Char → Option (Option Offset)
  | [] => some none
  | ['Z'] => some (some ⟨false, 0, 0, 0⟩)
  | sign :: cs => do
    if sign ≠ '+' ∧ sign ≠ '-' then none
    let (fields, rest) ← readClock 3 cs
    match skipFraction rest with
    | [] => return some ⟨sign = '-', fields.getD 0 0, fields.getD 1 0, fields.getD 2 0⟩
    | _ => none

/-- Reads a date, and a time after any one character. -/
def Timestamp.read? (s : String) : Option Timestamp := do
  let (year, rest) ← fixedDigits 4 s.toList
  let '-' :: rest := rest | none
  let (month, rest) ← fixedDigits 2 rest
  let '-' :: rest := rest | none
  let (day, rest) ← fixedDigits 2 rest
  match rest with
  | [] => return ⟨year, month, day, 0, 0, 0, none⟩
  | _ :: rest =>
    let (fields, rest) ← readClock 3 rest
    let offset ← readOffset? (skipFraction rest)
    return ⟨year, month, day, fields.getD 0 0, fields.getD 1 0, fields.getD 2 0, offset⟩

end ApiRecords.Text
