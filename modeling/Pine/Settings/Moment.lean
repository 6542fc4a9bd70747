/-!
# Dates and times in settings

No setting is a date or a time, but a settings file may hold one under a key that is not known, and
then it must be a right one: a date, a time of day, or both, possibly with the distance to universal
time.
-/

namespace Pine.Moment

/-- The value of a decimal digit. -/
def digit? (c : Char) : Option Nat :=
  if '0' ≤ c && c ≤ '9' then some (c.toNat - '0'.toNat) else none

/-- The value of two digits. -/
def two? (a b : Char) : Option Nat := do return 10 * (← digit? a) + (← digit? b)

/-- Whether a year has a leap day. -/
def isLeap (year : Nat) : Bool := year % 4 = 0 && (year % 100 ≠ 0 || year % 400 = 0)

/-- The number of days of a month. -/
def daysIn (year month : Nat) : Nat :=
  if month = 2 then (if isLeap year then 29 else 28)
  else if month ∈ [4, 6, 9, 11] then 30
  else 31

/-- Whether a year, a month and a day name a date. -/
def isDay (year month day : Nat) : Bool :=
  1 ≤ month && month ≤ 12 && 1 ≤ day && day ≤ daysIn year month

/-- The text behind a date such as `2024-02-29`. -/
def afterDate? : List Char → Option (List Char)
  | a :: b :: c :: d :: '-' :: e :: f :: '-' :: g :: h :: rest => do
    let year := 100 * (← two? a b) + (← two? c d)
    if isDay year (← two? e f) (← two? g h) then return rest else none
  | _ => none

/-- The text behind a fraction of a second, if there is one. -/
def afterFraction : List Char → List Char
  | '.' :: c :: rest =>
    if (digit? c).isSome then rest.dropWhile fun c => (digit? c).isSome else '.' :: c :: rest
  | cs => cs

/-- The text behind a time such as `07:32:00.5`. -/
def afterTime? : List Char → Option (List Char)
  | a :: b :: ':' :: c :: d :: ':' :: e :: f :: rest => do
    if (← two? a b) < 24 && (← two? c d) < 60 && (← two? e f) < 60 then
      return afterFraction rest
    else none
  | _ => none

/-- Whether a text is a distance to universal time. -/
def isOffset : List Char → Bool
  | ['Z'] => true
  | [sign, a, b, ':', c, d] =>
    (sign = '+' || sign = '-') &&
      match two? a b, two? c d with
      | some hours, some minutes => hours ≤ 24 && minutes ≤ 60
      | _, _ => false
  | _ => false

/-- A letter of a date as it is read: small letters and blanks stand for the large letters. -/
def letter (c : Char) : Char :=
  if c = 'z' then 'Z' else if c = 't' || c = ' ' then 'T' else c

/-- Whether a text is a date, a time, or both. -/
def isMoment (text : List Char) : Bool :=
  let cs := text.map letter
  match afterDate? cs with
  | some [] => true
  | some ('T' :: rest) =>
    match afterTime? rest with
    | some [] => true
    | some offset => isOffset offset
    | none => false
  | some _ => false
  | none => afterTime? cs = some []

end Pine.Moment
