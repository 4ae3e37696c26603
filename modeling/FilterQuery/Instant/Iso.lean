import FilterQuery.Instant.Basic
/-!
# Written dates

A date is written `YYYY-MM-DD`, optionally followed by `THH:MM:SS`, and that by
`.mmm` and `Z`. Any decimal digits make up the shape; fields are then read as
ASCII digits, and milliseconds in other digits count as none.
-/

namespace FilterQuery

namespace Instant

/-- Takes a number of decimal digits off a text. -/
def takeDigits? : Nat → Text → Option (Text × Text)
  | 0, text => some ([], text)
  | _ + 1, [] => none
  | count + 1, c :: text =>
    if isDecimalDigit c then (takeDigits? count text).map fun (digits, rest) => (c :: digits, rest)
    else none

/-- Takes one given character off a text. -/
def takeMark? (mark : Char) : Text → Option Text
  | [] => none
  | c :: text => if c = mark then some text else none

/-- The digits of a written date, field by field. -/
structure IsoFields where
  year : Text
  month : Text
  day : Text
  time : Option (Text × Text × Text)
  milli : Option Text

/-- The digits of a fraction of three places, and an optional `Z` behind them,
that take up a whole text. -/
def fraction? (text : Text) : Option Text := do
  let (milli, rest) ← takeDigits? 3 (← takeMark? '.' text)
  if rest = [] ∨ rest = ['Z'] then some milli else none

/-- The fields of a text that has the shape of a date. -/
def isoFields? (text : Text) : Option IsoFields := do
  let (year, rest) ← takeDigits? 4 text
  let (month, rest) ← takeDigits? 2 (← takeMark? '-' rest)
  let (day, rest) ← takeDigits? 2 (← takeMark? '-' rest)
  if rest = [] then some ⟨year, month, day, none, none⟩
  else
    let (hour, rest) ← takeDigits? 2 (← takeMark? 'T' rest)
    let (minute, rest) ← takeDigits? 2 (← takeMark? ':' rest)
    let (second, rest) ← takeDigits? 2 (← takeMark? ':' rest)
    if rest = [] then some ⟨year, month, day, some (hour, minute, second), none⟩
    else some ⟨year, month, day, some (hour, minute, second), some (← fraction? rest)⟩

/-- The instant that fields name, if there is such a day and time. -/
def ofIsoFields? (fields : IsoFields) : Option Instant := do
  let number := Text.natValue? 10
  let date : Date := ⟨← number fields.year, ← number fields.month, ← number fields.day⟩
  if ¬ date.IsValid then none
  else match fields.time with
    | none => ofDateTime? date 0 0 0 0
    | some (hour, minute, second) =>
      let hour ← number hour
      let minute ← number minute
      let second ← number second
      if 23 < hour ∨ 59 < minute ∨ 59 < second then none
      else ofDateTime? date hour minute second ((fields.milli.bind number).getD 0)

/-- The instant that a written date names. -/
def ofIso? (text : Text) : Option Instant := (isoFields? text).bind ofIsoFields?

end Instant

end FilterQuery
