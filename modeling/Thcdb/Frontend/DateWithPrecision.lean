import Thcdb.Frontend.JsDate

namespace Thcdb.Frontend.DateWithPrecision

open Js

inductive DatePrecision where
  | Year
  | Month
  | Day
  deriving DecidableEq, Repr

structure In where
  value : Date
  precision : DatePrecision
  deriving DecidableEq

/-- The UTF-16 code units of a string. -/
abbrev JsString := List UInt16

def isDigit (c : UInt16) : Bool := 0x30 ≤ c && c ≤ 0x39

/-- `Number.parseInt(value, 10)` on digits -/
def parseInt (value : JsString) : ℕ :=
  value.foldl (fun n c => 10 * n + (c.toNat - 0x30)) 0

/-- The input schemas differ in the number of digits that they keep. -/
def parseNumber (maxDigits : ℕ) (raw : JsString) : Option Number :=
  if raw.all isDigit then
    let value := raw.take maxDigits
    if value = [] then none else some (.int (parseInt value))
  else none

def daysInMonth (year month : Number) : Number :=
  (Date.UTC year month (.int 0)).getUTCDate

structure Store where
  year : Option Number := none
  month : Option Number := none
  day : Option Number := none
  deriving DecidableEq

namespace Store

def normalize (store : Store) : Store :=
  match store.year with
  | none => {}
  | some year =>
    let month := match store.month with
      | none => none
      | some month => if month.lt (.int 1) then none else some (month.min (.int 12))
    let day := match month, store.day with
      | some month, some day =>
        if day.lt (.int 1) then none else some (day.min (daysInMonth year month))
      | _, _ => none
    { year := some year, month := month, day := day }

def getPrecision (store : Store) : Option DatePrecision :=
  if store.year = none then none
  else if store.month = none then some .Year
  else if store.day = none then some .Month
  else some .Day

end Store

def YEAR_DIGITS : ℕ := 4

def DATE_PART_DIGITS : ℕ := 2

def setYear (thisYear : ℕ) (store : Store) (raw : JsString) : Store :=
  let year := (parseNumber YEAR_DIGITS raw).map fun year => year.min (.int thisYear)
  Store.normalize { year := year, month := store.month, day := store.day }

def setMonth (store : Store) (raw : JsString) : Store :=
  Store.normalize
    { year := store.year, month := parseNumber DATE_PART_DIGITS raw, day := store.day }

def setDay (store : Store) (raw : JsString) : Store :=
  Store.normalize
    { year := store.year, month := store.month, day := parseNumber DATE_PART_DIGITS raw }

def valueToStore : Option In → Store
  | none => {}
  | some value =>
    let year := value.value.getUTCFullYear
    let month := if value.precision = .Year then none
      else some (value.value.getUTCMonth.add (.int 1))
    let day := if value.precision = .Day then some value.value.getUTCDate else none
    Store.normalize { year := some year, month := month, day := day }

def fromYMD (year month day : Number) : Date :=
  (Date.UTC year (month.add (.int (-1))) day).setUTCFullYear year

def storeToValue (store : Store) : Option In := do
  let precision ← store.getPrecision
  let year ← store.year
  some
    { value := fromYMD year (store.month.getD (.int 1)) (store.day.getD (.int 1))
      precision := precision }

/-- One edit of the form, with the text that was typed. -/
inductive Edit where
  | year (raw : JsString)
  | month (raw : JsString)
  | day (raw : JsString)
  deriving DecidableEq

def Store.edit (thisYear : ℕ) (store : Store) : Edit → Store
  | .year raw => setYear thisYear store raw
  | .month raw => setMonth store raw
  | .day raw => setDay store raw

def Store.edits (thisYear : ℕ) (store : Store) (edits : List Edit) : Store :=
  edits.foldl (Store.edit thisYear) store

end Thcdb.Frontend.DateWithPrecision
