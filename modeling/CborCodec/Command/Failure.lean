import CborCodec.Error
/-!
Why a command fails, and how that is worded.
-/

namespace CborCodec

inductive Failure where
  /-- The settings cannot be read, or do not fit. -/
  | settings
  | logLevel
  | unreadable (input cause : String)
  | unwritable (output cause : String)
  /-- What is found at an offset is no item. -/
  | noItem (offset : Nat) (error : Error)
  /-- An item stands at an offset, but no value. -/
  | noValue (offset : Nat) (error : Error)
  /-- The item with a number fails the check. -/
  | invalid (index offset : Nat) (error : Error)
  /-- The item with a number cannot be passed over or copied. -/
  | uncopied (index offset : Nat) (error : Error)
  | tooFewItems (count : Nat)
  deriving DecidableEq, Repr

namespace Failure

def because (message cause : String) : String :=
  message ++ "\n\nCaused by:\n    " ++ cause

def invalidAt (index offset : Nat) : String :=
  "Item " ++ toString index ++ " at offset " ++ toString offset ++ " is invalid"

def message : Failure → String
  | settings => "The settings cannot be read"
  | logLevel =>
    "Invalid log level: error parsing level filter: expected one of \"off\", \"error\", " ++
      "\"warn\", \"info\", \"debug\", \"trace\", or a number 0-5"
  | unreadable input cause => because ("Failed to read " ++ input) cause
  | unwritable output cause => because ("Failed to write " ++ output) cause
  | noItem offset error =>
    "Invalid item at offset " ++ toString offset ++ ": " ++ error.message
  | noValue offset error =>
    because ("Failed to decode item at offset " ++ toString offset) error.message
  | invalid index offset error => invalidAt index offset ++ ": " ++ error.message
  | uncopied index offset error => because (invalidAt index offset) error.message
  | tooFewItems count => "Input holds only " ++ toString count ++ " item(s)"

end Failure

end CborCodec
