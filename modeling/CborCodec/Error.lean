/-!
What can go wrong: failures of a byte source or sink, of the buffers over them, and of the
codec itself. Each kind has one wording.
-/

namespace CborCodec

inductive DeviceError where
  | other
  | notFound
  | permissionDenied
  | connectionRefused
  | connectionReset
  | connectionAborted
  | notConnected
  | addrInUse
  | addrNotAvailable
  | brokenPipe
  | alreadyExists
  | invalidInput
  | invalidData
  | timedOut
  | interrupted
  | unsupported
  | outOfMemory
  | writeZero
  deriving DecidableEq, Repr, Inhabited

namespace DeviceError

def name : DeviceError → String
  | other => "Other"
  | notFound => "NotFound"
  | permissionDenied => "PermissionDenied"
  | connectionRefused => "ConnectionRefused"
  | connectionReset => "ConnectionReset"
  | connectionAborted => "ConnectionAborted"
  | notConnected => "NotConnected"
  | addrInUse => "AddrInUse"
  | addrNotAvailable => "AddrNotAvailable"
  | brokenPipe => "BrokenPipe"
  | alreadyExists => "AlreadyExists"
  | invalidInput => "InvalidInput"
  | invalidData => "InvalidData"
  | timedOut => "TimedOut"
  | interrupted => "Interrupted"
  | unsupported => "Unsupported"
  | outOfMemory => "OutOfMemory"
  | writeZero => "WriteZero"

def all : List DeviceError :=
  [other, notFound, permissionDenied, connectionRefused, connectionReset, connectionAborted,
    notConnected, addrInUse, addrNotAvailable, brokenPipe, alreadyExists, invalidInput,
    invalidData, timedOut, interrupted, unsupported, outOfMemory, writeZero]

def ofName? (s : String) : Option DeviceError :=
  all.find? (fun k => k.name == s)

end DeviceError

/-- Failures of a buffer between the codec and a device. -/
inductive Fault where
  | endOfStream
  | notEnoughMemory
  | device (kind : DeviceError)
  deriving DecidableEq, Repr, Inhabited

def Fault.message : Fault → String
  | endOfStream => "End of stream"
  | notEnoughMemory => "Not enough memory"
  | device kind => "I/O error: " ++ kind.name

/-- The least number of bytes that no single buffer can hold. -/
def allocationLimit : Nat := 0x7FFFFFFFFFFFFFFF

inductive Error where
  | invalidAdditionalInformation (info : UInt8)
  | itemTypeMismatch
  | itemValueOutOfRange
  | indefiniteItem
  | invalidIndefiniteSubitem
  | oversizedAdditionalInformationCoding
  | missingData
  | endOfStream
  | stringExceedsSizeLimit
  | notEnoughMemory
  | invalidUtf8
  | maxNestingDepth
  | stream (kind : DeviceError)
  deriving DecidableEq, Repr, Inhabited

namespace Error

def message : Error → String
  | invalidAdditionalInformation info =>
    "Invalid additional information value " ++ toString info.toNat
  | itemTypeMismatch => "Incorrect item type"
  | itemValueOutOfRange => "Item value out of range"
  | indefiniteItem => "Indefinite-length item not permitted"
  | invalidIndefiniteSubitem => "Indefinite-length item contains an invalid chunk"
  | oversizedAdditionalInformationCoding => "Additional information is not minimally encoded"
  | missingData => "Not enough data for encoded value"
  | endOfStream => "Unexpected end of stream"
  | stringExceedsSizeLimit => "String exceeds size limit"
  | notEnoughMemory => "Not enough memory"
  | invalidUtf8 => "Text string is not valid UTF-8"
  | maxNestingDepth => "Maximum nesting depth exceeded"
  | stream kind => "Stream error: " ++ kind.name

def ofFault : Fault → Error
  | .endOfStream => endOfStream
  | .notEnoughMemory => notEnoughMemory
  | .device kind => stream kind

end Error

end CborCodec
