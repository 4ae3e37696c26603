/-!
# Failures

Why a command gives no result, and how it says so.
-/

namespace FilterQuery

/-- A reason for a command to fail. -/
inductive Failure where
  | invalidJson
  | invalidUtf8
  | noInput
  | notArray (kind : String)
  | unknownTopic (name : String)
  deriving DecidableEq

namespace Failure

/-- What is said about a failure. Where a JSON text can not be read, the reader's own message would
stand behind the colon; it is not modelled, and a text of its own stands in for it. -/
def message : Failure → String
  | invalidJson => "Invalid JSON: the input is not one JSON value"
  | invalidUtf8 => "IO error: stream did not contain valid UTF-8"
  | noInput => "No input provided. Pass it as an argument or pipe it to stdin."
  | notArray kind => "Batch input must be a JSON array, got " ++ kind
  | unknownTopic name =>
    "Unknown category: '" ++ name ++ "'\nRun 'qfilter docs' to see available categories."

end Failure

end FilterQuery
