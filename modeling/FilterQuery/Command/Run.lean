import FilterQuery.Command.Arguments
import FilterQuery.Command.Report
/-!
# Running a command

A run takes arguments and the bytes of standard input to an outcome. Input that is
not given as an argument is read from standard input, without the line ends at its
end. A run succeeds with nothing on standard error, or fails with nothing on
standard output.
-/

namespace FilterQuery

/-- What a run leaves behind. -/
structure Outcome where
  exitCode : Nat
  output : String
  errors : String
  deriving DecidableEq

namespace Outcome

/-- Success with an output. -/
def success (output : String) : Outcome := ⟨0, output, ""⟩

/-- Failure of a command that was understood. -/
def failure (failure : Failure) : Outcome := ⟨1, "", failure.message ++ "\n"⟩

/-- How the program is called. -/
def usageText : String := "Usage: qfilter <convert|tokenize|batch|docs|doc> [OPTIONS] [ARGUMENT]\n"

/-- Failure to understand the arguments. -/
def usage : Outcome := ⟨2, "", usageText⟩

/-- The outcome of a computation, with a line end behind its text or not. -/
def ofExcept (lineEnd : String) : Except Failure String → Outcome
  | .ok text => success (text ++ lineEnd)
  | .error reason => failure reason

end Outcome

/-- The text without the line ends at its end. -/
def Text.trimLineEnds (text : Text) : Text :=
  (text.reverse.dropWhile fun c => c = '\n' || c = '\r').reverse

namespace Request

/-- The input that is given, or else the text on standard input. -/
def inputText (given : Option String) (stdin : ByteArray) : Except Failure String :=
  match given with
  | some text => .ok text
  | none =>
    match String.fromUTF8? stdin with
    | some text => .ok (String.ofList (Text.trimLineEnds text.toList))
    | none => .error .invalidUtf8

/-- The outcome of a request. -/
def run (clock : Instant) (stdin : ByteArray) : Request → Outcome
  | version => .success "qfilter 0.1.0\n"
  | help => .success Outcome.usageText
  | convert query isPretty dialect =>
    .ofExcept "\n" ((inputText query stdin).map (Report.convert clock dialect isPretty))
  | tokenize query => .ofExcept "" ((inputText query stdin).map Report.tokenize)
  | batch input isPretty dialect =>
    .ofExcept "\n" (inputText input stdin >>= fun text =>
      Report.batch clock dialect isPretty (some text))
  | docs => .success Topic.overview
  | doc name => .ofExcept "" (Report.topic name)

/-- The request reads standard input. -/
def readsInput : Request → Bool
  | convert none _ _ => true
  | tokenize none => true
  | batch none _ _ => true
  | _ => false

end Request

/-- The outcome of a run with arguments and standard input. -/
def run (clock : Instant) (arguments : List String) (stdin : ByteArray) : Outcome :=
  match Request.ofArguments? arguments with
  | some request => request.run clock stdin
  | none => .usage

end FilterQuery
