import FilterQuery.Dialect
/-!
# Command-line arguments

A request is a subcommand with its settings. Options have a short and a long name;
short ones may be joined, and a value may be attached to its option or follow as
the next argument. An argument `--` ends the options. Every setting is given at
most once. Arguments are read from the left, and nothing is read behind a request
for help.
-/

namespace FilterQuery

/-- What is asked for on the command line. -/
inductive Request where
  | version
  | help
  | convert (query : Option String) (isPretty : Bool) (dialect : Dialect)
  | tokenize (query : Option String)
  | batch (input : Option String) (isPretty : Bool) (dialect : Dialect)
  | docs
  | doc (name : String)

/-- An option of a subcommand. -/
inductive Flag where
  | help
  | pretty
  | dialect
  | input
  deriving DecidableEq

namespace Flag

/-- The letter of an option. -/
def short : Flag → Char
  | help => 'h'
  | pretty => 'p'
  | dialect => 'd'
  | input => 'i'

/-- The long name of an option. -/
def long : Flag → String
  | help => "help"
  | pretty => "pretty"
  | dialect => "dialect"
  | input => "input"

/-- The option has a value. -/
def takesValue : Flag → Bool
  | help => false
  | pretty => false
  | dialect => true
  | input => true

end Flag

/-- A setting on the command line: an option, with its value if it takes one, or a
plain word. -/
inductive Setting where
  | flag (flag : Flag) (value : String)
  | word (text : String)

namespace Setting

/-- The argument is read as options: it starts with a hyphen and is more than one. -/
def isOption (argument : Text) : Bool := argument.head? = some '-' && argument ≠ ['-']

/-- The value of an option, if it is given. -/
def valueOf? (flag : Flag) (settings : List Setting) : Option String :=
  settings.findSome? fun
    | .flag other value => if other = flag then some value else none
    | .word _ => none

/-- Help is asked for. -/
def asksHelp (settings : List Setting) : Bool := (valueOf? .help settings).isSome

/-- The settings of joined short options, and the option at the end that still wants
its value. The option for help is always there. -/
def ofLetters? (flags : List Flag) : Text → Option (List Setting × Option Flag)
  | [] => some ([], none)
  | letter :: letters => do
    let flag ← (Flag.help :: flags).find? (·.short = letter)
    if flag = .help then some ([.flag .help ""], none)
    else if flag.takesValue then
      match letters with
      | [] => some ([], some flag)
      | '=' :: value => some ([.flag flag (String.ofList value)], none)
      | value => some ([.flag flag (String.ofList value)], none)
    else
      let (settings, wanting) ← ofLetters? flags letters
      some (.flag flag "" :: settings, wanting)

/-- The setting of a long option, or the option if it still wants its value. -/
def ofLong? (flags : List Flag) (argument : Text) : Option (List Setting × Option Flag) := do
  let (name, value?) := match Text.cut? ['='] argument with
    | some (name, value) => (name, some value)
    | none => (argument, none)
  let flag ← (Flag.help :: flags).find? (·.long.toList = name)
  match flag.takesValue, value? with
  | true, some value => some ([.flag flag (String.ofList value)], none)
  | true, none => some ([], some flag)
  | false, none => some ([.flag flag ""], none)
  | false, some _ => none

/-- The settings of one argument, and the option that wants the next argument for
its value. -/
def ofArgument? (flags : List Flag) (argument : Text) : Option (List Setting × Option Flag) :=
  match argument with
  | '-' :: '-' :: name => ofLong? flags name
  | '-' :: letter :: letters => ofLetters? flags (letter :: letters)
  | other => some ([.word (String.ofList other)], none)

/-- The settings that arguments make, among given options. -/
def ofArguments? (flags : List Flag) : List String → Option (List Setting)
  | [] => some []
  | argument :: rest =>
    if argument = "--" then some (rest.map .word)
    else do
      let (settings, wanting) ← ofArgument? flags argument.toList
      if asksHelp settings then some settings
      else match wanting with
        | none => (ofArguments? flags rest).map (settings ++ ·)
        | some option =>
          match rest with
          | [] => none
          | value :: rest =>
            if isOption value.toList then none
            else (ofArguments? flags rest).map (settings ++ .flag option value :: ·)

/-- The words among settings. -/
def words (settings : List Setting) : List String :=
  settings.filterMap fun
    | .word text => some text
    | .flag .. => none

/-- No option is given twice. -/
def isOnce (settings : List Setting) : Bool :=
  [Flag.help, .pretty, .dialect, .input].all fun flag =>
    (settings.filter fun | .flag other _ => other = flag | .word _ => false).length ≤ 1

end Setting

namespace Request

/-- The dialect that is asked for, plain by default. -/
def dialect? (settings : List Setting) : Option Dialect :=
  match Setting.valueOf? .dialect settings with
  | none => some .plain
  | some name => Dialect.ofName? name

/-- At most one word. -/
def atMostOne? : List String → Option (Option String)
  | [] => some none
  | [word] => some (some word)
  | _ => none

/-- The settings of a subcommand, each option given at most once. -/
def settings? (flags : List Flag) (arguments : List String) : Option (List Setting) :=
  (Setting.ofArguments? flags arguments).filter Setting.isOnce

/-- The names of the subcommands. -/
def subcommands : List String := ["convert", "tokenize", "batch", "docs", "doc", "help"]

/-- The request of a subcommand with its arguments. -/
def ofSubcommand? (name : String) (arguments : List String) : Option Request :=
  match name with
  | "convert" => do
    let settings ← settings? [.pretty, .dialect] arguments
    let query ← atMostOne? (Setting.words settings)
    let dialect ← dialect? settings
    if Setting.asksHelp settings then return help
    else return convert query (Setting.valueOf? .pretty settings).isSome dialect
  | "tokenize" => do
    let settings ← settings? [] arguments
    let query ← atMostOne? (Setting.words settings)
    if Setting.asksHelp settings then return help else return tokenize query
  | "batch" => do
    let settings ← settings? [.input, .pretty, .dialect] arguments
    let dialect ← dialect? settings
    if Setting.words settings ≠ [] then none
    else if Setting.asksHelp settings then return help
    else
      return batch (Setting.valueOf? .input settings) (Setting.valueOf? .pretty settings).isSome
        dialect
  | "docs" => do
    let settings ← settings? [] arguments
    if Setting.words settings ≠ [] then none
    else if Setting.asksHelp settings then return help
    else return docs
  | "doc" => do
    let settings ← settings? [] arguments
    let name ← atMostOne? (Setting.words settings)
    if Setting.asksHelp settings then return help else name.map doc
  | "help" => do
    let name ← atMostOne? arguments
    if name.all subcommands.contains then return help else none
  | _ => none

/-- The request that arguments make; none if they are not understood. -/
def ofArguments? : List String → Option Request
  | [] => none
  | first :: arguments =>
    if first = "--version" ∨ first.toList.take 2 = ['-', 'V'] then some version
    else if first = "--help" ∨ first.toList.take 2 = ['-', 'h'] then some help
    else ofSubcommand? first arguments

end Request

end FilterQuery
