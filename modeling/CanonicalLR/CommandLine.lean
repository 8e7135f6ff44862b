/-!
The command line. `-g` or `--grammar` names a grammar file, `-e` or `--expr` gives a line and may be
repeated, `--no-color` and `-q` or `--quiet` are flags, `-h` or `--help` asks for help. The value of
an option is the next argument or is attached to it: `--expr=1`, `-e=1`, `-e1`. Flags can be joined
behind one dash, with an option last.

An option that waits for its value, or has taken it from the next argument, is *open*; it is closed,
and its value checked, when the next option comes or the arguments end.
-/

set_option autoImplicit false
set_option relaxedAutoImplicit false

namespace CanonicalLR.CommandLine

structure Options where
  grammarPath : Option String
  exprs : List String
  noColor : Bool
  quiet : Bool
  deriving DecidableEq

/-- Why a command line is refused, or that it asks for help. -/
inductive UsageError where
  /-- An argument that is no option, no value and no known name. -/
  | unknownArgument
  /-- An option without a value, or with an empty path for one. -/
  | invalidValue
  /-- An option that may be given once only comes again. -/
  | repeatedOption
  /-- A flag with a value attached. -/
  | unexpectedValue
  | helpRequested
  deriving DecidableEq

/-- The options that take a value. -/
inductive ValueOption where
  | grammar
  | expr
  deriving DecidableEq

inductive Flag where
  | noColor
  | quiet
  | help
  deriving DecidableEq

inductive NamedOption where
  | value (option : ValueOption)
  | flag (flag : Flag)
  deriving DecidableEq

def NamedOption.ofLongName? (name : List Char) : Option NamedOption :=
  match String.ofList name with
  | "grammar" => some (.value .grammar)
  | "expr" => some (.value .expr)
  | "no-color" => some (.flag .noColor)
  | "quiet" => some (.flag .quiet)
  | "help" => some (.flag .help)
  | _ => none

def NamedOption.ofLetter? : Char → Option NamedOption
  | 'g' => some (.value .grammar)
  | 'e' => some (.value .expr)
  | 'q' => some (.flag .quiet)
  | 'h' => some (.flag .help)
  | _ => none

/-- An option that has not been closed, and its value if it has taken one. -/
structure OpenOption where
  option : ValueOption
  value? : Option String
  deriving DecidableEq

/-- The options read so far and the one that is open. -/
structure Reader where
  options : Options
  opened : Option OpenOption
  deriving DecidableEq

namespace Options

def blank : Options := ⟨none, [], false, false⟩

def record (options : Options) (option : ValueOption) (value : String) :
    Except UsageError Options :=
  match option with
  | .expr => .ok { options with exprs := options.exprs ++ [value] }
  | .grammar =>
    if options.grammarPath.isSome then .error .repeatedOption
    else if value == "" then .error .invalidValue
    else .ok { options with grammarPath := some value }

def raise (options : Options) : Flag → Except UsageError Options
  | .help => .error .helpRequested
  | .noColor =>
    if options.noColor then .error .repeatedOption else .ok { options with noColor := true }
  | .quiet => if options.quiet then .error .repeatedOption else .ok { options with quiet := true }

end Options

namespace Reader

def initial : Reader := ⟨.blank, none⟩

/-- Closes the open option, if there is one, and gives the options with it. -/
def close (r : Reader) : Except UsageError Options :=
  match r.opened with
  | none => .ok r.options
  | some ⟨_, none⟩ => .error .invalidValue
  | some ⟨option, some value⟩ => r.options.record option value

def raise (r : Reader) (flag : Flag) : Except UsageError Reader := do
  let options ← (← r.close).raise flag
  pure ⟨options, none⟩

/-- Reads an option with its value attached. -/
def attach (r : Reader) (option : ValueOption) (value : List Char) : Except UsageError Reader := do
  let options ← (← r.close).record option (String.ofList value)
  pure ⟨options, none⟩

/-- Reads an option that waits for its value. -/
def await (r : Reader) (option : ValueOption) : Except UsageError Reader := do
  pure ⟨← r.close, some ⟨option, none⟩⟩

/-- Reads an argument that is not an option: it is the value of an option that waits for one. -/
def word (r : Reader) (argument : List Char) : Except UsageError Reader :=
  match r.opened with
  | some ⟨option, none⟩ => .ok { r with opened := some ⟨option, some (String.ofList argument)⟩ }
  | _ => .error .unknownArgument

/-- Reads what follows two dashes: a name, and after an equals sign a value. -/
def long (r : Reader) (text : List Char) : Except UsageError Reader :=
  let name := text.takeWhile (· != '=')
  let attached := text.dropWhile (· != '=')
  match NamedOption.ofLongName? name, attached with
  | some (.value option), [] => r.await option
  | some (.value option), _ :: value => r.attach option value
  | some (.flag flag), [] => r.raise flag
  | some (.flag _), _ :: _ => .error .unexpectedValue
  | none, _ => .error .unknownArgument

/-- Reads what follows one dash: flags by their letters, up to an option, which takes the rest as
its value, less an equals sign in front. -/
def cluster (r : Reader) : List Char → Except UsageError Reader
  | [] => .ok r
  | letter :: rest =>
    match NamedOption.ofLetter? letter with
    | some (.flag flag) => do cluster (← r.raise flag) rest
    | some (.value option) =>
      match rest with
      | [] => r.await option
      | '=' :: value => r.attach option value
      | value => r.attach option value
    | none => .error .unknownArgument

/-- Reads an argument other than the two dashes alone. -/
def argument (r : Reader) : List Char → Except UsageError Reader
  | '-' :: '-' :: text => r.long text
  | '-' :: letter :: rest => r.cluster (letter :: rest)
  | text => r.word text

/-- Reads all arguments. After two dashes alone nothing more may come. -/
def arguments (r : Reader) : List String → Except UsageError Options
  | [] => r.close
  | text :: rest =>
    if text == "--" then
      if rest.isEmpty then r.close else .error .unknownArgument
    else do arguments (← r.argument text.toList) rest

end Reader

def read (arguments : List String) : Except UsageError Options :=
  Reader.initial.arguments arguments

def usage : String :=
  "Usage: lr1 [OPTIONS]\n\n" ++
  "Options:\n" ++
  "  -g, --grammar <GRAMMAR>  Grammar file\n" ++
  "  -e, --expr <EXPR>        Parse this line instead of reading standard input\n" ++
  "      --no-color           Do not color the output\n" ++
  "  -q, --quiet              Do not show the parser\n" ++
  "  -h, --help               Print this help\n"

def UsageError.message : UsageError → String
  | .unknownArgument => "unexpected argument found"
  | .invalidValue => "a value is required for an option but none was supplied"
  | .repeatedOption => "an argument cannot be used multiple times"
  | .unexpectedValue => "unexpected value for a flag found"
  | .helpRequested => usage

end CanonicalLR.CommandLine
