import CanonicalLR.CommandLine
import CanonicalLR.Session

/-!
The command as a whole: from the options, the text of the grammar and the text on standard input to
everything that is written and the exit code.
-/

set_option autoImplicit false
set_option relaxedAutoImplicit false

namespace CanonicalLR.Command

open Session (Message)

/-- What the command leaves behind. -/
structure Transcript where
  messages : List Message
  exitCode : Nat
  deriving DecidableEq

namespace Transcript

def output (t : Transcript) : String :=
  String.join (t.messages.map fun
    | .output text => text
    | .diagnostic _ => "")

def diagnostics (t : Transcript) : String :=
  String.join (t.messages.map fun
    | .output _ => ""
    | .diagnostic text => text)

end Transcript

def withCause (failure cause : String) : String := failure ++ "\n\nCaused by:\n    " ++ cause

def unreadableFile (path : String) : String := "failed to read grammar file " ++ path

/-- The parser for the grammar in a text, or why there is none. -/
def parserOf (grammarText : String) : Except String Parser :=
  match Grammar.read grammarText with
  | .error e => .error (withCause "invalid grammar" e.message)
  | .ok g =>
    match Parser.ofGrammar g with
    | .error e => .error (withCause "failed to build the LR(1) parser" e.message)
    | .ok p => .ok p

def style (options : CommandLine.Options) : Report.Style := ⟨!options.noColor⟩

/-- What is written before the first line: the report, unless the command is quiet, and the prompt,
unless the lines are given. -/
def opening (options : CommandLine.Options) (p : Parser) : List Message :=
  let report := [.output (Report.ofParser (style options) p ++ "\n")]
  let prompt := [.diagnostic Session.prompt]
  (if options.quiet then [] else report) ++ (if options.exprs.isEmpty then prompt else [])

/-- The lines to be answered: those of the options, else those of standard input. -/
def linesOf (options : CommandLine.Options) (input : String) : List String :=
  if options.exprs.isEmpty then
    Session.entered ((Text.lines input.toList).map String.ofList)
  else options.exprs

/-- The transcript of the command, if every run ends within `limit` steps. -/
def run (limit : Nat) (options : CommandLine.Options) (grammarText input : String) :
    Option Transcript :=
  match parserOf grammarText with
  | .error e => some ⟨[Session.failure e], 1⟩
  | .ok p =>
    (Session.answers p limit (linesOf options input)).map fun answers =>
      let written := answers.flatMap (·.messages (style options) p)
      ⟨opening options p ++ written, if answers.any (·.isBroken) then 1 else 0⟩

end CanonicalLR.Command
