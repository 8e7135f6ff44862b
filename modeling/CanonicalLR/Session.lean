import CanonicalLR.Calculator
import CanonicalLR.Report.Sections
import CanonicalLR.Text.Characters
import CanonicalLR.Text.Split
import CanonicalLR.Token

/-!
Sessions: a parser answers lines, one after the other, each with its token stream and the trace of
its run. What is written to the two streams is a value here; reading and writing are left to the
program.
-/

set_option autoImplicit false
set_option relaxedAutoImplicit false

namespace CanonicalLR.Session

/-- A text for standard output, or one for the error stream. -/
inductive Message where
  | output (text : String)
  | diagnostic (text : String)
  deriving DecidableEq

/-- What a line is answered with: its tokens and its run, the error in its text, or a defect of the
table that the run has met after its tokens were shown. -/
inductive Answer where
  | traced (input : List Symbol) (trace : Trace)
  | unreadable (e : LexError)
  | broken (input : List Symbol) (defect : Defect)
  deriving DecidableEq

/-- The answer to a line, if its run ends within `limit` steps. -/
def answer (p : Parser) (limit : Nat) (line : String) : Option Answer :=
  match Token.ofLine line with
  | .error e => some (.unreadable e)
  | .ok tokens =>
    let input := Calculator.inputOf tokens
    (p.parse limit input).map fun
      | .ok trace => .traced input trace
      | .error defect => .broken input defect

def tokenSection (style : Report.Style) (input : List Symbol) : String :=
  style.titled "Token Stream" (Report.tokenStream input) ++ "\n"

def traceSection (style : Report.Style) (p : Parser) (trace : Trace) : String :=
  style.titled "Parsing procedure" (Report.trace style p.machine trace) ++ "\n"

/-- How a failure is written that ends a session. -/
def failure (message : String) : Message := .diagnostic ("Error: " ++ message ++ "\n")

/-- How an answer is written. A line that cannot be read leaves nothing on the output. -/
def Answer.messages (style : Report.Style) (p : Parser) : Answer → List Message
  | .traced input trace => [.output (tokenSection style input ++ traceSection style p trace)]
  | .unreadable e => [.diagnostic (e.message ++ "\n\n")]
  | .broken input defect => [.output (tokenSection style input), failure defect.message]

/-- Whether a session ends with an answer. -/
def Answer.isBroken : Answer → Bool
  | .broken _ _ => true
  | _ => false

/-- The answers to lines, up to one that ends the session, if every run ends within `limit`
steps. -/
def answers (p : Parser) (limit : Nat) : List String → Option (List Answer)
  | [] => some []
  | line :: lines =>
    match answer p limit line with
    | none => none
    | some first =>
      if first.isBroken then some [first]
      else (answers p limit lines).map (first :: ·)

def prompt : String := "Enter a line of expression, or 'q' to quit.\n\n"

/-- What an entered line comes to: nothing, the end of the session, or a line to be answered. -/
inductive Entry where
  | blank
  | quit
  | line (text : String)
  deriving DecidableEq

/-- Reads an entered line without the blank characters at its ends. -/
def Entry.ofLine (line : String) : Entry :=
  match String.ofList (Text.trim line.toList) with
  | "" => .blank
  | "q" => .quit
  | text => .line text

/-- The lines that entered lines ask to be answered, up to the end of the session. -/
def entered : List String → List String
  | [] => []
  | line :: lines =>
    match Entry.ofLine line with
    | .blank => entered lines
    | .quit => []
    | .line text => text :: entered lines

end CanonicalLR.Session
