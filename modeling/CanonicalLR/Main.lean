import CanonicalLR.Command

/-!
The program: reads the command line, the grammar file and standard input, and writes what the
session answers.
-/

set_option autoImplicit false
set_option relaxedAutoImplicit false

namespace CanonicalLR

open Session (Message)

def writeMessage : Message → IO Unit
  | .output text => do
    (← IO.getStdout).putStr text
    (← IO.getStdout).flush
  | .diagnostic text => IO.eprint text

/-- Tries ever greater step limits until a run ends. -/
partial def untilDone {α : Type} (run : Nat → Option α) (limit : Nat) : IO α :=
  match run limit with
  | some result => pure result
  | none => untilDone run (2 * limit)

/-- Answers a line; false if the session ends with it. -/
def answerLine (style : Report.Style) (p : Parser) (line : String) : IO Bool := do
  let answer ← untilDone (Session.answer p · line) 1024
  (answer.messages style p).forM writeMessage
  pure !answer.isBroken

/-- Answers given lines; gives the exit code. -/
def answerLines (style : Report.Style) (p : Parser) : List String → IO UInt32
  | [] => pure 0
  | line :: lines => do
    if ← answerLine style p line then answerLines style p lines else pure 1

/-- Answers entered lines until the session or the input ends; gives the exit code. -/
partial def answerInput (style : Report.Style) (p : Parser) (input : IO.FS.Stream) : IO UInt32 := do
  let line ← input.getLine
  if line.isEmpty then return 0
  match Session.Entry.ofLine line with
  | .blank => answerInput style p input
  | .quit => return 0
  | .line text => if ← answerLine style p text then answerInput style p input else return 1

/-- The text of the grammar, or why it cannot be read. -/
def grammarText (options : CommandLine.Options) : IO (Except String String) :=
  match options.grammarPath with
  | none => pure (.ok Calculator.grammarText)
  | some path =>
    try
      return .ok (← IO.FS.readFile path)
    catch e =>
      return .error (Command.withCause (Command.unreadableFile path) (toString e))

def runOptions (options : CommandLine.Options) : IO UInt32 := do
  match (← grammarText options) >>= Command.parserOf with
  | .error e =>
    writeMessage (Session.failure e)
    return 1
  | .ok p =>
    (Command.opening options p).forM writeMessage
    let style := Command.style options
    if options.exprs.isEmpty then answerInput style p (← IO.getStdin)
    else answerLines style p options.exprs

end CanonicalLR

def main (arguments : List String) : IO UInt32 :=
  match CanonicalLR.CommandLine.read arguments with
  | .ok options => CanonicalLR.runOptions options
  | .error .helpRequested => do
    IO.print CanonicalLR.CommandLine.usage
    return 0
  | .error e => do
    IO.eprint ("error: " ++ e.message ++ "\n\n" ++ CanonicalLR.CommandLine.usage)
    return 2
