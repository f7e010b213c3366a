import KineticAlphabet.CommandLine.Run
/-!
The program: it reads the configuration file that is asked for, draws a seed for generations without
one, and shows the outcome.
-/
namespace KineticAlphabet.CommandLine

def readText (path : String) : IO (Option String) := do
  try
    return String.fromUTF8? (← IO.FS.readBinFile path)
  catch _ => return none

/-- A seed that no one chose. -/
def drawSeed : IO UInt64 := do
  let bytes ← IO.getRandomBytes 8
  return bytes.toList.foldl (fun n b => n <<< 8 ||| b.toUInt64) 0

def configPath? : Command → Option String
  | .generate w => w.config
  | _ => none

def usageText : String :=
  "usage: kinetic generate [OPTIONS] | classify LETTER... | orient TYPE TURNS START [-r ROTATION]"

end KineticAlphabet.CommandLine

open KineticAlphabet CommandLine

def main (args : List String) : IO UInt32 := do
  let path? := (Command.ofArguments? args).bind configPath?
  let content ← match path? with
    | some path => readText path
    | none => pure none
  let outcome := run (fun _ => content) (← drawSeed) args
  if outcome.code = 2 then IO.eprintln usageText
  IO.print outcome.output
  outcome.report.forM fun line => IO.eprintln line
  return outcome.code.toUInt32
