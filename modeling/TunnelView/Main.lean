import TunnelView.CommandLine

/-!
# The program

Reads the script that the arguments name, and prints what the command line answers.
-/

open TunnelView

/-- What a file system says about a path that cannot be read. -/
def refusalOf : IO.Error → Refusal
  | .noFileOrDirectory _ _ _ => .missing
  | .inappropriateType _ 20 _ => .notAFolder
  | .inappropriateType _ _ _ => .aFolder
  | .permissionDenied _ _ _ => ⟨13, "Permission denied"⟩
  | .invalidArgument _ 36 _ => .tooLong
  | e => ⟨5, toString e⟩

/-- The bytes of a file. -/
def readBytes (path : String) : IO (Except Refusal (List UInt8)) := do
  try
    let bytes ← IO.FS.readBinFile path
    return .ok bytes.toList
  catch e => return .error (refusalOf e)

/-- The bytes of the script that a command line names, if it names one. -/
def readScript (arguments : List String) : IO (Except Refusal (List UInt8)) :=
  match Arguments.read arguments with
  | .ok (.replay script _ _ _) => readBytes script
  | _ => return .error .missing

/-- Prints lines. -/
def printLines (print : String → IO Unit) (lines : List String) : IO Unit := lines.forM print

def main (arguments : List String) : IO UInt32 := do
  let contents ← readScript arguments
  match CommandLine.run (fun _ => contents) arguments with
  | .error escape =>
    IO.eprintln escape.message
    return 1
  | .ok outcome =>
    printLines IO.eprintln outcome.err
    printLines IO.println outcome.out
    return outcome.exit.toUInt32
