import SemanticLayer.CommandLine.Run

/-!
The command line on a real machine.
-/
open SemanticLayer CommandLine

def errorText : IO.Error → String
  | .noFileOrDirectory _ _ _ => World.notFound
  | .inappropriateType _ 20 _ => World.notDirectory
  | .inappropriateType _ 21 _ => World.isDirectory
  | e => toString e

def attempt (action : IO α) : IO (Except String α) := do
  try return .ok (← action)
  catch e => return .error (errorText e)

def readText (name : String) : IO (Except String String) := attempt (IO.FS.readFile name)

def machine : World IO where
  lookup name := IO.getEnv name
  read := readText
  locate name := attempt do
    let absolute ← IO.FS.realPath name
    return (absolute.toString.splitOn "/").filter (!·.isEmpty)
  isFile name := return (← readText name).toOption.isSome

def main (args : List String) : IO UInt32 := do
  let outcome ← CommandLine.run machine args
  IO.print outcome.stdout
  IO.eprint outcome.stderr
  return outcome.code.toUInt32
