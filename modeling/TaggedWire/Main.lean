import TaggedWire.Command.Run

/-!
# The program

A script is carried out on the files and the output of the machine.
-/

namespace TaggedWire

/-- The fault that an error of the machine stands for. -/
def FileFault.ofError : IO.Error → FileFault
  | .noFileOrDirectory _ _ _ => .absent
  | e => .other (toString e)

namespace Script

/-- The result of an action on a file. -/
def answer (action : IO α) : IO (Except FileFault α) := do
  try return .ok (← action)
  catch e => return .error (.ofError e)

/-- Make a directory and those before it.  What a point at the end stands in is not made. -/
def makeDirectoriesAt (path : String) : IO Unit := do
  if path = "" then return
  if Path.endsInPoint path then
    let before := Path.parent path
    if before ≠ "" then IO.FS.createDirAll before
    try IO.FS.createDir path
    catch
      | .alreadyExists _ _ _ => return
      | e => throw e
  else IO.FS.createDirAll path

/-- Carry out a script. -/
def perform : Script α → IO α
  | done a => return a
  | read path next => do (next (← answer (IO.FS.readFile path))).perform
  | write path text next => do (next (← answer (IO.FS.writeFile path text))).perform
  | remove path next => do (next (← answer (IO.FS.removeFile path))).perform
  | createDirectories path next => do (next (← answer (makeDirectoriesAt path))).perform
  | print text next => do
    let out ← IO.getStdout
    out.putStr text
    out.flush
    next.perform
  | printError text next => do
    let out ← IO.getStderr
    out.putStr text
    out.flush
    next.perform

end Script

/-- The variables of the environment that settings look at. -/
def environment : IO (Table String) := do
  let found ← Settings.variableNames.mapM fun name => return (← IO.getEnv name).map (name, ·)
  return Table.ofList (found.filterMap id)

end TaggedWire

open TaggedWire in
/-- Run the command line and end with the code of its outcome. -/
def main (args : List String) : IO UInt32 := do
  let env ← environment
  let outcome ← (CommandLine.run env.get? args).perform
  outcome.report.perform
  return outcome.code.toUInt32
