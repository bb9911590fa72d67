import RoundRobin.CommandLine

/-!
# The program

Reads the file that the first argument names, hands its content to the command line, and prints what
comes of it.
-/

namespace RoundRobin

/-- Why reading a file failed, in the words of the command line. -/
def ReadFailure.ofError (error : IO.Error) : ReadFailure :=
  match error with
  | .noFileOrDirectory .. => .notFound
  | .inappropriateType _ 21 _ => .isDirectory
  | .inappropriateType .. => .notDirectory
  | error => .other (toString error)

/-- The content of a file. -/
def readFile (path : String) : IO (Except ReadFailure (List UInt8)) := do
  try
    let content ← IO.FS.readBinFile path
    return .ok content.toList
  catch error =>
    return .error (.ofError error)

end RoundRobin

/-- The program. -/
def main (args : List String) : IO UInt32 := do
  let content ←
    match args with
    | [path, _] => RoundRobin.readFile path
    | _ => pure (.error .notFound)
  let setting := RoundRobin.LogLevel.ofSetting (← IO.getEnv "RR_LOG")
  let transcript := RoundRobin.CommandLine.run (fun _ => content) setting args
  IO.print transcript.output
  for line in transcript.errorLines do
    IO.eprintln line
  return transcript.exitCode.toUInt32
