import Polled.Session

/-!
The command line over real files.
-/

namespace Polled

def FileError.ofSystem (e : IO.Error) : FileError :=
  match e with
  | .noFileOrDirectory _ _ _ => .notFound
  | .alreadyExists _ _ _ => .alreadyExists
  | .inappropriateType _ 20 _ => .notDirectory
  | .inappropriateType _ 21 _ => .isDirectory
  | _ => .other (toString e)

def attemptCall {α : Type} (call : IO α) : IO (Except FileError α) := do
  try
    return .ok (← call)
  catch e =>
    return .error (.ofSystem e)

def readBytes (p : Path) : IO (Except FileError ByteArray) := attemptCall (IO.FS.readBinFile p.text)

/-- No tree of imports comes near the capacity. -/
def realFiles : FileSystem IO where
  read p := do
    match ← readBytes p with
    | .error e => return .error e
    | .ok bytes =>
      match String.fromUTF8? bytes with
      | some text => return .ok text
      | none => return .error .notText
  isDirectory p := do
    match ← readBytes p with
    | .error .isDirectory => return true
    | _ => return false
  isFile p := return (← readBytes p).isOk
  makeDirectory p := attemptCall (IO.FS.createDir p.text)
  write p text := attemptCall (IO.FS.writeFile p.text text)
  rename source dest := attemptCall (IO.FS.rename source.text dest.text)
  removeFile p := attemptCall (IO.FS.removeFile p.text)
  capacity := 0x1_0000_0000

end Polled

open Polled in
def main (args : List String) : IO UInt32 := do
  let r ← (Invocation.ofArguments args).run realFiles
  IO.print r.printed
  for text in r.remarks ++ (r.report.map Report.texts).getD [] do
    IO.eprintln text
  if r.exitCode == usageExitCode then
    IO.eprint (helpText none)
  return r.exitCode.toUInt32
