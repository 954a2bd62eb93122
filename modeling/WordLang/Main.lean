import WordLang.Streaming

/-!
# Entry point

Reads and writes files and ends with the code of the outcome; what to do is decided by
`Invocation.stream`.
-/

namespace WordLang

/-- The wording of a system error. -/
def systemReason : IO.Error → String
  | .noFileOrDirectory _ _ _ => "No such file or directory (os error 2)"
  | error => toString error

/-- What an action on files gives, or the reason why it fails. -/
def attempt {α : Type} (action : IO α) : IO (Except String α) := do
  try
    return .ok (← action)
  catch error =>
    return .error (systemReason error)

/-- The files of the machine. -/
def machineFiles : Files IO IO.FS.Handle where
  read path := do
    match ← attempt (IO.FS.readBinFile path) with
    | .error reason => return .error reason
    | .ok bytes =>
      match String.fromUTF8? bytes with
      | some text => return .ok text
      | none => return .error "stream did not contain valid UTF-8"
  create path := attempt (IO.FS.Handle.mk path .write)
  append handle text := attempt (handle.putStr text)
  flush handle := attempt handle.flush

/-- Prints what an outcome has to say. -/
def Outcome.report (outcome : Outcome) : IO UInt32 := do
  IO.print outcome.stdout
  IO.eprint outcome.stderr
  return outcome.code.toUInt32

end WordLang

open WordLang in
/-- Compiles the file that the arguments name. -/
def main (args : List String) : IO UInt32 := do
  match Invocation.ofArgs? args with
  | none =>
    IO.eprintln "usage: [--emit-ir] [-o OUTPUT] SOURCE"
    return 2
  | some invocation =>
    (← invocation.stream machineFiles).report
