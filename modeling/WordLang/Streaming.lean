import WordLang.Asm.Writer
import WordLang.Invocation

/-!
# Output that is written as it is made

`Invocation.run` hands a whole text to its system. Here the output is a file that is created before
the first line is made and gets one line after the other; that is how the program runs on a machine.

The order of what is done with files is fixed: the source is read, the output is created only for a
program that has no problems and is not to be listed, then come the lines, and in the end the output
is flushed. It is flushed also when writing ended early, because lines may still be on their way;
whether that works does not matter then. Files that refuse something end the run with a message that
says at which of these points they did so.

What a run leaves behind is compared with `Invocation.run` in `WordLang.Proofs.Streaming`.
-/

namespace WordLang

/-- What a run asks of files that are written line by line. Anything may fail for a reason. -/
structure Files (m : Type → Type) (Handle : Type) where
  /-- the text of a file -/
  read : String → m (Except String String)
  /-- opens a file that is empty from then on -/
  create : String → m (Except String Handle)
  /-- adds a text to an open file, possibly later -/
  append : Handle → String → m (Except String Unit)
  /-- adds what has not been added yet -/
  flush : Handle → m (Except String Unit)

variable {m : Type → Type} {Handle : Type}

/-- An open file takes lines, each with its line end. -/
def Files.sink (files : Files m Handle) (handle : Handle) : Asm.Sink m where
  append line := files.append handle (line ++ "\n")

namespace Invocation

/-- The program of a source, given its text or the reason why it cannot be read. Without a program
the run ends with an outcome. -/
def program (invocation : Invocation) : Except String String → Except Outcome Program
  | .error reason => .error (.unreadable invocation.source reason)
  | .ok text =>
    match Tree.parse? text with
    | none => .error .malformed
    | some tree =>
      match (tree.check 0).program with
      | .error error => .error (.uncompiled error)
      | .ok program => .ok program

/-- How a run ends whose output was created, by what became of its lines and of flushing it. -/
def ending (invocation : Invocation) : Except Asm.Halt Unit → Except String Unit → Outcome
  | .error halt, _ => .emitted (some halt)
  | .ok _, .error reason => .unwritable invocation.output reason
  | .ok _, .ok _ => {}

variable [Monad m]

/-- Writes a program to the output. -/
def writeOutput (files : Files m Handle) (invocation : Invocation) (program : Program) :
    m Outcome := do
  match ← files.create invocation.output with
  | .error reason => return .unwritable invocation.output reason
  | .ok handle =>
    let written ← ((files.sink handle).program program).run.run 0
    let flushed ← files.flush handle
    return invocation.ending written.1 flushed

/-- Reads the source and does what was asked for, with the output written line by line. -/
def stream (files : Files m Handle) (invocation : Invocation) : m Outcome := do
  match invocation.program (← files.read invocation.source) with
  | .error outcome => return outcome
  | .ok program =>
    if invocation.listProgram then return { stdout := program.text }
    else invocation.writeOutput files program

end Invocation

end WordLang
