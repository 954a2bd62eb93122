import WordLang.Compiler
import WordLang.Program.Listing
import WordLang.Tree.Parser

/-!
# The command line

What the program does, apart from touching files. An `Invocation` says what was asked for. Given
the text of the source, or the reason why it cannot be read, its `plan` is either an outcome right
away, or a file to write first. A `run` carries it out on a `System`, which is all that it knows of
files. How the file comes about line by line is left to `WordLang.Streaming`.

The messages name what was being done and to which file, and end with the reason that the system,
the symbol table or the type checker gives. One of them has no reason to give: `Tree.parse?` answers
with a tree or with nothing, so `Outcome.malformed` is the same for every text that is no tree.

| code | meaning |
|---|---|
| 0 | done |
| 1 | the source has problems, one on each line of the error output |
| 2 | the source cannot be read or is no tree, the output cannot be written, or an internal error |
| 101 | the sizes of the globals do not fit in machine words |
-/

namespace WordLang

/-- What was asked for on the command line. -/
structure Invocation where
  /-- the file with the tree -/
  source : String
  /-- the file for the assembly -/
  output : String := "a.s"
  /-- print the lowered program and write no file -/
  listProgram : Bool := false
deriving DecidableEq

/-- What has been read of the command line so far. -/
structure Arguments where
  source : Option String := none
  output : Option String := none
  listProgram : Bool := false

namespace Arguments

/-- The file that is to be compiled, once. -/
def withSource (args : Arguments) (path : String) : Option Arguments :=
  if args.source.isSome then none else some { args with source := some path }

/-- The output file, once. -/
def withOutput (args : Arguments) (path : String) : Option Arguments :=
  if args.output.isSome then none else some { args with output := some path }

/-- The flag for listings, once. -/
def withListing (args : Arguments) : Option Arguments :=
  if args.listProgram then none else some { args with listProgram := true }

/-- The value of a short option: what follows `-o`, less a sign of equality. -/
def shortValue : List Char → String
  | '=' :: rest => String.ofList rest
  | rest => String.ofList rest

/-- The value of an argument `--output=FILE`. -/
def longValue? (arg : String) : Option String :=
  let lead := "--output=".toList
  if lead.isPrefixOf arg.toList then some (String.ofList (arg.toList.drop lead.length)) else none

/-- Reads the arguments. After `--` everything is a file. -/
def read (args : Arguments) : List String → Option Arguments
  | [] => some args
  | "--" :: paths => paths.foldlM withSource args
  | "--emit-ir" :: rest => do (← args.withListing).read rest
  | "--output" :: path :: rest => do (← args.withOutput path).read rest
  | "-o" :: path :: rest => do (← args.withOutput path).read rest
  | arg :: rest =>
    match longValue? arg, arg.toList with
    | some path, _ => do (← args.withOutput path).read rest
    | none, '-' :: 'o' :: value =>
      if value.isEmpty then none else do (← args.withOutput (shortValue value)).read rest
    | none, '-' :: _ :: _ => none
    | none, _ => do (← args.withSource arg).read rest

end Arguments

/-- The invocation that the arguments ask for. -/
def Invocation.ofArgs? (args : List String) : Option Invocation := do
  let read ← ({} : Arguments).read args
  let source ← read.source
  some { source, output := read.output.getD "a.s", listProgram := read.listProgram }

/-- How a run ends. -/
structure Outcome where
  code : Nat := 0
  stdout : String := ""
  stderr : String := ""
deriving DecidableEq

/-- What to do: end, or write a file and then end. -/
inductive Plan where
  | finish (outcome : Outcome)
  | write (path : String) (content : String) (outcome : Outcome)

namespace Outcome

/-- A run that ends with an error. -/
def failure (message : String) : Outcome :=
  { code := 2, stderr := "error: " ++ message ++ "\n" }

/-- The source cannot be read. -/
def unreadable (path reason : String) : Outcome :=
  failure ("cannot read " ++ path ++ ": " ++ reason)

/-- The output cannot be written. -/
def unwritable (path reason : String) : Outcome :=
  failure ("cannot write " ++ path ++ ": " ++ reason)

/-- The source is no tree. The beginning of the message, up to the colon, is what a caller can rely
on. What follows is a fixed text that stands in the place of a reason: the reader of trees does not
say what it expected or on which line it stopped, so the message does not depend on the source. -/
def malformed : Outcome :=
  failure "malformed syntax tree: not a program in the expected form"

/-- The source has no program. -/
def uncompiled : CompileError → Outcome
  | .diagnostics found => { code := 1, stderr := Text.ofLines (found.map Diagnostic.text) }
  | error => failure error.message

/-- The assembly has been made, as far as possible. -/
def emitted (halt : Option Asm.Halt) : Outcome :=
  match halt with
  | none => {}
  | some (.error error) => failure error.message
  | some (.oversized name) => { code := 101, stderr := "global " ++ name ++ " is too large\n" }
  | some (.stray routine id) =>
    { code := 101, stderr := "no instruction " ++ InstId.text id ++ " in " ++ routine ++ "\n" }

end Outcome

namespace Invocation

/-- What to do with a program: print it, or write its assembly. -/
def planProgram (invocation : Invocation) (program : Program) : Plan :=
  if invocation.listProgram then .finish { stdout := program.text }
  else
    let emission := Asm.emit program 0 .unlimited
    .write invocation.output (Text.ofLines emission.lines) (.emitted emission.halt)

/-- What to do with a tree. -/
def planTree (invocation : Invocation) (tree : Tree) : Plan :=
  match (tree.check 0).program with
  | .error error => .finish (.uncompiled error)
  | .ok program => invocation.planProgram program

/-- What to do, given the text of the source or the reason why it cannot be read. -/
def plan (invocation : Invocation) : Except String String → Plan
  | .error reason => .finish (.unreadable invocation.source reason)
  | .ok text =>
    match Tree.parse? text with
    | none => .finish .malformed
    | some tree => invocation.planTree tree

end Invocation

/-! ## Runs -/

/-- What a run asks of the system that it runs on: the text of a file, and to write a text to a
file. Either can fail for a reason. -/
structure System (m : Type → Type) where
  read : String → m (Except String String)
  write : String → String → m (Except String Unit)

/-- Carries out a plan. -/
def Plan.run {m : Type → Type} [Monad m] (system : System m) : Plan → m Outcome
  | .finish outcome => return outcome
  | .write path content outcome => do
    match ← system.write path content with
    | .ok _ => return outcome
    | .error reason => return .unwritable path reason

/-- Reads the source and does what was asked for. -/
def Invocation.run {m : Type → Type} [Monad m] (system : System m) (invocation : Invocation) :
    m Outcome := do
  (invocation.plan (← system.read invocation.source)).run system

end WordLang
