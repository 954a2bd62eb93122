import WordLang.Program.Traversal

/-!
# Validity of programs

What a program has to satisfy before assembly is made from it. Only what can be reached counts. The
first violation met is the answer: routines in order; in a routine its start, its arguments, then
its instructions breadth first; in an instruction its edges, its registers, its constant and its
argument count.
-/

namespace WordLang

/-- Where a violation is: in a routine, or at one of its instructions. -/
structure Site where
  routine : String
  inst : Option InstId := none
deriving DecidableEq

/-- The text of a site. -/
def Site.text (site : Site) : String :=
  "function " ++ site.routine ++ (site.inst.map fun id => ", " ++ InstId.text id).getD ""

/-- What is wrong with a program. -/
inductive Violation where
  | invalidArgument (site : Site)
  | invalidTarget (site : Site)
  | incompleteJump (site : Site)
  | unexpectedBranch (site : Site)
  | returnWithSuccessor (site : Site)
  | invalidRegister (site : Site)
  | invalidConstant (site : Site)
  | arityMismatch (site : Site) (callee : String) (expected found : Nat)
deriving DecidableEq

/-- The wording of a violation. -/
def Violation.message : Violation → String
  | .invalidArgument site => "argument register out of range at " ++ site.text
  | .invalidTarget site => "edge points outside the function at " ++ site.text
  | .incompleteJump site => "jump is missing a successor at " ++ site.text
  | .unexpectedBranch site => "unexpected second successor at " ++ site.text
  | .returnWithSuccessor site => "return has a successor at " ++ site.text
  | .invalidRegister site => "invalid register at " ++ site.text
  | .invalidConstant site => "invalid constant id at " ++ site.text
  | .arityMismatch site callee expected found =>
    "call to " ++ callee ++ " passes " ++ toString found ++ " argument(s), expected " ++
      toString expected ++ " at " ++ site.text

/-- Whether a register is one of the routine's. -/
def Routine.owns (routine : Routine) : Register → Bool
  | .temp t => t.index < routine.temps
  | .addr a => a.index < routine.addrs

/-- The register of an operand that is one. -/
def Operand.register? : Operand → Option Register
  | .temp t => some (.temp t)
  | .addr a => some (.addr a)
  | .const _ => none

/-- The registers that an instruction writes or reads. -/
def InstKind.registers (kind : InstKind) : List Register :=
  kind.dst.toList ++ kind.operands.filterMap Operand.register?

namespace Inst

/-- Edges stay in the arena. -/
def targetViolation? (routine : Routine) (site : Site) (inst : Inst) : Option Violation :=
  if inst.successors.all routine.holds then none else some (.invalidTarget site)

/-- A jump has two successors, a return none, and everything else at most one. -/
def shapeViolation? (site : Site) (inst : Inst) : Option Violation :=
  match inst.kind with
  | .jump _ => if inst.successors.length = 2 then none else some (.incompleteJump site)
  | .ret _ => if inst.successors.isEmpty then none else some (.returnWithSuccessor site)
  | _ => if inst.onTrue.isNone then none else some (.unexpectedBranch site)

/-- Registers are the routine's own. -/
def registerViolation? (routine : Routine) (site : Site) (inst : Inst) : Option Violation :=
  if inst.kind.registers.all routine.owns then none else some (.invalidRegister site)

/-- A constant is in the pool. -/
def constantViolation? (constants : List Constant) (site : Site) (inst : Inst) : Option Violation :=
  match inst.kind with
  | .copy _ (.const id) => if id < constants.length then none else some (.invalidConstant site)
  | _ => none

/-- A call passes as many arguments as the callee's type has parameters, if it has one. -/
def arityViolation? (site : Site) (inst : Inst) : Option Violation :=
  match inst.kind with
  | .call _ callee args =>
    match callee.ty with
    | some (.func params _) =>
      if params.length = args.length then none
      else some (.arityMismatch site callee.name params.length args.length)
    | _ => none
  | _ => none

/-- The first violation of an instruction. -/
def violation? (constants : List Constant) (routine : Routine) (site : Site) (inst : Inst) :
    Option Violation :=
  inst.targetViolation? routine site <|> inst.shapeViolation? site <|>
    inst.registerViolation? routine site <|> inst.constantViolation? constants site <|>
      inst.arityViolation? site

end Inst

/-- The first violation of the instruction with the given handle. -/
def Routine.instViolation? (constants : List Constant) (routine : Routine) (id : InstId) :
    Option Violation :=
  routine.insts[id]?.bind fun inst =>
    inst.violation? constants routine { routine := routine.name, inst := some id }

/-- The first violation of a routine. -/
def Routine.violation? (constants : List Constant) (routine : Routine) : Option Violation :=
  if ! routine.holds routine.start then some (.invalidTarget { routine := routine.name })
  else if ! routine.args.all fun arg => routine.owns (.temp arg) then
    some (.invalidArgument { routine := routine.name })
  else routine.reachable.findSome? (routine.instViolation? constants)

/-- The first violation of a program. -/
def Program.violation? (program : Program) : Option Violation :=
  program.routines.findSome? (Routine.violation? program.constants)

end WordLang
