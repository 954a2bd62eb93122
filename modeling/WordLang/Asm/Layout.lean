import WordLang.Asm.Basic
import WordLang.Program.Traversal

/-!
# Layout of a routine

What has to be known before a routine is written: the order of its instructions, which of them need
a label, and which stack slot each register lives in.

* A step is an instruction together with the one written right after it. Control falls through from
  the first to the second without a branch.
* An instruction needs a label if some step branches to it: every false side of a jump, and every
  successor that control does not fall through to.
* Labels are numbered in the order in which they are first needed; slots in the order in which
  registers are first used. The numbering of instructions and registers plays no part.
-/

namespace WordLang

/-- The registers of an instruction, in the order in which its assembly mentions them: a call loads
the arguments that go in machine registers and then pushes the others, the last one first. -/
def InstKind.uses : InstKind → List Register
  | .addressAt dst _ offset => offset.toList.map .temp ++ [.addr dst]
  | .arith _ dst left right => [.temp left, .temp right, .temp dst]
  | .compare _ dst left right => [.temp left, .temp right, .temp dst]
  | .copy dst (.temp src) => [.temp src, .temp dst]
  | .copy dst (.addr src) => [.addr src, .temp dst]
  | .copy dst (.const _) => [.temp dst]
  | .load dst src => [.addr src, .temp dst]
  | .store src dst => [.addr dst, .temp src]
  | .call dst _ args =>
    (args.take Asm.argRegs.length).map .temp ++ (args.drop Asm.argRegs.length).reverse.map .temp ++
      dst.toList.map .temp
  | .ret value => value.toList.map .temp
  | .jump cond => [.temp cond]
  | .not dst operand => [.temp operand, .temp dst]
  | .nop => []

/-- The successors of an instruction that are branched to when `following` comes right after it. -/
def Inst.branchTargets (inst : Inst) (following : Option InstId) : List InstId :=
  (inst.next.toList.filter fun id => inst.kind.isJump || following ≠ some id) ++
    inst.onTrue.toList.filter fun id => following ≠ some id

/-- Each member of a list together with the one after it. -/
def withFollowing {α : Type} : List α → List (α × Option α)
  | [] => []
  | a :: rest => (a, rest.head?) :: withFollowing rest

namespace Routine

/-- An instruction of the schedule: its handle, itself, and the handle written after it. -/
structure Step where
  id : InstId
  inst : Inst
  following : Option InstId

/-- The steps of a routine up to a handle from outside the arena, and that handle. -/
def stepsOf (routine : Routine) : List (InstId × Option InstId) → List Step × Option InstId
  | [] => ([], none)
  | (id, following) :: rest =>
    match routine.insts[id]? with
    | none => ([], some id)
    | some inst =>
      let (steps, stray) := routine.stepsOf rest
      ({ id, inst, following } :: steps, stray)

/-- The steps of a routine in the order of its schedule. -/
def steps (routine : Routine) : List Step :=
  (routine.stepsOf (withFollowing routine.schedule)).1

/-- The first handle of the schedule that is outside the arena. -/
def stray? (routine : Routine) : Option InstId :=
  (routine.stepsOf (withFollowing routine.schedule)).2

/-- The instructions that need a label, in the order of their numbers. -/
def labelled (routine : Routine) : List InstId :=
  firstUses (routine.steps.flatMap fun step => step.inst.branchTargets step.following)

/-- The registers of a routine, in the order of their slots. -/
def frame (routine : Routine) : List Register :=
  firstUses (routine.args.map .temp ++ routine.steps.flatMap fun step => step.inst.kind.uses)

/-- The words of stack that a routine reserves: one for each register, and an even number. -/
def frameWords (routine : Routine) : Nat :=
  let registers := routine.temps + routine.addrs
  registers + registers % 2

end Routine

@[simp]
theorem map_fst_withFollowing {α : Type} (items : List α) :
    (withFollowing items).map Prod.fst = items := by
  induction items with
  | nil => rfl
  | cons a rest ih => simp [withFollowing, ih]

theorem Routine.even_frameWords (routine : Routine) : routine.frameWords % 2 = 0 := by
  simp only [Routine.frameWords]
  omega

end WordLang
