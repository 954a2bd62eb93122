import WordLang.Proofs.Semantics.Run
import WordLang.Proofs.Semantics.Source

/-!
# What graphs mean

A machine that goes through a routine's graph one instruction at a time. Its registers hold words,
and hold anything before they are first written. An instruction without a successor ends the run;
only a return has a value.

What is outside of the registers is the memory and the list of events so far. Loads, stores and
calls are events. A call is answered by the world, which also says what it does to the memory; so a
routine is run on its own, and what other routines do is up to the world.

A step can fail in one way that a program can be blamed for: it divides, and the division traps. In
a graph that is not sound it can also come to a handle without an instruction or read a constant
that is not there, and then it is stuck. The lemmas on states say what each operation leaves alone.
-/

namespace WordLang

namespace Graph

/-- Where a run is, and what its registers hold. A run that went past its last instruction is
nowhere. Registers for values and registers for addresses are apart, as they are in the
instructions. -/
structure State where
  pc : Option InstId
  temps : Temp → Word
  addrs : Addr → Word
  outside : Outside

namespace State

/-- Goes on elsewhere. Every instruction but a return does this last. -/
def goto (state : State) (pc : Option InstId) : State :=
  { state with pc }

/-- Writes a value register. -/
def setTemp (state : State) (dst : Temp) (value : Word) : State :=
  { state with temps := Function.update state.temps dst value }

/-- Writes an address register. -/
def setAddr (state : State) (dst : Addr) (address : Word) : State :=
  { state with addrs := Function.update state.addrs dst address }

/-- Writes the register for the result of a call, if there is one. -/
def setResult (state : State) (dst : Option Temp) (value : Word) : State :=
  match dst with
  | some dst => state.setTemp dst value
  | none => state

/-- Replaces everything that is not in a register: the memory and the events. -/
def setOutside (state : State) (outside : Outside) : State :=
  { state with outside }

section

variable (state : State)

/-- Going on elsewhere changes the place and nothing else. -/
@[simp]
theorem pc_goto (pc : Option InstId) : (state.goto pc).pc = pc := rfl

@[simp]
theorem temps_goto (pc : Option InstId) : (state.goto pc).temps = state.temps := rfl

@[simp]
theorem addrs_goto (pc : Option InstId) : (state.goto pc).addrs = state.addrs := rfl

@[simp]
theorem outside_goto (pc : Option InstId) : (state.goto pc).outside = state.outside := rfl

/-- Writing a value register changes that register and nothing else. -/
@[simp]
theorem temps_setTemp (dst : Temp) (value : Word) :
    (state.setTemp dst value).temps = Function.update state.temps dst value := rfl

@[simp]
theorem addrs_setTemp (dst : Temp) (value : Word) :
    (state.setTemp dst value).addrs = state.addrs := rfl

@[simp]
theorem outside_setTemp (dst : Temp) (value : Word) :
    (state.setTemp dst value).outside = state.outside := rfl

/-- Writing an address register changes that register and nothing else. -/
@[simp]
theorem temps_setAddr (dst : Addr) (address : Word) :
    (state.setAddr dst address).temps = state.temps := rfl

@[simp]
theorem addrs_setAddr (dst : Addr) (address : Word) :
    (state.setAddr dst address).addrs = Function.update state.addrs dst address := rfl

@[simp]
theorem outside_setAddr (dst : Addr) (address : Word) :
    (state.setAddr dst address).outside = state.outside := rfl

/-- What happens outside of the registers leaves the registers alone. -/
@[simp]
theorem temps_setOutside (outside : Outside) : (state.setOutside outside).temps = state.temps := rfl

@[simp]
theorem addrs_setOutside (outside : Outside) : (state.setOutside outside).addrs = state.addrs := rfl

@[simp]
theorem outside_setOutside (outside : Outside) :
    (state.setOutside outside).outside = outside := rfl

/-- The register for a result is a register like any other. -/
@[simp]
theorem outside_setResult (dst : Option Temp) (value : Word) :
    (state.setResult dst value).outside = state.outside := by
  cases dst <;> rfl

end

end State

/-- What a run ends with: the value it returns, and everything outside. -/
abbrev Result := Option Word × Outside

/-- The word that an operand stands for, if it is there. Registers always hold a word; only a
constant can be missing from the pool. -/
def State.read? (state : State) (constants : List Constant) : Operand → Option Word
  | .temp t => some (state.temps t)
  | .addr a => some (state.addrs a)
  | .const id => constants[id]?.map Constant.value

end Graph

open WordLang.Graph

/-- What an instruction does. Operands are read before anything is written, so a register may be
read and written by the same instruction. A jump goes on to `next` when its register holds zero. -/
def Inst.step (world : World) (constants : List Constant) (inst : Inst) (state : State) :
    Progress State Result :=
  match inst.kind with
  | .addressAt dst base offset =>
    let address := world.address base.name (offset.map state.temps)
    .next ((state.setAddr dst address).goto inst.next)
  | .arith op dst left right =>
    match op.apply (state.temps left) (state.temps right) with
    | some value => .next ((state.setTemp dst value).goto inst.next)
    | none => .fault
  | .compare op dst left right =>
    let value := truth (op.holds (state.temps left) (state.temps right))
    .next ((state.setTemp dst value).goto inst.next)
  | .copy dst src =>
    match state.read? constants src with
    | some value => .next ((state.setTemp dst value).goto inst.next)
    | none => .stuck
  | .load dst src =>
    let (value, outside) := state.outside.load (state.addrs src)
    .next (((state.setOutside outside).setTemp dst value).goto inst.next)
  | .store src dst =>
    let outside := state.outside.store (state.addrs dst) (state.temps src)
    .next ((state.setOutside outside).goto inst.next)
  | .call dst callee args =>
    let (value, outside) := state.outside.call world callee.name (args.map state.temps)
    .next (((state.setOutside outside).setResult dst value).goto inst.next)
  | .ret value => .done (value.map state.temps, state.outside)
  | .jump cond => .next (state.goto (if state.temps cond = 0 then inst.next else inst.onTrue))
  | .not dst operand => .next ((state.setTemp dst (flip (state.temps operand))).goto inst.next)
  | .nop => .next (state.goto inst.next)

/-- What a routine does next. The end of a run that has nothing to go on with is an end without a
value. -/
def Routine.step (world : World) (constants : List Constant) (routine : Routine) (state : State) :
    Progress State Result :=
  match state.pc with
  | none => .done (none, state.outside)
  | some id =>
    match routine.insts[id]? with
    | some inst => inst.step world constants state
    | none => .stuck

/-- Where a routine starts: its arguments are in their registers, the others hold anything.
Arguments that there is no register for are dropped. -/
def Routine.enter (routine : Routine) (args : List Word) (temps : Temp → Word)
    (addrs : Addr → Word) (outside : Outside) : State where
  pc := some routine.start
  temps := assignAll routine.args args temps
  addrs := addrs
  outside := outside

end WordLang
