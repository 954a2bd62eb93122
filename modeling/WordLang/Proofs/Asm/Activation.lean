import WordLang.Proofs.Asm.Stack
import WordLang.Proofs.Semantics.Graph

/-!
# A routine on the stack

While a routine runs, its registers live on the stack. From the top down there are: the address to
return to, the caller's base, a slot for each register, and then the words that calls push. An
*activation* says where that is; a core *holds* a state of the graph when each slot has what the
register has, and the memory is the same everywhere else.

A slot keeps what it has as long as nobody else writes there. So what happens through addresses must
not touch the stack of the activation, and a call must not touch the part that is the routine's own.

Addresses are words and wrap around, so distances on the stack are taken modulo the size of the
address space. That two slots are different words is then a matter of the stack being no larger than
the address space, which an activation has as a field.

The lemmas come in pairs. `Keeps` is what holds at any time, also while arguments are pushed;
`Holds` says besides that the stack pointer is right below the slots, as it is between instructions.
Each says what may change without harm: machine registers, flags, words that belong to nobody, and
one slot at a time.
-/

namespace WordLang

/-- What a register holds. -/
def Graph.State.register (state : Graph.State) : Register → Word
  | .temp t => state.temps t
  | .addr a => state.addrs a

/-- Writes a register. -/
def Graph.State.setRegister (state : Graph.State) (register : Register) (value : Word) :
    Graph.State :=
  match register with
  | .temp t => state.setTemp t value
  | .addr a => state.setAddr a value

/-- A register that was written has what was written, and the others have what they had. -/
theorem Graph.State.register_setRegister (state : Graph.State) (register other : Register)
    (value : Word) : (state.setRegister register value).register other =
      if other = register then value else state.register other := by
  cases register <;> cases other <;> simp [setRegister, setTemp, setAddr, Graph.State.register,
    Function.update_apply]

/-- Writing a register does not touch the memory of the graph. -/
theorem Graph.State.outside_setRegister (state : Graph.State) (register : Register) (value : Word) :
    (state.setRegister register value).outside = state.outside := by
  cases register <;> rfl

namespace Asm

/-- An event of the machine is that of the graph: the arguments of a call are the first ones of
those that the function may look at. -/
inductive Event.Shows : WordLang.Event → Event → Prop
  | load (address value : Word) : Shows (.load address value) (.load address value)
  | store (address value : Word) : Shows (.store address value) (.store address value)
  | call (name : String) {args : List Word} {seen : Nat → Word}
      (h : ∀ i (hi : i < args.length), seen i = args.get ⟨i, hi⟩) :
      Shows (.call name args) (.call name seen)

/-- The part of the stack that is a routine's. -/
structure Extent where
  /-- the address of the topmost word -/
  top : Word
  /-- the number of slots -/
  slots : Nat
  /-- the number of all words, with those that calls push -/
  reach : Nat

namespace Extent

/-- The word at an address is no part of the stack. -/
def Avoids (extent : Extent) (address : Word) : Prop :=
  ∀ place : Word, (place - address).toNat < wordSize → extent.reach ≤ depth extent.top place

/-- What the newest event of the graph must be like: an address is not one of the stack; a call
comes to the same for both, whenever the machine shows the arguments, and leaves the routine's own
words alone. -/
def Honours (extent : Extent) (world : World) (host : Host) : List WordLang.Event → Prop
  | [] => True
  | .load address _ :: _ => extent.Avoids address
  | .store address _ :: _ => extent.Avoids address
  | .call name args :: before =>
    let answer := world.answer (.call name args :: before)
    (∀ events, List.Forall₂ Event.Shows (.call name args :: before) events →
      host.answer events = answer) ∧
    ∀ place, depth extent.top place < extent.slots + 2 → answer.bytes place = none

end Extent

/-- The stack of a routine that was called. -/
structure Activation extends Extent where
  /-- where the routine returns to -/
  link : Word
  /-- the base of its caller -/
  caller : Word
  registers : List Register
  registers_le : registers.length ≤ slots
  slots_lt : slots + 2 < reach
  reach_le : reach ≤ maxWords

namespace Activation

variable {act : Activation}

/-- The depth of a register's slot. -/
def slot (act : Activation) (register : Register) : Nat :=
  act.registers.idxOf register + 2

/-- The slot of a register is inside of the frame. -/
theorem slot_lt {register : Register} (h : register ∈ act.registers) :
    act.slot register < act.slots + 2 :=
  Nat.add_lt_add_right (Nat.lt_of_lt_of_le (List.idxOf_lt_length_of_mem h) act.registers_le) 2

/-- Different registers have different slots. -/
theorem slot_inj {register other : Register} (h : register ∈ act.registers) :
    act.slot register = act.slot other ↔ register = other := by
  refine ⟨fun heq => ?_, fun heq => heq ▸ rfl⟩
  exact (List.idxOf_inj h).mp (Nat.add_right_cancel heq)

/-- A core has in its slots what a state of the graph has in its registers. -/
structure Keeps (act : Activation) (state : Graph.State) (core : Core) : Prop where
  base : core.base = below act.top 1
  link : core.memory.read act.top = act.link
  caller : core.memory.read (below act.top 1) = act.caller
  register : ∀ register ∈ act.registers,
    core.memory.read (below act.top (act.slot register)) = state.register register
  outside : ∀ place, act.reach ≤ depth act.top place →
    core.memory place = state.outside.memory place
  trace : List.Forall₂ Event.Shows state.outside.trace core.trace

/-- Besides, nothing is on the stack below the slots. -/
structure Holds (act : Activation) (state : Graph.State) (core : Core) : Prop extends
  act.Keeps state core where
  stack : core.regs .rsp = below act.top (act.slots + 1)

variable {state : Graph.State} {core core' : Core}

namespace Keeps

/-- The registers of the machine do not matter, nor do the flags. -/
theorem congr (h : act.Keeps state core) (hbase : core'.base = core.base)
    (hmemory : core'.memory = core.memory) (htrace : core'.trace = core.trace) :
    act.Keeps state core' := by
  obtain ⟨base, link, caller, register, outside, trace⟩ := h
  refine ⟨hbase.trans base, ?_, ?_, ?_, ?_, ?_⟩
  all_goals first | rw [hmemory] | rw [htrace]
  all_goals assumption

/-- Where the graph goes on does not show on the stack. -/
theorem goto (h : act.Keeps state core) (pc : Option InstId) : act.Keeps (state.goto pc) core := by
  obtain ⟨base, link, caller, register, outside, trace⟩ := h
  refine ⟨base, link, caller, fun reg hmem => ?_, outside, trace⟩
  rw [register reg hmem]
  cases reg <;> rfl

/-- The address of a slot, from the base. -/
theorem below_base (h : act.Keeps state core) (register : Register) :
    below core.base (act.registers.idxOf register + 1) = below act.top (act.slot register) := by
  rw [h.base, below_below, slot, Nat.add_comm 1]

/-- The slot of a register has the word of the register. -/
theorem read_slot (h : act.Keeps state core) {register : Register}
    (hmem : register ∈ act.registers) :
    core.memory.read (below core.base (act.registers.idxOf register + 1)) =
      state.register register := by
  rw [h.below_base, h.register register hmem]

/-- The routine's own words stay, and what is outside may change. -/
theorem setOutside (h : act.Keeps state core) {outside : Outside} (hbase : core'.base = core.base)
    (hown : ∀ place, depth act.top place < act.slots + 2 → core'.memory place = core.memory place)
    (hother : ∀ place, act.reach ≤ depth act.top place → core'.memory place = outside.memory place)
    (htrace : List.Forall₂ Event.Shows outside.trace core'.trace) :
    act.Keeps (state.setOutside outside) core' := by
  have hreach := act.slots_lt
  have hmax := act.reach_le
  have hread : ∀ k, k < act.slots + 2 →
      core'.memory.read (below act.top k) = core.memory.read (below act.top k) := by
    intro k hk
    apply read_below_congr (by omega)
    intro place hplace
    exact hown place (by omega)
  refine ⟨hbase.trans h.base, ?_, ?_, ?_, hother, htrace⟩
  · have hzero := hread 0 (by omega)
    rw [below_zero] at hzero
    exact hzero.trans h.link
  · exact (hread 1 (by omega)).trans h.caller
  · intro register hmem
    rw [hread _ (slot_lt hmem), h.register register hmem]
    cases register <;> rfl

/-- A word below the slots may change. -/
theorem write_below (h : act.Keeps state core) {k : Nat} {value : Word} (hlt : act.slots + 1 < k)
    (hk : k < act.reach) (hbase : core'.base = core.base)
    (hmemory : core'.memory = core.memory.write (below act.top k) value)
    (htrace : core'.trace = core.trace) : act.Keeps state core' := by
  have hmax := act.reach_le
  have hword : ∀ place, depth act.top place ≠ k → core'.memory place = core.memory place := by
    intro place hplace
    rw [hmemory]
    exact write_of_depth_ne (by omega) hplace
  have hkeeps : act.Keeps (state.setOutside state.outside) core' := by
    refine h.setOutside hbase (fun place hplace => hword place (by omega)) ?_ ?_
    · intro place hplace
      rw [hword place (by omega)]
      exact h.outside place hplace
    · rw [htrace]
      exact h.trace
  exact hkeeps

/-- Writing a slot is writing the register. -/
theorem setRegister (h : act.Keeps state core) {register : Register}
    (hmem : register ∈ act.registers) {value : Word} (hbase : core'.base = core.base)
    (hmemory : core'.memory =
      core.memory.write (below core.base (act.registers.idxOf register + 1)) value)
    (htrace : core'.trace = core.trace) :
    act.Keeps (state.setRegister register value) core' := by
  rw [h.below_base] at hmemory
  have hlt := slot_lt hmem
  have hreach := act.slots_lt
  have hmax := act.reach_le
  have hslot : act.slot register < maxWords := by omega
  have hread : ∀ k, k < act.slots + 2 → k ≠ act.slot register →
      core'.memory.read (below act.top k) = core.memory.read (below act.top k) := by
    intro k hk hne
    rw [hmemory]
    exact read_below_write (by omega) hslot hne
  have htwo : 2 ≤ act.slot register := Nat.le_add_left 2 _
  refine ⟨hbase.trans h.base, ?_, ?_, ?_, ?_, ?_⟩
  · have hzero := hread 0 (by omega) (by omega)
    rw [below_zero] at hzero
    exact hzero.trans h.link
  · exact (hread 1 (by omega) (by omega)).trans h.caller
  · intro other hother
    rw [Graph.State.register_setRegister]
    split
    · next heq => rw [heq, hmemory, Memory.read_write]
    · next hne =>
      have hne' : act.slot other ≠ act.slot register := fun heq => hne ((slot_inj hother).mp heq)
      exact (hread _ (slot_lt hother) hne').trans (h.register other hother)
  · intro place hplace
    rw [hmemory, write_of_depth_ne hslot (by omega), Graph.State.outside_setRegister]
    exact h.outside place hplace
  · rw [htrace, Graph.State.outside_setRegister]
    exact h.trace

/-- Away from the stack the memory is the same. -/
theorem read_of_avoids (h : act.Keeps state core) {address : Word} (haway : act.Avoids address) :
    core.memory.read address = state.outside.memory.read address := by
  apply Memory.read_congr
  intro place hplace
  exact h.outside place (haway place hplace)

/-- A load from elsewhere changes nothing, and is noted on both sides. -/
theorem load (h : act.Keeps state core) {address : Word} (haway : act.Avoids address) :
    act.Keeps (state.setOutside (state.outside.load address).2)
      (core.note (.load address (core.memory.read address))) := by
  refine h.setOutside rfl (fun place _ => rfl) h.outside (List.Forall₂.cons ?_ h.trace)
  rw [h.read_of_avoids haway]
  exact .load _ _

/-- A store elsewhere changes the same word of both memories. -/
theorem store (h : act.Keeps state core) {address : Word} (haway : act.Avoids address)
    (value : Word) :
    act.Keeps (state.setOutside (state.outside.store address value))
      ((core.write address value).note (.store address value)) := by
  have hreach := act.slots_lt
  refine h.setOutside rfl ?_ ?_ (List.Forall₂.cons (.store _ _) h.trace)
  · intro place hplace
    apply Memory.write_of_le
    by_contra hlt
    have hdeep := haway place (Nat.lt_of_not_le hlt)
    omega
  · intro place hplace
    change Memory.write _ _ _ place = Memory.write _ _ _ place
    simp only [Memory.write]
    rw [h.outside place hplace]

end Keeps

namespace Holds

/-- What is held depends on the base, the memory, the events and the stack pointer. -/
theorem congr (h : act.Holds state core) (hbase : core'.base = core.base)
    (hmemory : core'.memory = core.memory) (htrace : core'.trace = core.trace)
    (hstack : core'.regs .rsp = core.regs .rsp) : act.Holds state core' :=
  ⟨h.toKeeps.congr hbase hmemory htrace, hstack.trans h.stack⟩

/-- Where the graph goes on does not show on the stack. -/
theorem goto (h : act.Holds state core) (pc : Option InstId) : act.Holds (state.goto pc) core :=
  ⟨h.toKeeps.goto pc, h.stack⟩

/-- Any register of the machine but `%rsp` may change. -/
theorem setReg (h : act.Holds state core) {reg : Reg} (hreg : reg ≠ .rsp) (value : Word) :
    act.Holds state (core.setReg reg value) :=
  h.congr rfl rfl rfl (Function.update_of_ne hreg.symm _ _)

/-- Flags do not matter. -/
theorem setFlags (h : act.Holds state core) (flags : Option Flags) :
    act.Holds state (core.setFlags flags) :=
  h.congr rfl rfl rfl rfl

/-- Writing a slot is writing the register. -/
theorem setRegister (h : act.Holds state core) {register : Register}
    (hmem : register ∈ act.registers) {value : Word} (hbase : core'.base = core.base)
    (hmemory : core'.memory =
      core.memory.write (below core.base (act.registers.idxOf register + 1)) value)
    (htrace : core'.trace = core.trace) (hstack : core'.regs .rsp = core.regs .rsp) :
    act.Holds (state.setRegister register value) core' :=
  ⟨h.toKeeps.setRegister hmem hbase hmemory htrace, hstack.trans h.stack⟩

end Holds

end Activation

end Asm

end WordLang
