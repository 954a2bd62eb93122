import WordLang.Operation
import WordLang.Program.Basic

/-!
# Words, memory, and the world outside

What the meaning of trees, of graphs and of assembly has in common. Values are 64-bit words,
whatever their type. Arithmetic wraps around; a division truncates, and traps where the quotient is
no word.

Globals live in a memory of bytes, at addresses that the world chooses. What a program does to it,
and which functions it calls with which arguments, is on record as a list of events, the newest
first. The functions it calls are part of the world: what a call gives back, and which bytes it
overwrites, depends on everything that happened before.
-/

namespace WordLang

/-- A machine word. -/
abbrev Word := BitVec 64

/-- A byte of memory. -/
abbrev Byte := BitVec 8

/-! ## Operations

The same operations are used by the evaluator of trees and by the machine that goes through graphs.
Only a division can fail. -/

/-- Whether dividing by a word traps: by zero, and where the quotient is one too large. -/
def divisionTraps (left right : Word) : Bool :=
  right == 0 || (left == .intMin 64 && right == -1)

/-- The result of an arithmetic operation, if it has one. -/
def Arith.apply (op : Arith) (left right : Word) : Option Word :=
  match op with
  | .add => some (left + right)
  | .sub => some (left - right)
  | .mul => some (left * right)
  | .div => if divisionTraps left right then none else some (left.sdiv right)

/-- Whether a comparison of signed words holds. -/
def Comparison.holds (op : Comparison) (left right : Word) : Bool :=
  match op with
  | .ge => right.sle left
  | .gt => right.slt left
  | .le => left.sle right
  | .lt => left.slt right
  | .eq => left == right
  | .ne => left != right

/-- The word for a truth value. -/
def truth (holds : Bool) : Word :=
  if holds then 1 else 0

/-- Negation flips the lowest bit. -/
def flip (word : Word) : Word :=
  word ^^^ 1

/-- The word for a constant. -/
def Constant.value (constant : Constant) : Word :=
  constant.word.toBitVec

/-! ## Memory -/

/-- The bytes of memory, by their addresses. -/
abbrev Memory := Word → Byte

namespace Memory

/-- The word at an address: eight bytes, the lowest first. -/
def read (memory : Memory) (address : Word) : Word :=
  memory (address + 7) ++ memory (address + 6) ++ memory (address + 5) ++ memory (address + 4) ++
    memory (address + 3) ++ memory (address + 2) ++ memory (address + 1) ++ memory address

/-- Puts a word at an address. -/
def write (memory : Memory) (address value : Word) : Memory := fun place =>
  let offset := (place - address).toNat
  if offset < 8 then value.extractLsb' (8 * offset) 8 else memory place

/-- Replaces the bytes that are given. -/
def overwrite (memory : Memory) (bytes : Word → Option Byte) : Memory := fun place =>
  (bytes place).getD (memory place)

end Memory

/-! ## The world

What is not part of a program but has a say in what it does: the places of the globals and the
functions that it calls. Statements about programs are made for every world. -/

/-- Something that a program does outside of its registers. -/
inductive Event where
  | load (address value : Word)
  | store (address value : Word)
  | call (name : String) (args : List Word)
deriving DecidableEq

/-- What a call comes to: its result, and the bytes that it overwrites. A function that returns
nothing has a result as well, which is not looked at. -/
structure Answer where
  result : Word
  bytes : Word → Option Byte

/-- Where the globals are, and what calls come to, given all events up to the call itself. -/
structure World where
  place : String → Word
  answer : List Event → Answer

/-- The address of a global, or of one of its elements. -/
def World.address (world : World) (name : String) (index : Option Word) : Word :=
  match index with
  | none => world.place name
  | some index => world.place name + index * 8

/-- The memory, and what happened so far, the newest event first. It is handed on through a run, and
what is in it at the end is part of the result. -/
structure Outside where
  memory : Memory
  trace : List Event

namespace Outside

/-- Loads a word. -/
def load (outside : Outside) (address : Word) : Word × Outside :=
  let value := outside.memory.read address
  (value, { outside with trace := .load address value :: outside.trace })

/-- Stores a word. -/
def store (outside : Outside) (address value : Word) : Outside where
  memory := outside.memory.write address value
  trace := .store address value :: outside.trace

/-- Calls a function. The call is on record before the world is asked, so that the answer can depend
on the call itself and on all that came before. -/
def call (outside : Outside) (world : World) (name : String) (args : List Word) : Word × Outside :=
  let trace := .call name args :: outside.trace
  let answer := world.answer trace
  (answer.result, { memory := outside.memory.overwrite answer.bytes, trace })

end Outside

end WordLang
