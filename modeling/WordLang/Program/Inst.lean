import WordLang.Operation
import WordLang.Symbol
import WordLang.Text

/-!
# Instructions

The instructions of a routine's graph. They work on virtual registers of two kinds: a `Temp` holds
a value, an `Addr` holds a memory address. Each instruction names its successors itself, by their
handles:

* the edge `next` leads on, or to where a jump goes when its condition is false;
* the edge `onTrue` is for jumps alone.
-/

namespace WordLang

/-- A virtual register that holds a value. -/
structure Temp where
  index : Nat
deriving DecidableEq

/-- A virtual register that holds an address. -/
structure Addr where
  index : Nat
deriving DecidableEq

/-- The handle of an instruction: its place in the routine's arena. -/
abbrev InstId := Nat

/-- The handle of a constant: its place in the program's pool. -/
abbrev ConstId := Nat

/-- The text of a value register. -/
def Temp.text (temp : Temp) : String :=
  "%t" ++ toString temp.index

/-- The text of an address register. -/
def Addr.text (addr : Addr) : String :=
  "%a" ++ toString addr.index

/-- The text of an instruction's handle. -/
def InstId.text (id : InstId) : String :=
  "i" ++ toString id

/-- A virtual register of either kind. -/
inductive Register where
  | temp (t : Temp)
  | addr (a : Addr)
deriving DecidableEq

/-- The text of a register. -/
def Register.text : Register → String
  | .temp t => t.text
  | .addr a => a.text

/-- Something an instruction reads. -/
inductive Operand where
  | temp (t : Temp)
  | addr (a : Addr)
  | const (id : ConstId)
deriving DecidableEq

/-- The text of an operand. -/
def Operand.text : Operand → String
  | .temp t => t.text
  | .addr a => a.text
  | .const id => "c" ++ toString id

/-- What an instruction does. -/
inductive InstKind where
  /-- the address of `base`, or of its element at `offset` -/
  | addressAt (dst : Addr) (base : Symbol) (offset : Option Temp)
  | arith (op : Arith) (dst left right : Temp)
  | compare (op : Comparison) (dst left right : Temp)
  | copy (dst : Temp) (src : Operand)
  | load (dst : Temp) (src : Addr)
  | store (src : Temp) (dst : Addr)
  | call (dst : Option Temp) (callee : Symbol) (args : List Temp)
  | ret (value : Option Temp)
  /-- a branch on a truth value -/
  | jump (cond : Temp)
  | not (dst operand : Temp)
  | nop
deriving DecidableEq

/-- The word for an arithmetic operation in a listing. -/
def Arith.mnemonic : Arith → String
  | .add => "add"
  | .sub => "sub"
  | .mul => "mul"
  | .div => "div"

namespace InstKind

/-- The register that an instruction writes. -/
def dst : InstKind → Option Register
  | .addressAt dst _ _ => some (.addr dst)
  | .arith _ dst _ _ => some (.temp dst)
  | .compare _ dst _ _ => some (.temp dst)
  | .copy dst _ => some (.temp dst)
  | .load dst _ => some (.temp dst)
  | .call dst _ _ => dst.map .temp
  | .not dst _ => some (.temp dst)
  | _ => none

/-- What an instruction reads. A store reads the register of its address too. -/
def operands : InstKind → List Operand
  | .addressAt _ _ offset => offset.toList.map .temp
  | .arith _ _ left right => [.temp left, .temp right]
  | .compare _ _ left right => [.temp left, .temp right]
  | .copy _ src => [src]
  | .load _ src => [.addr src]
  | .store src dst => [.temp src, .addr dst]
  | .call _ _ args => args.map .temp
  | .ret value => value.toList.map .temp
  | .jump cond => [.temp cond]
  | .not _ operand => [.temp operand]
  | .nop => []

/-- Whether an instruction is a jump. -/
def isJump : InstKind → Bool
  | .jump _ => true
  | _ => false

/-- Whether an instruction is a return. -/
def isReturn : InstKind → Bool
  | .ret _ => true
  | _ => false

/-- The line that lists an instruction, without its handle and its successors. -/
def text : InstKind → String
  | .addressAt dst base none => dst.text ++ " = addressAt " ++ base.name
  | .addressAt dst base (some offset) =>
    dst.text ++ " = addressAt " ++ base.name ++ ", " ++ offset.text
  | .arith op dst left right =>
    dst.text ++ " = " ++ op.mnemonic ++ " " ++ left.text ++ ", " ++ right.text
  | .compare op dst left right =>
    dst.text ++ " = cmp " ++ op.name ++ " " ++ left.text ++ ", " ++ right.text
  | .copy dst src => dst.text ++ " = " ++ src.text
  | .load dst src => dst.text ++ " = load " ++ src.text
  | .store src dst => "store " ++ src.text ++ ", " ++ dst.text
  | .call dst callee args =>
    (dst.map fun dst => dst.text ++ " = ").getD "" ++ "call " ++ callee.name ++
      Text.bracketed (args.map Temp.text)
  | .ret none => "return"
  | .ret (some value) => "return " ++ value.text
  | .jump cond => "jump " ++ cond.text
  | .not dst operand => dst.text ++ " = not " ++ operand.text
  | .nop => "nop"

end InstKind

/-- The two ways on from an instruction. -/
inductive Edge where
  | next
  | onTrue
deriving DecidableEq

/-- An instruction with its successors. -/
structure Inst where
  kind : InstKind
  next : Option InstId := none
  onTrue : Option InstId := none
deriving DecidableEq

namespace Inst

/-- The successor along an edge. -/
def target (inst : Inst) : Edge → Option InstId
  | .next => inst.next
  | .onTrue => inst.onTrue

/-- Sets the successor along an edge. -/
def link (inst : Inst) (id : InstId) : Edge → Inst
  | .next => { inst with next := some id }
  | .onTrue => { inst with onTrue := some id }

/-- The successors, `next` first. -/
def successors (inst : Inst) : List InstId :=
  inst.next.toList ++ inst.onTrue.toList

@[simp]
theorem kind_link (inst : Inst) (id : InstId) (edge : Edge) :
    (inst.link id edge).kind = inst.kind := by
  cases edge <;> rfl

@[simp]
theorem target_link_self (inst : Inst) (id : InstId) (edge : Edge) :
    (inst.link id edge).target edge = some id := by
  cases edge <;> rfl

theorem target_link_of_ne (inst : Inst) (id : InstId) {edge other : Edge} (h : other ≠ edge) :
    (inst.link id edge).target other = inst.target other := by
  cases edge <;> cases other <;> first | rfl | exact absurd rfl h

end Inst

end WordLang
