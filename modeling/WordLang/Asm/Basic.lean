import WordLang.Operation

/-!
# Assembly

The few forms of x86-64 instruction that are ever written, as data. Everything works on 64-bit
words. `Line.text` is the one place that spells them, in the order source, destination.
-/

namespace WordLang.Asm

/-- The size of a machine word in bytes. -/
def wordSize : Nat := 8

/-- A machine register. -/
inductive Reg where
  | rax
  | rdi
  | rsi
  | rdx
  | rcx
  | r8
  | r9
  | r10
  | r11
  | rsp
deriving DecidableEq

/-- The text of a machine register. -/
def Reg.text : Reg → String
  | .rax => "%rax"
  | .rdi => "%rdi"
  | .rsi => "%rsi"
  | .rdx => "%rdx"
  | .rcx => "%rcx"
  | .r8 => "%r8"
  | .r9 => "%r9"
  | .r10 => "%r10"
  | .r11 => "%r11"
  | .rsp => "%rsp"

/-- The registers that carry the first arguments of a call. -/
def argRegs : List Reg :=
  [.rdi, .rsi, .rdx, .rcx, .r8, .r9]

/-- An operand of an instruction. -/
inductive Operand where
  /-- a number in the instruction itself -/
  | imm (value : Int)
  | reg (reg : Reg)
  /-- the word that stands `index` words below the frame's base; the first one has index 1 -/
  | slot (index : Nat)
  /-- the argument that stands `index` words above the return address -/
  | incoming (index : Nat)
  /-- the word whose address is in a register -/
  | deref (reg : Reg)
  /-- the address of a global -/
  | globalAddress (name : String)
deriving DecidableEq

/-- The text of an operand. -/
def Operand.text : Operand → String
  | .imm value => "$" ++ toString value
  | .reg r => r.text
  | .slot index => "-" ++ toString (index * wordSize) ++ "(%rbp)"
  | .incoming index => toString (2 * wordSize + index * wordSize) ++ "(%rbp)"
  | .deref r => "0(" ++ r.text ++ ")"
  | .globalAddress name => name ++ "@GOTPCREL(%rip)"

/-- Operations from an operand into a register. -/
inductive Alu where
  | add
  | sub
  | imul
  | xor
  | cmp
deriving DecidableEq

/-- The mnemonic of an operation. -/
def Alu.mnemonic : Alu → String
  | .add => "addq"
  | .sub => "subq"
  | .imul => "imulq"
  | .xor => "xorq"
  | .cmp => "cmpq"

/-- The mnemonic of a conditional move. -/
def cmovMnemonic : Comparison → String
  | .ge => "cmovgeq"
  | .gt => "cmovgq"
  | .le => "cmovleq"
  | .lt => "cmovlq"
  | .eq => "cmoveq"
  | .ne => "cmovneq"

/-- An instruction. -/
inductive Instr where
  | mov (src dst : Operand)
  /-- loads a number that needs more than 32 bits -/
  | movAbs (value : Int) (dst : Reg)
  | alu (op : Alu) (src : Operand) (dst : Reg)
  /-- extends the sign of `%rax` into `%rdx` -/
  | cqto
  | idiv (src : Reg)
  | cmov (op : Comparison) (src dst : Reg)
  | push (src : Operand)
  | call (name : String)
  /-- opens a frame of so many words -/
  | enter (words : Nat)
  | leave
  | ret
  | je (label : Nat)
  | jmp (label : Nat)
deriving DecidableEq

/-- The text of a label. -/
def labelText (label : Nat) : String :=
  ".L" ++ toString label

/-- The text of an instruction. -/
def Instr.text : Instr → String
  | .mov src dst => "movq " ++ src.text ++ ", " ++ dst.text
  | .movAbs value dst => "movabsq $" ++ toString value ++ ", " ++ dst.text
  | .alu op src dst => op.mnemonic ++ " " ++ src.text ++ ", " ++ dst.text
  | .cqto => "cqto"
  | .idiv src => "idivq " ++ src.text
  | .cmov op src dst => cmovMnemonic op ++ " " ++ src.text ++ ", " ++ dst.text
  | .push src => "pushq " ++ src.text
  | .call name => "call " ++ name
  | .enter words => "enter $(" ++ toString wordSize ++ " * " ++ toString words ++ "), $0"
  | .leave => "leave"
  | .ret => "ret"
  | .je label => "je " ++ labelText label
  | .jmp label => "jmp " ++ labelText label

/-- A line of assembly. -/
inductive Line where
  /-- reserves room for a global -/
  | common (name : String) (bytes : Nat)
  /-- makes a function visible to the linker -/
  | exported (name : String)
  /-- where a function begins -/
  | entry (name : String)
  /-- where a branch leads -/
  | label (label : Nat)
  | instr (instr : Instr)
deriving DecidableEq

/-- The text of a line, without its line end. -/
def Line.text : Line → String
  | .common name bytes =>
    "    .comm " ++ name ++ ", " ++ toString bytes ++ ", " ++ toString wordSize
  | .exported name => "    .globl " ++ name
  | .entry name => name ++ ":"
  | .label n => labelText n ++ ":"
  | .instr i => "    " ++ i.text

end WordLang.Asm
