import WordLang.Lowering
import WordLang.Proofs.Stateful

/-!
# What lowering a construct does

For each construct, one equivalence: its lowering succeeds exactly when its parts can be lowered one
after the other, and then the chain and the builder it leaves are these. The builder is written with
the operations below, so what a construct adds to the arena, and the edges it sets, can be read off
its equation. Everything proved about lowering goes through these equivalences; nothing else opens
`Expr.lower` or `Stmt.lower`.

The equivalences come in three layers:

* `Lower.push_eq_ok` and its neighbours are about single operations. None of them can fail, and each
  leaves the builder that the operation of the same name on `Builder` gives;
* `Expr.lower_int_eq_ok` to `Stmt.lower_ret_some_eq_ok` are about constructs. What can fail is that
  a name has no symbol, that something without a value is used as a value, or that a `break` is in
  no loop; the right side of each says which of these have to be ruled out;
* `FunDef.lower_eq_ok` and `Item.lower_function_eq_ok` are about whole functions.

A construct refers to its parts by the builders `b`, `b₁`, `b₂` and so on that they leave, in the
order in which they are lowered. That is the order of the source, with one exception: the increment
of a loop comes after its body.
-/

namespace WordLang

open Stateful

/-! ## Operations on builders

What lowering does to the state that it threads through, without the state: each operation gives the
next builder outright. The lemmas after them say what an operation leaves as it was, one field at a
time. They are for `simp`, which then sees through any nesting of operations. -/

namespace Builder

/-- The number of instructions so far, which is the handle of the next one. -/
def size (b : Builder) : Nat := b.routine.insts.size

/-- Adds an instruction without successors. -/
def push (b : Builder) (kind : InstKind) : Builder :=
  { b with routine := (b.routine.push kind).2 }

/-- Sets a successor. -/
def link (b : Builder) (source target : InstId) (edge : Edge) : Builder :=
  { b with routine := b.routine.link source edge target }

/-- The next value register. -/
def nextTemp (b : Builder) : Temp := ⟨b.routine.temps⟩

/-- The next address register. -/
def nextAddr (b : Builder) : Addr := ⟨b.routine.addrs⟩

/-- Takes the next value register. -/
def takeTemp (b : Builder) : Builder :=
  { b with routine := b.routine.freshTemp.2 }

/-- Takes the next address register. -/
def takeAddr (b : Builder) : Builder :=
  { b with routine := b.routine.freshAddr.2 }

/-- The register for the result of a call: the next one, if the call has a result. -/
def result (b : Builder) (hasValue : Bool) : Option Temp :=
  if hasValue then some b.nextTemp else none

/-- Takes the register for the result of a call. -/
def takeResult (b : Builder) (hasValue : Bool) : Builder :=
  if hasValue then b.takeTemp else b

/-- Puts a constant in the pool. -/
def intern (b : Builder) (constant : Constant) : Builder :=
  { b with constants := (internConstant b.constants constant).2 }

/-- Gives a symbol the next value register. -/
def bindNext (b : Builder) (symbol : Symbol) : Builder :=
  { b.takeTemp with locals := (symbol.id, b.nextTemp) :: b.locals }

variable (b : Builder)

/-- An instruction is added at the end. -/
@[simp]
theorem size_push (kind : InstKind) : (b.push kind).size = b.size + 1 :=
  Routine.size_push b.routine kind

/-- Edges are set in place: the arena does not grow. -/
@[simp]
theorem size_link (source target : InstId) (edge : Edge) :
    (b.link source target edge).size = b.size :=
  Routine.size_link b.routine source edge target

@[simp]
theorem size_takeTemp : b.takeTemp.size = b.size := rfl

@[simp]
theorem size_takeAddr : b.takeAddr.size = b.size := rfl

/-- Taking a register adds no instruction, whether or not there is a result. -/
@[simp]
theorem size_takeResult (hasValue : Bool) : (b.takeResult hasValue).size = b.size := by
  cases hasValue <;> rfl

@[simp]
theorem size_intern (constant : Constant) : (b.intern constant).size = b.size := rfl

@[simp]
theorem size_bindNext (symbol : Symbol) : (b.bindNext symbol).size = b.size := rfl

@[simp]
theorem nextTemp_push (kind : InstKind) : (b.push kind).nextTemp = b.nextTemp := rfl

@[simp]
theorem nextTemp_link (source target : InstId) (edge : Edge) :
    (b.link source target edge).nextTemp = b.nextTemp := rfl

@[simp]
theorem nextTemp_takeAddr : b.takeAddr.nextTemp = b.nextTemp := rfl

@[simp]
theorem nextTemp_intern (constant : Constant) : (b.intern constant).nextTemp = b.nextTemp := rfl

@[simp]
theorem nextAddr_push (kind : InstKind) : (b.push kind).nextAddr = b.nextAddr := rfl

@[simp]
theorem nextAddr_link (source target : InstId) (edge : Edge) :
    (b.link source target edge).nextAddr = b.nextAddr := rfl

@[simp]
theorem nextAddr_takeTemp : b.takeTemp.nextAddr = b.nextAddr := rfl

@[simp]
theorem temps_push (kind : InstKind) : (b.push kind).routine.temps = b.routine.temps := rfl

@[simp]
theorem temps_link (source target : InstId) (edge : Edge) :
    (b.link source target edge).routine.temps = b.routine.temps := rfl

/-- A register that is taken is used up. -/
@[simp]
theorem temps_takeTemp : b.takeTemp.routine.temps = b.routine.temps + 1 := rfl

@[simp]
theorem temps_takeAddr : b.takeAddr.routine.temps = b.routine.temps := rfl

@[simp]
theorem temps_intern (constant : Constant) :
    (b.intern constant).routine.temps = b.routine.temps := rfl

/-- A local uses up a register of its own. -/
@[simp]
theorem temps_bindNext (symbol : Symbol) :
    (b.bindNext symbol).routine.temps = b.routine.temps + 1 := rfl

/-- Registers are numbered by how many there are. -/
@[simp]
theorem index_nextTemp : b.nextTemp.index = b.routine.temps := rfl

@[simp]
theorem locals_push (kind : InstKind) : (b.push kind).locals = b.locals := rfl

@[simp]
theorem locals_link (source target : InstId) (edge : Edge) :
    (b.link source target edge).locals = b.locals := rfl

@[simp]
theorem locals_takeTemp : b.takeTemp.locals = b.locals := rfl

@[simp]
theorem locals_takeAddr : b.takeAddr.locals = b.locals := rfl

/-- The register of a result belongs to no name. -/
@[simp]
theorem locals_takeResult (hasValue : Bool) : (b.takeResult hasValue).locals = b.locals := by
  cases hasValue <;> rfl

@[simp]
theorem locals_intern (constant : Constant) : (b.intern constant).locals = b.locals := rfl

end Builder

namespace Lower

/-- Adding an instruction cannot fail; it gives the handle of the new one. -/
@[simp]
theorem push_eq_ok {kind : InstKind} {b b' : Builder} {id : InstId} :
    push kind b = .ok (id, b') ↔ id = b.size ∧ b' = b.push kind := by
  change Except.ok (b.size, b.push kind) = _ ↔ _
  rw [Except.ok.injEq, Prod.mk.injEq, eq_comm, @eq_comm _ b']

/-- Setting an edge cannot fail, and it sets nothing else. -/
@[simp]
theorem link_eq_ok {source target : InstId} {edge : Edge} {b b' : Builder} {u : Unit} :
    link source target edge b = .ok (u, b') ↔ b' = b.link source target edge := by
  change Except.ok ((), b.link source target edge) = _ ↔ _
  rw [Except.ok.injEq, Prod.mk.injEq, eq_self, true_and, eq_comm]

/-- To follow is to set the edge that is taken by default. -/
@[simp]
theorem follow_eq_ok {source target : InstId} {b b' : Builder} {u : Unit} :
    follow source target b = .ok (u, b') ↔ b' = b.link source target .next :=
  link_eq_ok

/-- There is always another register for a value. -/
@[simp]
theorem freshTemp_eq_ok {b b' : Builder} {temp : Temp} :
    freshTemp b = .ok (temp, b') ↔ temp = b.nextTemp ∧ b' = b.takeTemp := by
  change Except.ok (b.nextTemp, b.takeTemp) = _ ↔ _
  rw [Except.ok.injEq, Prod.mk.injEq, eq_comm, @eq_comm _ b']

/-- There is always another register for an address. -/
@[simp]
theorem freshAddr_eq_ok {b b' : Builder} {addr : Addr} :
    freshAddr b = .ok (addr, b') ↔ addr = b.nextAddr ∧ b' = b.takeAddr := by
  change Except.ok (b.nextAddr, b.takeAddr) = _ ↔ _
  rw [Except.ok.injEq, Prod.mk.injEq, eq_comm, @eq_comm _ b']

/-- A constant is found in the pool, or it is put there. -/
@[simp]
theorem intern_eq_ok {constant : Constant} {b b' : Builder} {id : ConstId} :
    intern constant b = .ok (id, b') ↔
      id = (internConstant b.constants constant).1 ∧ b' = b.intern constant := by
  change Except.ok ((internConstant b.constants constant).1, b.intern constant) = _ ↔ _
  rw [Except.ok.injEq, Prod.mk.injEq, eq_comm, @eq_comm _ b']

/-- Looking for the register of a name changes nothing. -/
@[simp]
theorem local?_eq_ok {symbol : Symbol} {b b' : Builder} {known : Option Temp} :
    local? symbol b = .ok (known, b') ↔ known = b.locals.lookup symbol.id ∧ b' = b := by
  change Except.ok (b.locals.lookup symbol.id, b) = _ ↔ _
  rw [Except.ok.injEq, Prod.mk.injEq, eq_comm, @eq_comm _ b']

end Lower

/-! ## Names, values, callees -/

/-- A name can be lowered exactly when it stands for a symbol without a fault. -/
theorem Ident.resolved_eq_ok {ident : Ident} {symbol : Symbol} :
    ident.resolved = .ok symbol ↔ ident.symbol = some symbol ∧ symbol.fault = none := by
  unfold Ident.resolved
  rcases hs : ident.symbol with _ | s
  · simp
  · rcases hf : s.fault with _ | fault
    · simp only [Symbol.isFaulty, hf, Option.isSome_none, Bool.false_eq_true, if_false,
        Except.ok.injEq, Option.some.injEq]
      constructor
      · rintro rfl
        exact ⟨rfl, hf⟩
      · exact And.left
    · simp only [Symbol.isFaulty, hf, Option.isSome_some, if_true, reduceCtorEq, false_iff,
        Option.some.injEq]
      rintro ⟨rfl, h⟩
      rw [hf] at h
      cases h

/-- A chain is used as a value exactly when it has one. -/
@[simp]
theorem Chain.valueAt_eq_ok {chain : Chain} {pos : Position} {temp : Temp} :
    chain.valueAt pos = .ok temp ↔ chain.value = some temp := by
  unfold Chain.valueAt
  rcases chain.value with _ | t <;> simp

/-- Only functions can be called, and all but those that return nothing have a value. -/
theorem Lower.callHasValue_eq_ok {pos : Position} {callee : Symbol} {hasValue : Bool} :
    Lower.callHasValue pos callee = .ok hasValue ↔
      ∃ params ret, callee.ty = some (.func params ret) ∧ hasValue = !ret.isVoid := by
  unfold Lower.callHasValue
  split
  · next params ret h =>
    simp only [Except.ok.injEq]
    constructor
    · rintro rfl
      exact ⟨params, ret, h, rfl⟩
    · rintro ⟨params', ret', h', rfl⟩
      rw [h] at h'
      cases h'
      rfl
  · next h =>
    simp only [reduceCtorEq, false_iff]
    rintro ⟨params, ret, h', _⟩
    exact h params ret h'

/-! ## Expressions -/

namespace Lower

/-- A literal is a copy of its constant to a new register. -/
theorem literal_eq_ok {constant : Constant} {b b' : Builder} {chain : Chain} :
    literal constant b = .ok (chain, b') ↔
      b' = (b.intern constant).takeTemp.push
          (.copy b.nextTemp (.const (internConstant b.constants constant).1)) ∧
        chain = ⟨b.size, b.size, some b.nextTemp⟩ := by
  simp [literal, and_assoc]

/-- The value of a name. One that has a register is in it already, and all that is added is a place
to come from and to go on to. Any other is a global, and is loaded from its address. -/
theorem varValue_eq_ok {ident : Ident} {b b' : Builder} {chain : Chain} :
    varValue ident b = .ok (chain, b') ↔
      ∃ symbol, ident.resolved = .ok symbol ∧
        ((∃ temp, b.locals.lookup symbol.id = some temp ∧
            b' = b.push .nop ∧ chain = ⟨b.size, b.size, some temp⟩) ∨
          b.locals.lookup symbol.id = none ∧
            b' = ((b.takeAddr.push (.addressAt b.nextAddr symbol none)).takeTemp.push
              (.load b.nextTemp b.nextAddr)).link b.size (b.size + 1) .next ∧
            chain = ⟨b.size, b.size + 1, some b.nextTemp⟩) := by
  simp only [varValue, bind_eq_ok, lift_eq_ok, local?_eq_ok]
  constructor
  · rintro ⟨symbol, _, ⟨hs, rfl⟩, known, _, ⟨hk, rfl⟩, h⟩
    refine ⟨symbol, hs, ?_⟩
    rcases known with _ | temp
    · exact .inr ⟨hk.symm, by simpa [and_assoc] using h⟩
    · exact .inl ⟨temp, hk.symm, by simpa [and_assoc] using h⟩
  · rintro ⟨symbol, hs, ⟨temp, hk, h⟩ | ⟨hk, h⟩⟩
    · exact ⟨symbol, b, ⟨hs, rfl⟩, some temp, b, ⟨hk.symm, rfl⟩, by simpa [and_assoc] using h⟩
    · exact ⟨symbol, b, ⟨hs, rfl⟩, none, b, ⟨hk.symm, rfl⟩, by simpa [and_assoc] using h⟩

/-- The end of a call, once the arguments are in registers: a register for the result, if there is
one, and the call itself. -/
theorem finishCall_eq_ok {callee : Symbol} {hasValue : Bool} {args : List Temp}
    {entry exit : InstId} {b b' : Builder} {chain : Chain} :
    finishCall callee hasValue args entry exit b = .ok (chain, b') ↔
      b' = ((b.takeResult hasValue).push (.call (b.result hasValue) callee args)).link
          exit b.size .next ∧
        chain = ⟨entry, b.size, b.result hasValue⟩ := by
  cases hasValue <;> simp [finishCall, Builder.takeResult, Builder.result, and_assoc]

/-- Two chains one after the other, and an instruction that makes one value of their two. -/
theorem combine_eq_ok {kind : Temp → InstKind} {left right : Chain} {b b' : Builder}
    {chain : Chain} :
    combine kind left right b = .ok (chain, b') ↔
      b' = ((b.takeTemp.push (kind b.nextTemp)).link left.exit right.entry .next).link
          right.exit b.size .next ∧
        chain = ⟨left.entry, b.size, some b.nextTemp⟩ := by
  simp [combine, and_assoc]

end Lower

section Expressions

attribute [local simp] Expr.lower Expr.lowerArgs

variable {info : Info} {b b' : Builder} {chain : Chain}

/-- An integer is put in the pool, and copied from there. -/
theorem Expr.lower_int_eq_ok {value : Int64} :
    (Expr.int info value).lower b = .ok (chain, b') ↔
      b' = (b.intern (.int value)).takeTemp.push
          (.copy b.nextTemp (.const (internConstant b.constants (.int value)).1)) ∧
        chain = ⟨b.size, b.size, some b.nextTemp⟩ := by
  rw [Expr.lower, Lower.literal_eq_ok]

/-- So is a truth value. -/
theorem Expr.lower_bool_eq_ok {value : Bool} :
    (Expr.bool info value).lower b = .ok (chain, b') ↔
      b' = (b.intern (.bool value)).takeTemp.push
          (.copy b.nextTemp (.const (internConstant b.constants (.bool value)).1)) ∧
        chain = ⟨b.size, b.size, some b.nextTemp⟩ := by
  rw [Expr.lower, Lower.literal_eq_ok]

/-- An array element: its index, the address that this makes with the array's, and a load from
there. The array itself is not evaluated, only its symbol is needed. -/
theorem Expr.lower_index_eq_ok {base : Ident} {position : Expr} :
    (Expr.index info base position).lower b = .ok (chain, b') ↔
      ∃ symbol, base.resolved = .ok symbol ∧
        ∃ index b₁, position.lower b = .ok (index, b₁) ∧ ∃ offset, index.value = some offset ∧
          b' = ((((b₁.takeAddr.push (.addressAt b₁.nextAddr symbol (some offset))).takeTemp.push
            (.load b₁.nextTemp b₁.nextAddr)).link index.exit b₁.size .next).link
              b₁.size (b₁.size + 1) .next) ∧
          chain = ⟨index.entry, b₁.size + 1, some b₁.nextTemp⟩ := by
  simp [and_assoc]

/-- A call: a place to come from, the arguments in order, and the call. The callee has to have the
type of a function, which says whether a register for the result is needed. -/
theorem Expr.lower_call_eq_ok {callee : Ident} {args : List Expr} :
    (Expr.call info callee args).lower b = .ok (chain, b') ↔
      ∃ symbol, callee.resolved = .ok symbol ∧
        ∃ params ret, symbol.ty = some (.func params ret) ∧
          ∃ temps exit b₁, Expr.lowerArgs b.size args (b.push .nop) = .ok ((temps, exit), b₁) ∧
            b' = ((b₁.takeResult (!ret.isVoid)).push
              (.call (b₁.result (!ret.isVoid)) symbol temps)).link exit b₁.size .next ∧
            chain = ⟨b.size, b₁.size, b₁.result (!ret.isVoid)⟩ := by
  simp only [Expr.lower, bind_eq_ok, lift_eq_ok, Lower.callHasValue_eq_ok, Lower.push_eq_ok,
    Lower.finishCall_eq_ok]
  constructor
  · rintro ⟨symbol, _, ⟨hs, rfl⟩, _, _, ⟨⟨params, ret, hty, rfl⟩, rfl⟩, _, _, ⟨rfl, rfl⟩,
      ⟨temps, exit⟩, b₁, hargs, h⟩
    exact ⟨symbol, hs, params, ret, hty, temps, exit, b₁, hargs, h⟩
  · rintro ⟨symbol, hs, params, ret, hty, temps, exit, b₁, hargs, h⟩
    exact ⟨symbol, b, ⟨hs, rfl⟩, _, b, ⟨⟨params, ret, hty, rfl⟩, rfl⟩, _, _, ⟨rfl, rfl⟩,
      (temps, exit), b₁, hargs, h⟩

/-- Negation, with or without a right operand, lowers its left operand and flips it. -/
theorem Expr.lower_unary_eq_ok {op : Operation} {operand : Expr} :
    (Expr.unary info op operand).lower b = .ok (chain, b') ↔
      ∃ left b₁, operand.lower b = .ok (left, b₁) ∧ ∃ value, left.value = some value ∧
        op = .negate ∧
          b' = (b₁.takeTemp.push (.not b₁.nextTemp value)).link left.exit b₁.size .next ∧
          chain = ⟨left.entry, b₁.size, some b₁.nextTemp⟩ := by
  cases op <;> simp [and_assoc]

/-- Negation is written with two operands, and the right one is not lowered at all. -/
theorem Expr.lower_negate_eq_ok {left right : Expr} :
    (Expr.binary info .negate left right).lower b = .ok (chain, b') ↔
      ∃ l b₁, left.lower b = .ok (l, b₁) ∧ ∃ value, l.value = some value ∧
        b' = (b₁.takeTemp.push (.not b₁.nextTemp value)).link l.exit b₁.size .next ∧
        chain = ⟨l.entry, b₁.size, some b₁.nextTemp⟩ := by
  simp [and_assoc]

/-- Arithmetic: the left operand, the right operand, the operation. Both operands need a value. -/
theorem Expr.lower_arith_eq_ok {op : Arith} {left right : Expr} :
    (Expr.binary info (.arith op) left right).lower b = .ok (chain, b') ↔
      ∃ l b₁, left.lower b = .ok (l, b₁) ∧ ∃ leftValue, l.value = some leftValue ∧
        ∃ r b₂, right.lower b₁ = .ok (r, b₂) ∧ ∃ rightValue, r.value = some rightValue ∧
          b' = ((b₂.takeTemp.push (.arith op b₂.nextTemp leftValue rightValue)).link
            l.exit r.entry .next).link r.exit b₂.size .next ∧
          chain = ⟨l.entry, b₂.size, some b₂.nextTemp⟩ := by
  simp [and_assoc, Lower.combine_eq_ok]

/-- A comparison is lowered like arithmetic, with an instruction of its own. -/
theorem Expr.lower_compare_eq_ok {op : Comparison} {left right : Expr} :
    (Expr.binary info (.compare op) left right).lower b = .ok (chain, b') ↔
      ∃ l b₁, left.lower b = .ok (l, b₁) ∧ ∃ leftValue, l.value = some leftValue ∧
        ∃ r b₂, right.lower b₁ = .ok (r, b₂) ∧ ∃ rightValue, r.value = some rightValue ∧
          b' = ((b₂.takeTemp.push (.compare op b₂.nextTemp leftValue rightValue)).link
            l.exit r.entry .next).link r.exit b₂.size .next ∧
          chain = ⟨l.entry, b₂.size, some b₂.nextTemp⟩ := by
  simp [and_assoc, Lower.combine_eq_ok]

/-- After the left operand, which ends in `b₁`, come the jump, the copy of the left value, and the
right operand, which starts from `mid`; then the copy of the right value and the join. -/
theorem Expr.lower_connect_eq_ok {op : Connective} {left right : Expr} :
    (Expr.binary info (.connect op) left right).lower b = .ok (chain, b') ↔
      ∃ l b₁, left.lower b = .ok (l, b₁) ∧ ∃ leftValue, l.value = some leftValue ∧
        ∃ r b₂,
          right.lower (((b₁.push (.jump leftValue)).link l.exit b₁.size .next).takeTemp.push
            (.copy b₁.nextTemp (.temp leftValue))) = .ok (r, b₂) ∧
          ∃ rightValue, r.value = some rightValue ∧
            b' = ((((((b₂.push (.copy b₁.nextTemp (.temp rightValue))).push .nop).link
              b₁.size (b₁.size + 1) (Lower.connectiveEdges op).1).link
              b₁.size r.entry (Lower.connectiveEdges op).2).link
              (b₁.size + 1) (b₂.size + 1) .next).link r.exit b₂.size .next).link
              b₂.size (b₂.size + 1) .next ∧
            chain = ⟨l.entry, b₂.size + 1, some b₁.nextTemp⟩ := by
  simp [and_assoc]

/-- No arguments: nothing is added, and the call comes right after what was there. -/
theorem Expr.lowerArgs_nil_eq_ok {exit last : InstId} {temps : List Temp} :
    Expr.lowerArgs exit [] b = .ok ((temps, last), b') ↔ temps = [] ∧ last = exit ∧ b' = b := by
  simp [and_assoc]

/-- The first argument follows what was there before; the others follow it. Each needs a value. -/
theorem Expr.lowerArgs_cons_eq_ok {exit last : InstId} {arg : Expr} {rest : List Expr}
    {temps : List Temp} :
    Expr.lowerArgs exit (arg :: rest) b = .ok ((temps, last), b') ↔
      ∃ first b₁, arg.lower b = .ok (first, b₁) ∧ ∃ temp, first.value = some temp ∧
        ∃ others, Expr.lowerArgs first.exit rest (b₁.link exit first.entry .next) =
          .ok ((others, last), b') ∧ temps = temp :: others := by
  simp [and_assoc]

end Expressions

/-! ## Statements -/

section Statements

attribute [local simp] Stmt.lower Stmt.lowerAll

variable {info : Info} {b b' : Builder} {chain : Chain} {loopExit : Option InstId}

/-- An assignment to a variable, which is in a register or in memory. -/
theorem Assignment.lower_var_eq_ok {place : Info} {ident : Ident} {value : Expr} :
    (Assignment.mk info (.var place ident) value).lower b = .ok (chain, b') ↔
      ∃ symbol, ident.resolved = .ok symbol ∧
        ∃ v b₁, value.lower b = .ok (v, b₁) ∧ ∃ src, v.value = some src ∧
          ((∃ dst, b.locals.lookup symbol.id = some dst ∧
              b' = (b₁.push (.copy dst (.temp src))).link v.exit b₁.size .next ∧
              chain = ⟨v.entry, b₁.size, none⟩) ∨
            b.locals.lookup symbol.id = none ∧
              b' = (((b₁.takeAddr.push (.addressAt b₁.nextAddr symbol none)).push
                (.store src b₁.nextAddr)).link v.exit b₁.size .next).link
                  b₁.size (b₁.size + 1) .next ∧
              chain = ⟨v.entry, b₁.size + 1, none⟩) := by
  simp only [Assignment.lower, bind_eq_ok, lift_eq_ok, Lower.local?_eq_ok, Chain.valueAt_eq_ok]
  constructor
  · rintro ⟨symbol, _, ⟨hs, rfl⟩, known, _, ⟨hk, rfl⟩, v, b₁, hv, src, _, ⟨hsrc, rfl⟩, h⟩
    refine ⟨symbol, hs, v, _, hv, src, hsrc, ?_⟩
    rcases known with _ | dst
    · exact .inr ⟨hk.symm, by simpa [and_assoc] using h⟩
    · exact .inl ⟨dst, hk.symm, by simpa [and_assoc] using h⟩
  · rintro ⟨symbol, hs, v, b₁, hv, src, hsrc, ⟨dst, hk, h⟩ | ⟨hk, h⟩⟩
    · exact ⟨symbol, b, ⟨hs, rfl⟩, some dst, b, ⟨hk.symm, rfl⟩, v, b₁, hv, src, b₁, ⟨hsrc, rfl⟩,
        by simpa [and_assoc] using h⟩
    · exact ⟨symbol, b, ⟨hs, rfl⟩, none, b, ⟨hk.symm, rfl⟩, v, b₁, hv, src, b₁, ⟨hsrc, rfl⟩,
        by simpa [and_assoc] using h⟩

/-- An assignment to an array element: the index, its address, the value, the store. -/
theorem Assignment.lower_index_eq_ok {place : Info} {base : Ident} {position value : Expr} :
    (Assignment.mk info (.index place base position) value).lower b = .ok (chain, b') ↔
      ∃ symbol, base.resolved = .ok symbol ∧
        ∃ index b₁, position.lower b = .ok (index, b₁) ∧ ∃ offset, index.value = some offset ∧
          ∃ v b₂,
            value.lower (b₁.takeAddr.push (.addressAt b₁.nextAddr symbol (some offset))) =
              .ok (v, b₂) ∧
            ∃ src, v.value = some src ∧
              b' = (((b₂.push (.store src b₁.nextAddr)).link index.exit b₁.size .next).link
                b₁.size v.entry .next).link v.exit b₂.size .next ∧
              chain = ⟨index.entry, b₂.size, none⟩ := by
  simp [Assignment.lower, and_assoc]

/-- Only a variable or an array element can be assigned to. -/
theorem Assignment.location_of_lower_eq_ok {assignment : Assignment}
    (h : assignment.lower b = .ok (chain, b')) :
    (∃ place ident, assignment.location = .var place ident) ∨
      ∃ place base position, assignment.location = .index place base position := by
  obtain ⟨_, location, _⟩ := assignment
  cases location with
  | var place ident => exact .inl ⟨place, ident, rfl⟩
  | index place base position => exact .inr ⟨place, base, position, rfl⟩
  | _ => simp [Assignment.lower] at h

/-- A declaration gives its name a register. The register is not written to. -/
theorem Stmt.lower_declare_eq_ok {decl : VarDecl} :
    Stmt.lower loopExit (.declare info decl) b = .ok (chain, b') ↔
      ∃ symbol, decl.ident.resolved = .ok symbol ∧
        b' = (b.bindNext symbol).push .nop ∧ chain = ⟨b.size, b.size, none⟩ := by
  simp only [Stmt.lower, bind_eq_ok, lift_eq_ok, Lower.freshTemp_eq_ok, Lower.push_eq_ok,
    pure_eq_ok]
  constructor
  · rintro ⟨_, _, ⟨rfl, rfl⟩, symbol, _, ⟨hs, rfl⟩, _, _, hbind, _, _, ⟨rfl, rfl⟩, h⟩
    cases hbind
    cases h
    exact ⟨symbol, hs, rfl, rfl⟩
  · rintro ⟨symbol, hs, rfl, rfl⟩
    exact ⟨_, _, ⟨rfl, rfl⟩, symbol, _, ⟨hs, rfl⟩, (), b.bindNext symbol, rfl, _, _, ⟨rfl, rfl⟩,
      rfl⟩

/-- An assignment as a statement is the assignment. -/
theorem Stmt.lower_assign {assignment : Assignment} :
    Stmt.lower loopExit (.assign info assignment) = assignment.lower := by
  rw [Stmt.lower]

/-- A call is lowered in the same way as a statement and as an expression. -/
theorem Stmt.lower_call {callee : Ident} {args : List Expr} :
    Stmt.lower loopExit (.call info callee args) = (Expr.call info callee args).lower := by
  rw [Stmt.lower, Expr.lower]

/-- A branch: the condition, a jump on its value, the two blocks with a place to come from each, and
a place where they meet again. The block for the false side is lowered second, but it is the one
that the jump goes on to by default. -/
theorem Stmt.lower_ifElse_eq_ok {cond : Expr} {onTrue onFalse : Block Stmt} :
    Stmt.lower loopExit (.ifElse info cond onTrue onFalse) b = .ok (chain, b') ↔
      ∃ c b₁, cond.lower b = .ok (c, b₁) ∧ ∃ value, c.value = some value ∧
        ∃ trueExit b₂,
          Stmt.lowerAll loopExit (b₁.size + 1) onTrue.stmts
            (((b₁.push (.jump value)).link c.exit b₁.size .next).push .nop) =
              .ok (trueExit, b₂) ∧
          ∃ falseExit b₃,
            Stmt.lowerAll loopExit b₂.size onFalse.stmts (b₂.push .nop) = .ok (falseExit, b₃) ∧
            b' = ((((b₃.push .nop).link b₁.size (b₁.size + 1) .onTrue).link
              b₁.size b₂.size .next).link trueExit b₃.size .next).link
                falseExit b₃.size .next ∧
            chain = ⟨c.entry, b₃.size, none⟩ := by
  simp [and_assoc]

/-- A loop. After the condition in `b₂` come three places: the jump, the exit of the loop, where a
`break` goes to, and the beginning of the body. The body is lowered before the increment, and both
before the edges of the jump are set. -/
theorem Stmt.lower_loop_eq_ok {init increment : Assignment} {cond : Expr} {body : Block Stmt} :
    Stmt.lower loopExit (.loop info init cond increment body) b = .ok (chain, b') ↔
      ∃ i b₁, init.lower b = .ok (i, b₁) ∧
        ∃ c b₂, cond.lower b₁ = .ok (c, b₂) ∧ ∃ value, c.value = some value ∧
          ∃ bodyExit b₃,
            Stmt.lowerAll (some (b₂.size + 1)) (b₂.size + 2) body.stmts
              (((((b₂.push (.jump value)).push .nop).link i.exit c.entry .next).link
                c.exit b₂.size .next).push .nop) = .ok (bodyExit, b₃) ∧
            ∃ step b₄, increment.lower b₃ = .ok (step, b₄) ∧
              b' = (((b₄.link b₂.size (b₂.size + 2) .onTrue).link
                b₂.size (b₂.size + 1) .next).link bodyExit step.entry .next).link
                  step.exit c.entry .next ∧
              chain = ⟨i.entry, b₂.size + 1, none⟩ := by
  simp [and_assoc]

/-- A `break` goes to the exit of the loop around it, if there is one. What comes after it in its
block starts from a place that nothing leads to. -/
theorem Stmt.lower_leave_eq_ok :
    Stmt.lower loopExit (.leave info) b = .ok (chain, b') ↔
      ∃ target, loopExit = some target ∧
        b' = ((b.push .nop).link b.size target .next).push .nop ∧
        chain = ⟨b.size, b.size + 1, none⟩ := by
  cases loopExit <;> simp [and_assoc]

/-- A return without a value ends the routine. What comes after it starts from a place of its own.
-/
theorem Stmt.lower_ret_none_eq_ok :
    Stmt.lower loopExit (.ret info none) b = .ok (chain, b') ↔
      b' = (b.push (.ret none)).push .nop ∧ chain = ⟨b.size, b.size + 1, none⟩ := by
  simp [and_assoc]

/-- A return with a value. If the value turns out to be none, nothing is returned: that is not
checked here. -/
theorem Stmt.lower_ret_some_eq_ok {value : Expr} :
    Stmt.lower loopExit (.ret info (some value)) b = .ok (chain, b') ↔
      ∃ v b₁, value.lower b = .ok (v, b₁) ∧
        b' = ((b₁.push (.ret v.value)).link v.exit b₁.size .next).push .nop ∧
        chain = ⟨v.entry, b₁.size + 1, none⟩ := by
  simp [and_assoc]

/-- An empty block ends where it starts. -/
theorem Stmt.lowerAll_nil_eq_ok {exit last : InstId} :
    Stmt.lowerAll loopExit exit [] b = .ok (last, b') ↔ last = exit ∧ b' = b := by
  simp

/-- The first statement of a block follows what was there before, and the others follow it. -/
theorem Stmt.lowerAll_cons_eq_ok {exit last : InstId} {stmt : Stmt} {rest : List Stmt} :
    Stmt.lowerAll loopExit exit (stmt :: rest) b = .ok (last, b') ↔
      ∃ first b₁, stmt.lower loopExit b = .ok (first, b₁) ∧
        Stmt.lowerAll loopExit first.exit rest (b₁.link exit first.entry .next) =
          .ok (last, b') := by
  simp

end Statements

/-! ## Functions and programs -/

/-- Records the registers of the parameters. -/
def Builder.withArgs (b : Builder) (args : List Temp) : Builder :=
  { b with routine := { b.routine with args } }

/-- The builder that the lowering of a function starts from. -/
def Builder.start (constants : List Constant) (name : String) (ty : Ty) : Builder :=
  { constants, routine := .new name ty }

/-- No parameters: nothing changes. -/
theorem Param.lowerAll_nil_eq_ok {b b' : Builder} {temps : List Temp} :
    Param.lowerAll [] b = .ok (temps, b') ↔ temps = [] ∧ b' = b := by
  simp [Param.lowerAll]

/-- Parameters take registers in their order, each before the ones after it. -/
theorem Param.lowerAll_cons_eq_ok {param : Param} {rest : List Param} {b b' : Builder}
    {temps : List Temp} :
    Param.lowerAll (param :: rest) b = .ok (temps, b') ↔
      ∃ symbol, param.ident.resolved = .ok symbol ∧
        ∃ others, Param.lowerAll rest (b.bindNext symbol) = .ok (others, b') ∧
          temps = b.nextTemp :: others := by
  simp only [Param.lowerAll, bind_eq_ok, lift_eq_ok, Lower.freshTemp_eq_ok, pure_eq_ok,
    Prod.mk.injEq]
  constructor
  · rintro ⟨_, _, ⟨rfl, rfl⟩, symbol, _, ⟨hs, rfl⟩, _, _, hbind, others, _, hrest, rfl, rfl⟩
    cases hbind
    exact ⟨symbol, hs, others, hrest, rfl⟩
  · rintro ⟨symbol, hs, others, hrest, rfl⟩
    exact ⟨_, _, ⟨rfl, rfl⟩, symbol, _, ⟨hs, rfl⟩, (), b.bindNext symbol, rfl, others, b', hrest,
      rfl, rfl⟩

/-- A body is lowered outside of any loop, from the start of the routine on, and the registers of
the parameters are the arguments. -/
theorem FunDef.lowerBody_eq_ok {definition : FunDef} {b b' : Builder} :
    definition.lowerBody b = .ok ((), b') ↔
      ∃ args b₁, Param.lowerAll definition.params b = .ok (args, b₁) ∧
        ∃ last, Stmt.lowerAll none b₁.routine.start definition.body.stmts (b₁.withArgs args) =
          .ok (last, b') := by
  simp only [FunDef.lowerBody, bind_eq_ok]
  constructor
  · rintro ⟨args, b₁, hargs, _, _, hset, _, _, hget, last, _, hstmts, hdone⟩
    cases hset
    cases hget
    cases pure_eq_ok.mp hdone
    exact ⟨args, b₁, hargs, last, hstmts⟩
  · rintro ⟨args, b₁, hargs, last, hstmts⟩
    exact ⟨args, b₁, hargs, (), b₁.withArgs args, rfl, b₁.withArgs args, _, rfl, last, b', hstmts,
      rfl⟩

/-- A function is lowered to a routine with the name of its symbol, and goes on with the constants
that are in the pool already. -/
theorem FunDef.lower_eq_ok {definition : FunDef} {constants pool : List Constant}
    {routine : Routine} :
    definition.lower constants = .ok (routine, pool) ↔
      ∃ symbol, definition.ident.resolved = .ok symbol ∧
        ∃ args b₁, Param.lowerAll definition.params
          (.start constants symbol.name definition.ty) = .ok (args, b₁) ∧
          ∃ last b₂, Stmt.lowerAll none b₁.routine.start definition.body.stmts
            (b₁.withArgs args) = .ok (last, b₂) ∧ routine = b₂.routine ∧ pool = b₂.constants := by
  simp only [FunDef.lower, andThen_eq_ok]
  constructor
  · rintro ⟨symbol, hs, ⟨⟨⟩, b₂⟩, hrun, hdone⟩
    cases hdone
    obtain ⟨args, b₁, hargs, last, hstmts⟩ := FunDef.lowerBody_eq_ok.mp hrun
    exact ⟨symbol, hs, args, b₁, hargs, last, b₂, hstmts, rfl, rfl⟩
  · rintro ⟨symbol, hs, args, b₁, hargs, last, b₂, hstmts, rfl, rfl⟩
    exact ⟨symbol, hs, ((), b₂), FunDef.lowerBody_eq_ok.mpr ⟨args, b₁, hargs, last, hstmts⟩, rfl⟩

/-- A global variable is added to the program, with its number of elements. -/
theorem Item.lower_global_eq_ok {program program' : Program} {decl : VarDecl} :
    Item.lower program (.global decl) = .ok program' ↔
      ∃ symbol, decl.ident.resolved = .ok symbol ∧
        program' = { program with
          globals := program.globals ++ [{ symbol, elements := decl.elements }] } := by
  simp only [Item.lower, andThen_eq_ok]
  constructor
  · rintro ⟨symbol, hs, h⟩
    cases h
    exact ⟨symbol, hs, rfl⟩
  · rintro ⟨symbol, hs, rfl⟩
    exact ⟨symbol, hs, rfl⟩

/-- A function adds a routine to the program, and its constants to the pool. -/
theorem Item.lower_function_eq_ok {program program' : Program} {definition : FunDef} :
    Item.lower program (.function definition) = .ok program' ↔
      ∃ routine pool, definition.lower program.constants = .ok (routine, pool) ∧
        program' = { program with
          routines := program.routines ++ [routine], constants := pool } := by
  simp only [Item.lower, andThen_eq_ok]
  constructor
  · rintro ⟨⟨routine, pool⟩, hd, h⟩
    cases h
    exact ⟨routine, pool, hd, rfl⟩
  · rintro ⟨routine, pool, hd, rfl⟩
    exact ⟨(routine, pool), hd, rfl⟩

/-- Items are lowered one after the other, each into the program of those before it. -/
theorem Item.lowerAll_cons_eq_ok {program program' : Program} {item : Item} {rest : List Item} :
    (item :: rest).foldlM Item.lower program = .ok program' ↔
      ∃ mid, item.lower program = .ok mid ∧ rest.foldlM Item.lower mid = .ok program' := by
  rw [List.foldlM_cons, andThen_eq_ok]

end WordLang
