import WordLang.Proofs.Lowering.Ways

/-!
# Lowering appends closed chains

What whoever lowers a construct may rely on, whatever the state of lowering was before. Nothing that
was in the arena is touched, so the ends of chains can be linked long after the chains were made.
What is new can be left by the exit of the chain only, or by a break, and the exit still has no edge
that could be overwritten. Registers and constants that were given out keep their meaning.

A block is lowered for the conditional or the loop that it belongs to; as a construct of its own it
is `Block.lower`.

Nothing is asked of the state before. Its edges may lead to instructions that are not there, its
locals may have registers that were never taken, and its pool may be any list. That is more than
ever happens, but it shows that the property is one of the constructs and not of how a function is
begun: it holds in the middle of lowering as well as at the start, and needs no invariant to be
carried to there.
-/

namespace WordLang

/-! ## Blocks

Lowering a conditional or a loop has the blocks spelled out. These two equations put them back
together, so that what is shown of blocks is about the steps that are really performed. -/

/-- Lowers a block: a `nop`, and the statements from there on. Its chain has no value. -/
def Block.lower (loopExit : Option InstId) (block : Block Stmt) : Lower Chain := do
  let entry ← Lower.push .nop
  let exit ← Stmt.lowerAll loopExit entry block.stmts
  return { entry, exit }

section

variable {loopExit : Option InstId} {info : Info} {cond : Expr}

/-- A conditional lowers both of its blocks. -/
theorem Stmt.lower_ifElse_eq {onTrue onFalse : Block Stmt} :
    Stmt.lower loopExit (.ifElse info cond onTrue onFalse) = (do
      let test ← cond.lower
      let value ← test.valueAt info.pos
      let jump ← Lower.push (.jump value)
      Lower.follow test.exit jump
      let first ← onTrue.lower loopExit
      let second ← onFalse.lower loopExit
      let join ← Lower.push .nop
      Lower.link jump first.entry .onTrue
      Lower.link jump second.entry .next
      Lower.follow first.exit join
      Lower.follow second.exit join
      return { entry := test.entry, exit := join }) := by
  simp [Stmt.lower, Block.lower]

/-- A loop lowers its body, from which a break leads to the end of the loop. -/
theorem Stmt.lower_loop_eq {init increment : Assignment} {body : Block Stmt} :
    Stmt.lower loopExit (.loop info init cond increment body) = (do
      let first ← init.lower
      let test ← cond.lower
      let value ← test.valueAt cond.pos
      let jump ← Lower.push (.jump value)
      let done ← Lower.push .nop
      Lower.follow first.exit test.entry
      Lower.follow test.exit jump
      let inner ← body.lower (some done)
      let step ← increment.lower
      Lower.link jump inner.entry .onTrue
      Lower.link jump done .next
      Lower.follow inner.exit step.entry
      Lower.follow step.exit test.entry
      return { entry := first.entry, exit := done }) := by
  simp [Stmt.lower, Block.lower]

/-- A block that is lowered is its `nop` and what its statements are lowered to from there. -/
theorem Block.lower_eq_ok {block : Block Stmt} {b b' : Builder} {chain : Chain} :
    block.lower loopExit b = .ok (chain, b') ↔
      ∃ last, Stmt.lowerAll loopExit b.size block.stmts (b.push .nop) = .ok (last, b') ∧
        chain = ⟨b.size, last, none⟩ := by
  simp [Block.lower, and_assoc]

end

/-- The chain of a block is closed but for breaks. -/
theorem Block.chained_of_lower {block : Block Stmt} {out : Option InstId} {b b' : Builder}
    {chain : Chain} (h : block.lower out b = .ok (chain, b')) :
    b.Chained out chain.entry chain.exit b' := by
  obtain ⟨last, hlast, rfl⟩ := Block.lower_eq_ok.mp h
  exact Stmt.chained_of_lowerAll block.stmts (.nop rfl) hlast

/-! ## What was there, and what is new

The arena, the registers and the pool only grow. A handle that was given out before means afterwards
what it meant. -/

/-- A constant that was in the pool keeps its handle, and is not put there again. The pool is
searched from the front, and only its end has changed. -/
theorem internConstant_of_extends {constants pool : List Constant} {constant : Constant}
    (hpool : constants <+: pool) (hmem : constant ∈ constants) :
    internConstant pool constant = ((internConstant constants constant).1, pool) := by
  obtain ⟨added, rfl⟩ := hpool
  rw [internConstant, if_pos (List.mem_append_left _ hmem), List.idxOf_append_of_mem hmem,
    internConstant, if_pos hmem]

namespace Builder

/-- From `b` to `b'` a chain was appended, from which breaks lead to `out`. -/
structure Appends (b : Builder) (out : Option InstId) (chain : Chain) (b' : Builder) : Prop where
  /-- instructions keep what they do and both their edges -/
  keeps : ∀ (id : Nat) inst, b.inst? id = some inst → b'.inst? id = some inst
  entry_new : b.size ≤ chain.entry ∧ chain.entry < b'.size
  exit_new : b.size ≤ chain.exit ∧ chain.exit < b'.size
  /-- the exit has no edges, and is neither a jump nor a return -/
  exit_open : ∃ kind, b'.inst? chain.exit = some { kind } ∧ kind.isJump = false ∧
    kind.isReturn = false
  /-- an edge of a new instruction leads to a new one, if it is not that of a break -/
  inside : ∀ (id : Nat) inst, b.size ≤ id → b'.inst? id = some inst →
    ∀ target ∈ inst.successors, (b.size ≤ target ∧ target < b'.size) ∨ out = some target
  temps_le : b.routine.temps ≤ b'.routine.temps
  addrs_le : b.routine.addrs ≤ b'.routine.addrs
  pool : b.constants <+: b'.constants
  interned : ∀ constant ∈ b.constants,
    internConstant b'.constants constant = ((internConstant b.constants constant).1, b'.constants)

/-- A chain that was built by the regular operations was appended in this sense. -/
theorem Chained.appends {b b' : Builder} {out : Option InstId} {chain : Chain}
    (h : b.Chained out chain.entry chain.exit b') : b.Appends out chain b' where
  keeps id _ hinst := (h.grows.keeps id (lt_size hinst)).trans hinst
  entry_new := h.bounds.1
  exit_new := h.bounds.2
  exit_open := h.exit_open
  inside := h.encloses.inside
  temps_le := h.grows.temps_le
  addrs_le := h.grows.addrs_le
  pool := h.grows.pool
  interned _ hmem := internConstant_of_extends h.grows.pool hmem

end Builder

/-! ## Every construct -/

/-- Whatever the state of lowering, a construct that is lowered appends a chain. Nothing leads out
of that of an expression, an assignment or a call, and its exit is reached from its entry. Out of
that of a statement or a block only breaks lead, and only to where they were told to.

A statement may end in a return or a break, so its exit need not be reached. Then the exit is a
`nop` to which nothing leads, and which may be linked all the same. -/
theorem Lower.appends_chain :
    (∀ (expr : Expr) (b b' : Builder) (chain : Chain), expr.lower b = .ok (chain, b') →
      b.Appends none chain b' ∧ b'.routine.Reaches chain.entry chain.exit) ∧
    (∀ (assignment : Assignment) (b b' : Builder) (chain : Chain),
      assignment.lower b = .ok (chain, b') →
        b.Appends none chain b' ∧ b'.routine.Reaches chain.entry chain.exit) ∧
    (∀ (info : Info) (callee : Ident) (args : List Expr) (out : Option InstId) (b b' : Builder)
      (chain : Chain), Stmt.lower out (.call info callee args) b = .ok (chain, b') →
        b.Appends none chain b' ∧ b'.routine.Reaches chain.entry chain.exit) ∧
    (∀ (stmt : Stmt) (out : Option InstId) (b b' : Builder) (chain : Chain),
      stmt.lower out b = .ok (chain, b') → b.Appends out chain b') ∧
    ∀ (block : Block Stmt) (out : Option InstId) (b b' : Builder) (chain : Chain),
      block.lower out b = .ok (chain, b') → b.Appends out chain b' := by
  refine ⟨fun expr b b' chain h => ⟨(expr.chained_of_lower h).appends, Expr.reaches_of_lower h⟩,
    fun assignment b b' chain h =>
      ⟨(Assignment.chained_of_lower h).appends, Assignment.reaches_of_lower h⟩,
    fun info callee args out b b' chain h => ?_,
    fun stmt out b b' chain h => (stmt.chained_of_lower h).appends,
    fun block out b b' chain h => (Block.chained_of_lower h).appends⟩
  rw [Stmt.lower_call] at h
  exact ⟨(Expr.chained_of_lower _ h).appends, Expr.reaches_of_lower h⟩

/-- A step of lowering that goes well on a state gives a result and the next state. -/
theorem Lower.exists_of_isOk {α : Type} {step : Lower α} {b : Builder}
    (h : (step b).isOk = true) : ∃ result b', step b = .ok (result, b') := by
  cases hstep : step b with
  | error error =>
    rw [hstep] at h
    cases h
  | ok pair => exact ⟨pair.1, pair.2, rfl⟩

/-- Lowering that is under way: constants are in the pool, the arena has a jump whose edges are set
and an edge to an instruction that is not there, and one name is known that is in no arena. -/
def underWay : Builder :=
  { constants := [.bool true, .int 7]
    routine :=
      { name := "f", ty := .func [] .void, temps := 3, addrs := 2
        insts := #[{ kind := .nop, next := some 1 },
          { kind := .jump ⟨0⟩, next := some 9, onTrue := some 0 }, { kind := .nop }] }
    locals := [(⟨5⟩, ⟨40⟩)] }

/-- Every construct can be lowered there. -/
theorem Lower.appends_chain_underWay :
    let name (index : Nat) (text : String) (ty : Ty) : Ident :=
      { name := text, symbol := some { id := ⟨index⟩, name := text, ty := some ty } }
    let total := name 4 "total" .int
    let count := name 5 "count" .int
    let row := name 6 "row" (.array .int 8)
    let show1 := name 7 "show1" (.func [.int] .void)
    let even := name 8 "even" (.func [.int] .bool)
    let expr : Expr :=
      .binary {} (.connect .and) (.call {} even [.var {} count]) (.unary {} .negate (.bool {} true))
    let assignment : Assignment :=
      { location := .index {} row (.var {} count)
        value := .binary {} (.arith .add) (.index {} row (.int {} 7)) (.var {} total) }
    let stmt : Stmt :=
      .loop {} { location := .var {} count, value := .int {} 7 } expr assignment
        { stmts := [.ifElse {} expr { stmts := [.leave {}] } { stmts := [.ret {} none] }] }
    let block : Block Stmt :=
      { stmts := [.declare {} { ident := total, declared := .int }, stmt, .leave {}] }
    (∃ chain b', expr.lower underWay = .ok (chain, b') ∧
      underWay.Appends none chain b' ∧ b'.routine.Reaches chain.entry chain.exit) ∧
    (∃ chain b', assignment.lower underWay = .ok (chain, b') ∧
      underWay.Appends none chain b' ∧ b'.routine.Reaches chain.entry chain.exit) ∧
    (∃ chain b', (Stmt.call {} show1 [expr]).lower (some 1) underWay = .ok (chain, b') ∧
      underWay.Appends none chain b' ∧ b'.routine.Reaches chain.entry chain.exit) ∧
    (∃ chain b', stmt.lower (some 1) underWay = .ok (chain, b') ∧
      underWay.Appends (some 1) chain b') ∧
    ∃ chain b', block.lower (some 1) underWay = .ok (chain, b') ∧
      underWay.Appends (some 1) chain b' := by
  intro name total count row show1 even expr assignment stmt block
  obtain ⟨hexpr, hassignment, hcall, hstmt, hblock⟩ := Lower.appends_chain
  -- that lowering succeeds is evaluated, the rest is the theorem
  have hexprOk : (expr.lower underWay).isOk = true := by decide +kernel
  have hassignmentOk : (assignment.lower underWay).isOk = true := by decide +kernel
  have hcallOk : ((Stmt.call {} show1 [expr]).lower (some 1) underWay).isOk = true := by
    decide +kernel
  have hstmtOk : (stmt.lower (some 1) underWay).isOk = true := by decide +kernel
  have hblockOk : (block.lower (some 1) underWay).isOk = true := by decide +kernel
  refine ⟨?_, ?_, ?_, ?_, ?_⟩
  · obtain ⟨chain, b', h⟩ := exists_of_isOk hexprOk
    exact ⟨chain, b', h, hexpr _ _ _ _ h⟩
  · obtain ⟨chain, b', h⟩ := exists_of_isOk hassignmentOk
    exact ⟨chain, b', h, hassignment _ _ _ _ h⟩
  · obtain ⟨chain, b', h⟩ := exists_of_isOk hcallOk
    exact ⟨chain, b', h, hcall _ _ _ _ _ _ _ h⟩
  · obtain ⟨chain, b', h⟩ := exists_of_isOk hstmtOk
    exact ⟨chain, b', h, hstmt _ _ _ _ _ h⟩
  · obtain ⟨chain, b', h⟩ := exists_of_isOk hblockOk
    exact ⟨chain, b', h, hblock _ _ _ _ _ h⟩

end WordLang
