import WordLang.Proofs.Lowering.Soundness
import WordLang.Proofs.Relabelling.Basic
import WordLang.Proofs.Resolution.Declarations

/-!
# Relabelling and lowering

A `Renaming` gives symbols other ids and other names. If a relabelling renames the symbols in the
slots, then lowering does not notice: the program of the relabelled tree is the program of the tree
with its symbols renamed, and what cannot be lowered fails in the same way at the place where it
then stands (`Tree.lower_relabel`).

Lowering keeps the symbols of parameters and locals in a list and finds them by their ids, so ids
have to stay apart. Types that are written in the slots are not looked at. Neither is the name of
the routine at hand: it may be changed on its own, so it is still the name of the function in the
end.

Lowering is a program over a state, and so the proof is a relation between such programs:
`Lower.Tracks` says that the second one does what the first one does, from the renamed state, and
ends in the renamed state or in the relabelled error. Each operation tracks itself, tracking is kept
by putting programs one after the other (`Tracks.bind`), and then the lowering of each construct
tracks itself by following its definition, step by step.

A renaming of the routine alone is a relabelling that does nothing. With it one sees where routines
get their names from (`Tree.names_of_lower`).
-/

namespace WordLang

/-- A change of symbols, of their ids and of their names, and of the names of routines. -/
structure Renaming where
  id : SymbolId → SymbolId
  name : String → String
  routine : String → String

/-- Renames a symbol. -/
def Renaming.symbol (r : Renaming) (symbol : Symbol) : Symbol :=
  { symbol with id := r.id symbol.id, name := r.name symbol.name }

/-- A relabelling renames the symbols in the slots, and spells names in the same way. -/
structure Relabelling.Renames (g : Relabelling) (r : Renaming) : Prop where
  symbol : g.symbol = Option.map r.symbol
  name : g.name = r.name
  injective : ∀ {first second : SymbolId}, r.id first = r.id second → first = second

/-! ## Programs

A renaming goes through a program and changes symbols and nothing else. So it commutes with what
lowering does to a program: adding an instruction, setting an edge. -/

/-- Renames the symbol of an instruction. -/
def InstKind.rename (r : Renaming) : InstKind → InstKind
  | .addressAt dst base offset => .addressAt dst (r.symbol base) offset
  | .call dst callee args => .call dst (r.symbol callee) args
  | kind => kind

/-- Renames the symbol of an instruction with successors. -/
def Inst.rename (r : Renaming) (inst : Inst) : Inst :=
  { inst with kind := inst.kind.rename r }

/-- Renames the symbols of a routine, and the routine. -/
def Routine.rename (r : Renaming) (routine : Routine) : Routine :=
  { routine with name := r.routine routine.name, insts := routine.insts.map (Inst.rename r) }

/-- Renames the symbol of a global. -/
def GlobalDecl.rename (r : Renaming) (global : GlobalDecl) : GlobalDecl :=
  { global with symbol := r.symbol global.symbol }

/-- Renames the symbols of a program. -/
def Program.rename (r : Renaming) (program : Program) : Program where
  globals := program.globals.map (GlobalDecl.rename r)
  routines := program.routines.map (Routine.rename r)
  constants := program.constants

/-- Renames the symbols of what lowering a function works on. -/
def Builder.rename (r : Renaming) (builder : Builder) : Builder where
  constants := builder.constants
  routine := builder.routine.rename r
  locals := builder.locals.map fun entry => (r.id entry.1, entry.2)

/-- A routine that was just made has no instructions to rename. -/
theorem Routine.rename_new (r : Renaming) (name : String) (ty : Ty) :
    (Routine.new name ty).rename r = Routine.new (r.routine name) ty := by
  simp [Routine.new, Routine.rename, Inst.rename, InstKind.rename]

/-- An edge can be set before or after renaming. -/
theorem Inst.rename_link (r : Renaming) (inst : Inst) (target : InstId) (edge : Edge) :
    (inst.link target edge).rename r = (inst.rename r).link target edge := by
  cases edge <;> rfl

/-- An instruction can be added before or after renaming, and has the same handle. -/
theorem Routine.push_rename (r : Renaming) (routine : Routine) (kind : InstKind) :
    (routine.rename r).push (kind.rename r) =
      ((routine.push kind).1, (routine.push kind).2.rename r) := by
  simp [Routine.push, Routine.rename, Inst.rename]

/-- An edge in the arena can be set before or after renaming. -/
theorem Routine.link_rename (r : Renaming) (routine : Routine) (source target : InstId)
    (edge : Edge) :
    (routine.rename r).link source edge target = (routine.link source edge target).rename r := by
  simp only [Routine.link, Routine.rename, Routine.mk.injEq, true_and, and_true]
  apply Array.ext_getElem?
  intro id
  rw [Array.getElem?_modify, Array.getElem?_map, Array.getElem?_map, Array.getElem?_modify]
  by_cases hid : source = id
  · rw [if_pos hid, if_pos hid, Option.map_map, Option.map_map]
    congr 1
    funext inst
    exact (inst.rename_link r target edge).symm
  · rw [if_neg hid, if_neg hid]

/-! ## Outcomes

Lowering ends with a result or with an error. Results are renamed, and errors are relabelled: they
tell a place, and may tell a name. -/

/-- What cannot be lowered, where it then stands and as it is then spelled. -/
def LowerError.relabel (g : Relabelling) : LowerError → LowerError
  | .missingSymbol pos name => .missingSymbol (g.place pos) (g.name name)
  | .missingValue pos => .missingValue (g.place pos)
  | .breakOutsideLoop pos => .breakOutsideLoop (g.place pos)
  | .invalidLocation pos => .invalidLocation (g.place pos)
  | .notAFunction pos name => .notAFunction (g.place pos) (g.name name)

/-- The outcome of lowering after relabelling, given the one before. -/
def LowerError.outcome {α β : Type} (g : Relabelling) (value : α → β) :
    Except LowerError α → Except LowerError β
  | .ok a => .ok (value a)
  | .error error => .error (error.relabel g)

section

variable {g : Relabelling} {r : Renaming}

/-- A symbol is renamed if it was found. -/
theorem Ident.resolved_relabel (hg : g.Renames r) (ident : Ident) :
    (g.ident ident).resolved = LowerError.outcome g r.symbol ident.resolved := by
  obtain ⟨pos, name, symbol⟩ := ident
  rw [Relabelling.ident, Ident.resolved, Ident.resolved, hg.symbol]
  cases symbol with
  | none => rfl
  | some symbol =>
    have hfault : (r.symbol symbol).isFaulty = symbol.isFaulty := rfl
    simp only [Option.map_some, hfault]
    split <;> rfl

end

/-- Two steps of lowering do the same, the second one with everything relabelled. -/
def Lower.Tracks {α : Type} (g : Relabelling) (r : Renaming) (first second : Lower α) : Prop :=
  ∀ builder : Builder,
    second (builder.rename r) =
      LowerError.outcome g (fun result => (result.1, result.2.rename r)) (first builder)

namespace Lower.Tracks

variable {α β : Type} {g : Relabelling} {r : Renaming}

/-- Tracking is kept by putting steps one after the other. This is the step of all that follows:
what comes after the first step is asked for only with what the first step gives. -/
theorem bind {first second : Lower α} {rest rest' : α → Lower β} (h : Tracks g r first second)
    (hrest : ∀ a, Tracks g r (rest a) (rest' a)) :
      Tracks g r (first >>= rest) (second >>= rest') := by
  intro builder
  have hsecond := h builder
  cases hfirst : first builder with
  | error error =>
    rw [hfirst] at hsecond
    rw [Stateful.bind_of_error hfirst, Stateful.bind_of_error hsecond]
    rfl
  | ok result =>
    rw [hfirst] at hsecond
    rw [Stateful.bind_of_ok hfirst, Stateful.bind_of_ok hsecond]
    exact hrest result.1 result.2

/-- A step that only gives a result tracks itself. -/
theorem pure (a : α) : Tracks g r (pure a) (pure a) :=
  fun _ => rfl

/-- A step that fails tracks the one that fails with the relabelled error. -/
theorem throw (error : LowerError) :
    Tracks g r (throw error : Lower α) (throw (error.relabel g)) :=
  fun _ => rfl

/-- What is done with a result afterwards does not matter. -/
theorem map {first second : Lower α} (f : α → β) (h : Tracks g r first second) :
    Tracks g r (f <$> first) (f <$> second) := by
  rw [map_eq_pure_bind, map_eq_pure_bind]
  exact h.bind fun a => .pure (f a)

/-- What does not use the state, and gives no symbol. -/
theorem lift {first second : Except LowerError α} (h : second = LowerError.outcome g id first) :
    Tracks g r (liftM first : Lower α) (liftM second) := by
  intro builder
  subst h
  cases first <;> rfl

/-- Finding the symbol of a name, and going on with it. The symbol is renamed on the other side, so
what comes after is asked for with both. -/
theorem withResolved (hg : g.Renames r) (ident : Ident) {rest rest' : Symbol → Lower β}
    (hrest : ∀ symbol, Tracks g r (rest symbol) (rest' (r.symbol symbol))) :
    Tracks g r (liftM ident.resolved >>= rest) (liftM (g.ident ident).resolved >>= rest') := by
  intro builder
  rw [Ident.resolved_relabel hg]
  cases ident.resolved with
  | error error => rfl
  | ok symbol => exact hrest symbol builder

/-- Registers are numbered, and numbers are not renamed. -/
theorem freshTemp : Tracks g r freshTemp freshTemp :=
  fun _ => rfl

/-- So are registers for addresses. -/
theorem freshAddr : Tracks g r freshAddr freshAddr :=
  fun _ => rfl

/-- Constants have no symbols in them. -/
theorem intern (constant : Constant) : Tracks g r (intern constant) (intern constant) :=
  fun _ => rfl

/-- An instruction is added with its symbol renamed. -/
theorem push (kind : InstKind) : Tracks g r (push kind) (push (kind.rename r)) := by
  intro builder
  have h := builder.routine.push_rename r kind
  change Except.ok (((builder.routine.rename r).push (kind.rename r)).1,
    ({ builder.rename r with routine := ((builder.routine.rename r).push (kind.rename r)).2 } :
      Builder)) = _
  rw [h]
  rfl

/-- Edges are set in the same places. -/
theorem link (source target : InstId) (edge : Edge) :
    Tracks g r (link source target edge) (link source target edge) := by
  intro builder
  change Except.ok ((), ({ builder.rename r with
    routine := (builder.routine.rename r).link source edge target } : Builder)) = _
  rw [Routine.link_rename]
  rfl

/-- So are the ones that are taken by default. -/
theorem follow (source target : InstId) :
    Tracks g r (follow source target) (follow source target) :=
  link source target .next

/-- A register is given to a symbol, and to the renamed symbol. -/
theorem bindLocal (symbol : Symbol) (temp : Temp) :
    Tracks g r (bindLocal symbol temp) (bindLocal (r.symbol symbol) temp) :=
  fun _ => rfl

/-- The register of a symbol is found under the renamed symbol. This is where ids have to stay
apart. -/
theorem local? (hg : g.Renames r) (symbol : Symbol) :
    Tracks g r (local? symbol) (local? (r.symbol symbol)) := by
  intro builder
  have hlookup : ∀ entries : List (SymbolId × Temp),
      (entries.map fun entry => (r.id entry.1, entry.2)).lookup (r.id symbol.id) =
        entries.lookup symbol.id := by
    intro entries
    induction entries with
    | nil => rfl
    | cons entry rest ih =>
      have hid : (r.id symbol.id == r.id entry.1) = (symbol.id == entry.1) := by
        rw [Bool.eq_iff_iff, beq_iff_eq, beq_iff_eq]
        exact ⟨hg.injective, congrArg r.id⟩
      rw [List.map_cons, List.lookup_cons, List.lookup_cons, ih, hid]
  change Except.ok ((builder.rename r).locals.lookup (r.id symbol.id), builder.rename r) = _
  rw [Builder.rename, hlookup]
  rfl

/-- The value of a chain does not depend on names. If it has none, the error tells the place. -/
theorem valueAt (chain : Chain) (pos : Position) :
    Tracks g r (liftM (chain.valueAt pos) : Lower Temp) (liftM (chain.valueAt (g.place pos))) := by
  apply lift
  unfold Chain.valueAt
  cases chain.value <;> rfl

/-- So with the place of an expression. -/
theorem valueOf (chain : Chain) (expr : Expr) :
    Tracks g r (liftM (chain.valueAt expr.pos) : Lower Temp)
      (liftM (chain.valueAt (expr.relabel g).pos)) := by
  rw [Expr.pos_relabel]
  exact valueAt chain expr.pos

/-- Whether a call has a value is told by the type of the callee, which is not renamed. -/
theorem callHasValue (hg : g.Renames r) (pos : Position) (callee : Symbol) :
    Tracks g r (liftM (callHasValue pos callee) : Lower Bool)
      (liftM (callHasValue (g.place pos) (r.symbol callee))) := by
  apply lift
  obtain ⟨number, name, ty, fault⟩ := callee
  rw [Lower.callHasValue, Lower.callHasValue, Renaming.symbol]
  cases ty with
  | none => rw [LowerError.outcome, LowerError.relabel, hg.name]
  | some ty =>
    cases ty with
    | func params ret => rfl
    | _ => rw [LowerError.outcome, LowerError.relabel, hg.name]

/-- The end of a call refers to the callee. -/
theorem finishCall (callee : Symbol) (hasValue : Bool) (args : List Temp) (entry exit : InstId) :
    Tracks g r (finishCall callee hasValue args entry exit)
      (finishCall (r.symbol callee) hasValue args entry exit) := by
  unfold Lower.finishCall
  cases hasValue with
  | true =>
    refine (freshTemp.map some).bind fun dst => ?_
    refine (push (.call dst callee args)).bind fun call => ?_
    exact (follow exit call).bind fun _ => .pure _
  | false =>
    refine (pure none).bind fun dst => ?_
    refine (push (.call dst callee args)).bind fun call => ?_
    exact (follow exit call).bind fun _ => .pure _

/-- An operation on two values, which refers to nothing. -/
theorem combine {kind : Temp → InstKind} (hkind : ∀ dst, (kind dst).rename r = kind dst)
    (left right : Chain) : Tracks g r (combine kind left right) (combine kind left right) := by
  refine freshTemp.bind fun dst => ?_
  have hpush := push (g := g) (r := r) (kind dst)
  rw [hkind] at hpush
  refine hpush.bind fun inst => ?_
  refine (follow left.exit right.entry).bind fun _ => ?_
  exact (follow right.exit inst).bind fun _ => .pure _

/-- A literal, which refers to nothing. -/
theorem literal (constant : Constant) : Tracks g r (literal constant) (literal constant) := by
  refine (intern constant).bind fun id => ?_
  refine freshTemp.bind fun dst => ?_
  exact (push (.copy dst (.const id))).bind fun copy => .pure _

/-- The value of a name: its register, or a load from its address, which refers to the symbol. -/
theorem varValue (hg : g.Renames r) (ident : Ident) :
    Tracks g r (varValue ident) (varValue (g.ident ident)) := by
  refine withResolved hg ident fun symbol => ?_
  refine (local? hg symbol).bind fun known => ?_
  cases known with
  | some temp => exact (push .nop).bind fun nop => .pure _
  | none =>
    refine freshAddr.bind fun addr => ?_
    refine (push (.addressAt addr symbol none)).bind fun address => ?_
    refine freshTemp.bind fun dst => ?_
    refine (push (.load dst addr)).bind fun load => ?_
    exact (follow address load).bind fun _ => .pure _

end Lower.Tracks

/-! ## Trees

By recursion on the tree. The proof of each construct is its definition once more, with the rule for
each operation in the operation's place. -/

section

variable {g : Relabelling} {r : Renaming}

mutual

/-- The lowering of an expression tracks that of the relabelled expression: it takes the same
registers and the same handles, and mentions the renamed symbols. -/
theorem Expr.tracks_lower (hg : g.Renames r) : ∀ expr : Expr,
    Lower.Tracks g r expr.lower (expr.relabel g).lower
  | .int _ value => .literal (.int value)
  | .bool _ value => .literal (.bool value)
  | .var _ ident => .varValue hg ident
  | .index info base position => by
    refine .withResolved hg base fun symbol => ?_
    refine (Expr.tracks_lower hg position).bind fun index => ?_
    refine (Lower.Tracks.valueAt index info.pos).bind fun offset => ?_
    refine Lower.Tracks.freshAddr.bind fun addr => ?_
    refine (Lower.Tracks.push (.addressAt addr symbol (some offset))).bind fun address => ?_
    refine Lower.Tracks.freshTemp.bind fun dst => ?_
    refine (Lower.Tracks.push (.load dst addr)).bind fun load => ?_
    refine (Lower.Tracks.follow index.exit address).bind fun _ => ?_
    exact (Lower.Tracks.follow address load).bind fun _ => .pure _
  | .call info callee args => by
    refine .withResolved hg callee fun symbol => ?_
    refine (Lower.Tracks.callHasValue hg info.pos symbol).bind fun hasValue => ?_
    refine (Lower.Tracks.push .nop).bind fun entry => ?_
    refine (Expr.tracks_lowerArgs hg args entry).bind fun passed => ?_
    exact .finishCall symbol hasValue passed.1 entry passed.2
  | .unary info op operand => by
    refine (Expr.tracks_lower hg operand).bind fun left => ?_
    refine (Lower.Tracks.valueOf left operand).bind fun value => ?_
    cases op with
    | negate =>
      refine Lower.Tracks.freshTemp.bind fun dst => ?_
      refine (Lower.Tracks.push (.not dst value)).bind fun inst => ?_
      exact (Lower.Tracks.follow left.exit inst).bind fun _ => .pure _
    | _ => exact .throw (.missingValue info.pos)
  | .binary info op leftExpr rightExpr => by
    refine (Expr.tracks_lower hg leftExpr).bind fun left => ?_
    refine (Lower.Tracks.valueOf left leftExpr).bind fun leftValue => ?_
    cases op with
    | negate =>
      refine Lower.Tracks.freshTemp.bind fun dst => ?_
      refine (Lower.Tracks.push (.not dst leftValue)).bind fun inst => ?_
      exact (Lower.Tracks.follow left.exit inst).bind fun _ => .pure _
    | connect op =>
      refine (Lower.Tracks.push (.jump leftValue)).bind fun jump => ?_
      refine (Lower.Tracks.follow left.exit jump).bind fun _ => ?_
      refine Lower.Tracks.freshTemp.bind fun dst => ?_
      refine (Lower.Tracks.push (.copy dst (.temp leftValue))).bind fun keepLeft => ?_
      refine (Expr.tracks_lower hg rightExpr).bind fun right => ?_
      refine (Lower.Tracks.valueOf right rightExpr).bind fun rightValue => ?_
      refine (Lower.Tracks.push (.copy dst (.temp rightValue))).bind fun takeRight => ?_
      refine (Lower.Tracks.push .nop).bind fun join => ?_
      refine (Lower.Tracks.link jump keepLeft _).bind fun _ => ?_
      refine (Lower.Tracks.link jump right.entry _).bind fun _ => ?_
      refine (Lower.Tracks.follow keepLeft join).bind fun _ => ?_
      refine (Lower.Tracks.follow right.exit takeRight).bind fun _ => ?_
      exact (Lower.Tracks.follow takeRight join).bind fun _ => .pure _
    | arith op =>
      refine (Expr.tracks_lower hg rightExpr).bind fun right => ?_
      refine (Lower.Tracks.valueOf right rightExpr).bind fun rightValue => ?_
      exact .combine (fun _ => rfl) left right
    | compare op =>
      refine (Expr.tracks_lower hg rightExpr).bind fun right => ?_
      refine (Lower.Tracks.valueOf right rightExpr).bind fun rightValue => ?_
      exact .combine (fun _ => rfl) left right

/-- So it does for the arguments of a call. -/
theorem Expr.tracks_lowerArgs (hg : g.Renames r) : ∀ (args : List Expr) (exit : InstId),
    Lower.Tracks g r (Expr.lowerArgs exit args) (Expr.lowerArgs exit (Expr.relabelAll g args))
  | [], exit => .pure _
  | arg :: rest, exit => by
    refine (Expr.tracks_lower hg arg).bind fun chain => ?_
    refine (Lower.Tracks.valueOf chain arg).bind fun temp => ?_
    refine (Lower.Tracks.follow exit chain.entry).bind fun _ => ?_
    exact (Expr.tracks_lowerArgs hg rest chain.exit).bind fun _ => .pure _

end

/-- So it does for an assignment. What cannot be assigned to stays so, since the construct is the
same. -/
theorem Assignment.tracks_lower (hg : g.Renames r) (assignment : Assignment) :
    Lower.Tracks g r assignment.lower (assignment.relabel g).lower := by
  obtain ⟨info, location, valueExpr⟩ := assignment
  cases location with
  | var place ident =>
    refine .withResolved hg ident fun symbol => ?_
    refine (Lower.Tracks.local? hg symbol).bind fun known => ?_
    refine (Expr.tracks_lower hg valueExpr).bind fun value => ?_
    refine (Lower.Tracks.valueOf value valueExpr).bind fun src => ?_
    cases known with
    | some dst =>
      refine (Lower.Tracks.push (.copy dst (.temp src))).bind fun copy => ?_
      exact (Lower.Tracks.follow value.exit copy).bind fun _ => .pure _
    | none =>
      refine Lower.Tracks.freshAddr.bind fun dst => ?_
      refine (Lower.Tracks.push (.addressAt dst symbol none)).bind fun address => ?_
      refine (Lower.Tracks.push (.store src dst)).bind fun store => ?_
      refine (Lower.Tracks.follow value.exit address).bind fun _ => ?_
      exact (Lower.Tracks.follow address store).bind fun _ => .pure _
  | index place base position =>
    refine .withResolved hg base fun symbol => ?_
    refine (Expr.tracks_lower hg position).bind fun index => ?_
    refine (Lower.Tracks.valueOf index position).bind fun offset => ?_
    refine Lower.Tracks.freshAddr.bind fun dst => ?_
    refine (Lower.Tracks.push (.addressAt dst symbol (some offset))).bind fun address => ?_
    refine (Expr.tracks_lower hg valueExpr).bind fun value => ?_
    refine (Lower.Tracks.valueOf value valueExpr).bind fun src => ?_
    refine (Lower.Tracks.push (.store src dst)).bind fun store => ?_
    refine (Lower.Tracks.follow index.exit address).bind fun _ => ?_
    refine (Lower.Tracks.follow address value.entry).bind fun _ => ?_
    exact (Lower.Tracks.follow value.exit store).bind fun _ => .pure _
  | _ => exact .throw (.invalidLocation info.pos)

mutual

/-- So it does for a statement, in a loop and outside. -/
theorem Stmt.tracks_lower (hg : g.Renames r) : ∀ (stmt : Stmt) (loopExit : Option InstId),
    Lower.Tracks g r (stmt.lower loopExit) ((stmt.relabel g).lower loopExit)
  | .declare _ decl, _ => by
    -- the two runs go through the same steps, and differ in the symbols only
    refine Lower.Tracks.freshTemp.bind fun temp => ?_
    refine .withResolved hg decl.ident fun symbol => ?_
    refine (Lower.Tracks.bindLocal symbol temp).bind fun _ => ?_
    exact (Lower.Tracks.push .nop).bind fun nop => .pure _
  | .assign _ assignment, _ => Assignment.tracks_lower hg assignment
  | .call info callee args, _ => Expr.tracks_lower hg (.call info callee args)
  | .ifElse info condExpr onTrue onFalse, loopExit => by
    refine (Expr.tracks_lower hg condExpr).bind fun cond => ?_
    refine (Lower.Tracks.valueAt cond info.pos).bind fun value => ?_
    refine (Lower.Tracks.push (.jump value)).bind fun jump => ?_
    refine (Lower.Tracks.follow cond.exit jump).bind fun _ => ?_
    refine (Lower.Tracks.push .nop).bind fun trueEntry => ?_
    refine (Stmt.tracks_lowerAll hg onTrue.stmts loopExit trueEntry).bind fun trueExit => ?_
    refine (Lower.Tracks.push .nop).bind fun falseEntry => ?_
    refine (Stmt.tracks_lowerAll hg onFalse.stmts loopExit falseEntry).bind fun falseExit => ?_
    refine (Lower.Tracks.push .nop).bind fun join => ?_
    refine (Lower.Tracks.link jump trueEntry .onTrue).bind fun _ => ?_
    refine (Lower.Tracks.link jump falseEntry .next).bind fun _ => ?_
    refine (Lower.Tracks.follow trueExit join).bind fun _ => ?_
    exact (Lower.Tracks.follow falseExit join).bind fun _ => .pure _
  | .loop _ initial condExpr increment body, _ => by
    refine (Assignment.tracks_lower hg initial).bind fun init => ?_
    refine (Expr.tracks_lower hg condExpr).bind fun cond => ?_
    refine (Lower.Tracks.valueOf cond condExpr).bind fun value => ?_
    refine (Lower.Tracks.push (.jump value)).bind fun jump => ?_
    refine (Lower.Tracks.push .nop).bind fun done => ?_
    refine (Lower.Tracks.follow init.exit cond.entry).bind fun _ => ?_
    refine (Lower.Tracks.follow cond.exit jump).bind fun _ => ?_
    refine (Lower.Tracks.push .nop).bind fun bodyEntry => ?_
    refine (Stmt.tracks_lowerAll hg body.stmts (some done) bodyEntry).bind fun bodyExit => ?_
    refine (Assignment.tracks_lower hg increment).bind fun step => ?_
    refine (Lower.Tracks.link jump bodyEntry .onTrue).bind fun _ => ?_
    refine (Lower.Tracks.link jump done .next).bind fun _ => ?_
    refine (Lower.Tracks.follow bodyExit step.entry).bind fun _ => ?_
    exact (Lower.Tracks.follow step.exit cond.entry).bind fun _ => .pure _
  | .leave info, none => .throw (.breakOutsideLoop info.pos)
  | .leave _, some target => by
    refine (Lower.Tracks.push .nop).bind fun entry => ?_
    refine (Lower.Tracks.follow entry target).bind fun _ => ?_
    exact (Lower.Tracks.push .nop).bind fun rest => .pure _
  | .ret _ none, _ => by
    refine (Lower.Tracks.push (.ret none)).bind fun entry => ?_
    exact (Lower.Tracks.push .nop).bind fun rest => .pure _
  | .ret _ (some expr), _ => by
    refine (Expr.tracks_lower hg expr).bind fun value => ?_
    refine (Lower.Tracks.push (.ret value.value)).bind fun ret => ?_
    refine (Lower.Tracks.follow value.exit ret).bind fun _ => ?_
    exact (Lower.Tracks.push .nop).bind fun rest => .pure _

/-- So it does for a block. -/
theorem Stmt.tracks_lowerAll (hg : g.Renames r) : ∀ (stmts : List Stmt) (loopExit : Option InstId)
    (exit : InstId),
    Lower.Tracks g r (Stmt.lowerAll loopExit exit stmts)
      (Stmt.lowerAll loopExit exit (Stmt.relabelAll g stmts))
  | [], _, exit => .pure exit
  | stmt :: rest, loopExit, exit => by
    refine (Stmt.tracks_lower hg stmt loopExit).bind fun chain => ?_
    refine (Lower.Tracks.follow exit chain.entry).bind fun _ => ?_
    exact Stmt.tracks_lowerAll hg rest loopExit chain.exit

end

/-- So it does for parameters, which are the first locals. -/
theorem Param.tracks_lowerAll (hg : g.Renames r) (params : List Param) :
    Lower.Tracks g r (Param.lowerAll params) (Param.lowerAll (params.map (Param.relabel g))) := by
  induction params with
  | nil => exact .pure []
  | cons param rest ih =>
    refine Lower.Tracks.freshTemp.bind fun temp => ?_
    refine .withResolved hg param.ident fun symbol => ?_
    refine (Lower.Tracks.bindLocal symbol temp).bind fun _ => ?_
    exact ih.bind fun temps => .pure _

/-- So it does for a body with its parameters. -/
theorem FunDef.tracks_lowerBody (hg : g.Renames r) (definition : FunDef) :
    Lower.Tracks g r definition.lowerBody (definition.relabel g).lowerBody := by
  have hstmts : Lower.Tracks g r
      (do let start := (← get).routine.start
          let _ ← Stmt.lowerAll none start definition.body.stmts)
      (do let start := (← get).routine.start
          let _ ← Stmt.lowerAll none start (definition.relabel g).body.stmts) := by
    intro builder
    exact ((Stmt.tracks_lowerAll hg definition.body.stmts none builder.routine.start).bind
      fun _ => .pure ()) builder
  refine (Param.tracks_lowerAll hg definition.params).bind fun args => ?_
  exact Lower.Tracks.bind (fun _ => rfl) fun _ => hstmts

/-- The builder that lowering a function starts from. -/
theorem Builder.rename_start (r : Renaming) (constants : List Constant) (name : String) (ty : Ty) :
    (Builder.start constants name ty).rename r = .start constants (r.routine name) ty := by
  rw [Builder.start, Builder.rename, Routine.rename_new, Builder.start]
  rfl

/-- A function is lowered to the renamed routine, if the routine is renamed like its symbol. The
pool of constants is the same. -/
theorem FunDef.lower_relabel (hg : g.Renames r) (hroutine : r.routine = r.name)
    (definition : FunDef) (constants : List Constant) :
    (definition.relabel g).lower constants =
      LowerError.outcome g (fun result => (result.1.rename r, result.2))
        (definition.lower constants) := by
  unfold FunDef.lower
  rw [FunDef.ty_relabel]
  change ((g.ident definition.ident).resolved >>= _) = _
  rw [Ident.resolved_relabel hg]
  cases definition.ident.resolved with
  | error error => rfl
  | ok symbol =>
    have hbody := FunDef.tracks_lowerBody hg definition (.start constants symbol.name definition.ty)
    rw [Builder.rename_start, hroutine] at hbody
    change ((definition.relabel g).lowerBody
      (.start constants (r.name symbol.name) definition.ty) >>= _) =
      LowerError.outcome g _ (definition.lowerBody
        (.start constants symbol.name definition.ty) >>= _)
    rw [hbody]
    cases definition.lowerBody (.start constants symbol.name definition.ty) <;> rfl

/-- A top declaration is added to the renamed program. -/
theorem Item.lower_relabel (hg : g.Renames r) (hroutine : r.routine = r.name) (item : Item)
    (program : Program) :
    (item.relabel g).lower (program.rename r) =
      LowerError.outcome g (Program.rename r) (item.lower program) := by
  cases item with
  | global decl =>
    change ((g.ident decl.ident).resolved >>= _) =
      LowerError.outcome g _ (decl.ident.resolved >>= _)
    rw [Ident.resolved_relabel hg]
    cases decl.ident.resolved with
    | error error => rfl
    | ok symbol =>
      change Except.ok _ = Except.ok _
      simp [Program.rename, GlobalDecl.rename, VarDecl.elements, VarDecl.relabel]
  | function definition =>
    change ((definition.relabel g).lower program.constants >>= _) =
      LowerError.outcome g _ (definition.lower program.constants >>= _)
    rw [FunDef.lower_relabel hg hroutine]
    cases definition.lower program.constants with
    | error error => rfl
    | ok result =>
      change Except.ok _ = Except.ok _
      simp [Program.rename]

/-- Several declarations are added to the renamed program, one after the other. -/
theorem Item.lowerAll_relabel (hg : g.Renames r) (hroutine : r.routine = r.name) (items : List Item)
    (program : Program) :
    (items.map (Item.relabel g)).foldlM Item.lower (program.rename r) =
      LowerError.outcome g (Program.rename r) (items.foldlM Item.lower program) := by
  induction items generalizing program with
  | nil => rfl
  | cons item rest ih =>
    rw [List.map_cons, List.foldlM_cons, List.foldlM_cons, Item.lower_relabel hg hroutine]
    cases item.lower program with
    | error error => rfl
    | ok mid => exact ih mid

/-- Lowering a relabelled tree gives the program of the tree with its symbols renamed. If the tree
cannot be lowered, neither can the relabelled one, for the same reason at the relabelled place. -/
theorem Tree.lower_relabel (hg : g.Renames r) (hroutine : r.routine = r.name) (tree : Tree) :
    (tree.relabel g).lower = LowerError.outcome g (Program.rename r) tree.lower :=
  Item.lowerAll_relabel hg hroutine tree.items {}

end

/-! ## Names of routines

A renaming may change the names of routines and nothing else. Applied to a relabelling that does
nothing, lowering gives the routine with any other name that it was started with; so the name it has
in the end is the one that it was started with. -/

/-- A relabelling that does nothing renames no symbol. -/
theorem Relabelling.renames_routine (routine : String → String) :
    ({} : Relabelling).Renames ⟨id, id, routine⟩ where
  symbol := Option.map_id.symm
  name := rfl
  injective h := h

/-- The routine of a function has the function's name: putting that name in at the start, where it
is already, has the same effect as putting it in at the end. -/
theorem FunDef.name_of_lower {definition : FunDef} {constants pool : List Constant}
    {routine : Routine} (h : definition.lower constants = .ok (routine, pool)) :
    ∃ symbol, definition.ident.symbol = some symbol ∧ routine.name = symbol.name := by
  obtain ⟨symbol, hsymbol, h⟩ := Stateful.andThen_eq_ok.mp h
  obtain ⟨⟨_, last⟩, hrun, hdone⟩ := Stateful.andThen_eq_ok.mp h
  cases hdone
  refine ⟨symbol, (Ident.resolved_eq_ok.mp hsymbol).1, ?_⟩
  have hkept := FunDef.tracks_lowerBody (Relabelling.renames_routine id) definition
    (.start constants symbol.name definition.ty)
  have hset := FunDef.tracks_lowerBody (Relabelling.renames_routine fun _ => symbol.name) definition
    (.start constants symbol.name definition.ty)
  rw [Builder.rename_start] at hkept hset
  have hsame := hkept.symm.trans hset
  change definition.lowerBody (.start constants symbol.name definition.ty) = _ at hrun
  rw [hrun] at hsame
  exact congrArg (fun result : Unit × Builder => result.2.routine.name) (Except.ok.inj hsame)

/-- The routines of a program are named like the functions of its tree, in the same order. The name
is that of the symbol in the slot, which is what calls mention too. -/
theorem Tree.names_of_lower {tree : Tree} {program : Program} (h : tree.lower = .ok program) :
    program.routines.map (·.name) = tree.functionSymbols.map (·.name) := by
  rw [Tree.functionSymbols, List.map_filterMap]
  refine Tree.map_routines h (fun _ => rfl) fun definition _ routine constants pool hlower => ?_
  obtain ⟨symbol, hsymbol, hname⟩ := FunDef.name_of_lower hlower
  rw [Item.functionSymbol?, hsymbol, hname]
  rfl

end WordLang
