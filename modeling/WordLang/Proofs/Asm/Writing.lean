import Mathlib.Data.List.Basic
import WordLang.Asm.Writer
import WordLang.Proofs.Asm.Completeness

/-!
# Fragments that are written

What code that writes lines does is said with fragments. `Sink.write` writes a fragment: its lines,
and then the reason why it ended early, if it did. `Writes` says of a `SlotWriter` that it writes a
certain fragment; it also says which registers it mentions, in order, because that decides which
slots it gives out. Both add up when code is put in sequence (`Writes.andThen`), so each piece of
code has its own lemma, and the lemma for a longer piece is put together from those of its parts.

The slots in a fragment are those of the whole routine, which is not yet known when the first lines
are written. That is why `Writes` asks for a frame that begins with the slots given out so far: a
slot that was given out is never changed by what is mentioned later.

Labels are simpler, because a routine takes all of them before its first line. So a routine writes
exactly `routineCode` (`run_routine`), and the counter has then passed the labels it needs.
-/

namespace WordLang.Asm

variable {m : Type → Type} [Monad m] [LawfulMonad m]

/-! ## Early ends -/

/-- Nothing comes after an early end. -/
theorem throw_bind {α β : Type} (halt : Halt) (next : α → Writer m β) :
    ((throw halt : Writer m α) >>= next) = (throw halt : Writer m β) :=
  ExceptT.ext (by simp)

/-- An early end forgets the slots. -/
theorem run_throw {α : Type} (halt : Halt) (known : List Register) :
    (throw halt : SlotWriter m α).run known = throw halt := by
  change StateT.lift (throw halt : Writer m α) known = _
  rw [StateT.lift, throw_bind]

/-! ## Fragments -/

/-- Instructions in a row are a fragment in a row. -/
theorem Fragment.instrs_append (first second : List Instr) :
    instrs (first ++ second) = instrs first ++ instrs second := by
  change _ = Fragment.append (instrs first) (instrs second)
  simp [Fragment.append, instrs]

/-- Fragments can be put together in any grouping, whichever of them ends early. -/
theorem Fragment.append_assoc (first second third : Fragment) :
    (first ++ second) ++ third = first ++ (second ++ third) := by
  rcases hfirst : first.halt with _ | halt
  · rcases hsecond : second.halt with _ | halt
    · have hboth : (first ++ second).halt = none := (halt_append second hfirst).trans hsecond
      change Fragment.append (first ++ second) third = Fragment.append first (second ++ third)
      simp only [Fragment.append, hboth, hfirst, lines_append _ hfirst, lines_append _ hsecond,
        halt_append _ hsecond, List.append_assoc]
    · have hboth : (first ++ second).halt = some halt := (halt_append second hfirst).trans hsecond
      rw [append_eq_of_halt hboth, append_eq_of_halt hsecond]
  · rw [append_eq_of_halt hfirst, append_eq_of_halt hfirst, append_eq_of_halt hfirst]

namespace Sink

variable (sink : Sink m)

/-- Writes the lines of a fragment, and ends early if the fragment does. -/
def write (fragment : Fragment) : Writer m Unit := do
  forM fragment.lines sink.put
  match fragment.halt with
  | some halt => throw halt
  | none => return

/-- Writing two fragments is writing the first and then the second. If the first ends early, then
both sides say so: the right one because nothing comes after an early end. -/
theorem write_append (first second : Fragment) :
    sink.write (first ++ second) = (do sink.write first; sink.write second) := by
  rcases hhalt : first.halt with _ | halt
  · simp only [write, Fragment.lines_append second hhalt, Fragment.halt_append second hhalt, hhalt,
      List.forM_append, bind_assoc, pure_bind]
  · rw [Fragment.append_eq_of_halt hhalt]
    simp only [write, hhalt, bind_assoc, throw_bind]

/-- A fragment that stops writes nothing, and the code that writes it stops. -/
theorem write_stop (halt : Halt) : sink.write (.stop halt) = throw halt := by
  simp [write, Fragment.stop]

/-- A fragment of one line is that line. -/
theorem write_line (line : Line) : sink.write { lines := [line] } = sink.put line := by
  simp [write]

end Sink

/-! ## Slots

Slots are given out while lines are written, so the number of a slot depends on what was mentioned
before. In a fragment the slots are those of the whole routine. The two agree because a list of
first uses only grows at its end: a register keeps its place in it. -/

/-- Asking for the slot of a register enrolls it. -/
theorem run_slotOf (register : Register) (known : List Register) :
    (slotOf register : SlotWriter m Operand).run known =
      pure (.slot ((enroll known register).idxOf register + 1), enroll known register) := by
  simp [slotOf]

/-- A place in a list is the same place in any longer one. -/
theorem idxOf_eq_of_prefix {α : Type} [DecidableEq α] {known whole : List α} (h : known <+: whole)
    {a : α} (ha : a ∈ known) : known.idxOf a = whole.idxOf a := by
  obtain ⟨rest, rfl⟩ := h
  exact (List.idxOf_append_of_mem ha).symm

/-- Code that mentions the registers `uses` and writes a fragment whose slots are those of `frame`,
wherever it stands in a routine whose frame that is. -/
def Writes (sink : Sink m) (frame : List Register) (code : SlotWriter m Unit)
    (uses : List Register) (fragment : Fragment) : Prop :=
  ∀ known, uses.foldl enroll known <+: frame →
    code.run known = (do sink.write fragment; return ((), uses.foldl enroll known))

variable {sink : Sink m} {frame uses more : List Register} {code next : SlotWriter m Unit}
  {fragment rest : Fragment}

namespace Writes

omit [LawfulMonad m] in
/-- What is mentioned and what is written can be said in another way. -/
theorem congr (h : Writes sink frame code uses fragment) {uses' : List Register}
    {fragment' : Fragment} (huses : uses = uses') (hfragment : fragment = fragment') :
    Writes sink frame code uses' fragment' := by
  subst huses hfragment
  exact h

/-- Doing nothing mentions nothing and writes nothing. -/
theorem nothing : Writes sink frame (pure ()) [] {} := by
  intro known _
  simp [Sink.write]

/-- Code in sequence mentions what its parts mention and writes what they write. -/
theorem andThen (h : Writes sink frame code uses fragment)
    (hnext : Writes sink frame next more rest) :
    Writes sink frame (do code; next) (uses ++ more) (fragment ++ rest) := by
  intro known hknown
  rw [List.foldl_append] at hknown
  have hfirst := h known ((prefix_foldl_enroll _ more).trans hknown)
  have hsecond := hnext _ hknown
  rw [StateT.run_bind, hfirst, Sink.write_append, List.foldl_append]
  simp only [bind_assoc, pure_bind, hsecond]

/-- An early end may count as mentioning anything, as no line comes after it. -/
theorem stop (halt : Halt) (uses : List Register) :
    Writes sink frame (throw halt) uses (.stop halt) := by
  intro known _
  rw [run_throw, Sink.write_stop, throw_bind]

/-- A line that was made already mentions no register. -/
theorem put (line : Line) : Writes sink frame (sink.put line) [] { lines := [line] } := by
  intro known _
  rw [Sink.write_line]
  rfl

/-- An instruction that was made already mentions no register. -/
theorem instr (i : Instr) : Writes sink frame (sink.instr i) [] (.instrs [i]) :=
  put (.instr i)

/-- The slot that a register has when it is mentioned is the one that it has in the frame. -/
theorem slotOf {register : Register} {body : Operand → SlotWriter m Unit}
    (h : Writes sink frame (body (.slot (frame.idxOf register + 1))) uses fragment) :
    Writes sink frame (slotOf register >>= body) (register :: uses) fragment := by
  intro known hknown
  have hslot : (enroll known register).idxOf register = frame.idxOf register :=
    idxOf_eq_of_prefix ((prefix_foldl_enroll _ uses).trans hknown) (mem_enroll known register)
  rw [StateT.run_bind, run_slotOf, pure_bind, hslot]
  exact h (enroll known register) hknown

/-- One instruction for each item of a list, which mentions one register. -/
theorem each {α : Type} {items : List α} {body : α → SlotWriter m Unit} {used : α → Register}
    {made : α → Instr} (h : ∀ a, Writes sink frame (body a) [used a] (.instrs [made a])) :
    Writes sink frame (forM items body) (items.map used) (.instrs (items.map made)) := by
  induction items with
  | nil => exact nothing
  | cons a items ih => exact (h a).andThen ih

/-- An instruction that depends on a condition. -/
theorem instrIf (p : Prop) [Decidable p] (i : Instr) :
    Writes sink frame (if p then sink.instr i else pure ()) []
      (.instrs (if p then [i] else [])) := by
  split
  · exact instr i
  · exact nothing

end Writes

/-! ## Instructions

One lemma for each piece of code that writes instructions, in the order in which the pieces use each
other. The registers are listed in the order in which the code asks for their slots, which is not
always the order in which they stand in the text. -/

/-- What is known of a routine agrees with its context. -/
structure Outline.Agrees (outline : Outline) (ctx : Context) : Prop where
  constants_eq : outline.constants = ctx.constants
  name_eq : outline.name = ctx.name
  lookup_eq : ∀ id, outline.labels.lookup id = ctx.label? id

variable {outline : Outline} {ctx : Context}

namespace Writes

/-- Loading a register mentions it. -/
theorem load (reg : Reg) (src : Temp) :
    Writes sink ctx.frame (sink.load reg src) [.temp src]
      (.instrs [.mov (ctx.temp src) (.reg reg)]) :=
  slotOf (instr _)

/-- So does loading one that holds an address. -/
theorem loadAddr (reg : Reg) (src : Addr) :
    Writes sink ctx.frame (sink.loadAddr reg src) [.addr src]
      (.instrs [.mov (ctx.addr src) (.reg reg)]) :=
  slotOf (instr _)

/-- So does storing to one. -/
theorem store (reg : Reg) (dst : Temp) :
    Writes sink ctx.frame (sink.store reg dst) [.temp dst]
      (.instrs [.mov (.reg reg) (ctx.temp dst)]) :=
  slotOf (instr _)

/-- A constant has no slot, and one that is not in the pool ends writing at once. -/
theorem loadOperand (h : outline.Agrees ctx) (reg : Reg) (src : WordLang.Operand) :
    Writes sink ctx.frame (sink.loadOperand outline reg src) src.register?.toList
      (loadOperand ctx reg src) := by
  cases src with
  | temp src => exact load reg src
  | addr src => exact loadAddr reg src
  | const id =>
    rw [Sink.loadOperand, Asm.loadOperand, h.constants_eq, h.name_eq]
    rcases ctx.constants[id]? with _ | constant
    · exact stop _ _
    · exact instr _

/-- An operation in place: both operands, and then what takes the result. -/
theorem inPlace (op : Alu) (dst left right : Temp) :
    Writes sink ctx.frame (sink.inPlace op dst left right) [.temp left, .temp right, .temp dst]
      (.instrs (inPlaceCode ctx op dst left right)) :=
  (load .r10 left).andThen ((load .r11 right).andThen ((instr _).andThen (store .r10 dst)))

/-- Arithmetic mentions its registers in the same order, division as well. -/
theorem arith (dst left right : Temp) (op : Arith) :
    Writes sink ctx.frame (sink.arith dst left right op) [.temp left, .temp right, .temp dst]
      (.instrs (arithCode ctx dst left right op)) := by
  cases op with
  | add => exact inPlace .add dst left right
  | sub => exact inPlace .sub dst left right
  | mul => exact inPlace .imul dst left right
  | div =>
    exact (load .rax left).andThen ((instr .cqto).andThen ((load .r10 right).andThen
      ((instr _).andThen (store .rax dst))))

/-- An address mentions its offset, if there is one, and then the register that takes it. -/
theorem address (dst : Addr) (base : String) (offset : Option Temp) :
    Writes sink ctx.frame (sink.address dst base offset) (offset.toList.map .temp ++ [.addr dst])
      (.instrs (addressCode ctx dst base offset)) := by
  have hoffset : Writes sink ctx.frame (sink.addOffset offset) (offset.toList.map .temp)
      (.instrs ((offset.map fun offset =>
        [Instr.mov (ctx.temp offset) (.reg .r10), .alu .imul (.imm wordSize) .r10,
          .alu .add (.reg .r10) .r11]).getD [])) := by
    cases offset with
    | none => exact nothing
    | some offset => exact (load .r10 offset).andThen ((instr _).andThen (instr _))
  refine ((instr _).andThen (hoffset.andThen (slotOf (instr _)))).congr rfl ?_
  rw [addressCode, Fragment.instrs_append, Fragment.instrs_append, Fragment.append_assoc]
  rfl

/-- The arguments in machine registers are mentioned in order. There are no more of them than
machine registers, which the caller has seen to. -/
theorem loadArgs (args : List Temp) (h : args.length ≤ argRegs.length) :
    Writes sink ctx.frame (sink.loadArgs args) (args.map .temp) (.instrs (loadArgs ctx args)) := by
  have heach : Writes sink ctx.frame (sink.loadArgs args) _ _ :=
    each fun placed : Temp × Reg => load placed.2 placed.1
  refine heach.congr ?_ rfl
  calc (args.zip argRegs).map (fun placed => Register.temp placed.1)
      = ((args.zip argRegs).map Prod.fst).map .temp := List.map_map.symm
    _ = args.map .temp := by rw [List.map_fst_zip h]

/-- The other arguments are mentioned from the last one on, as that is how they are pushed. -/
theorem pushArgs (onStack : List Temp) :
    Writes sink ctx.frame (sink.pushArgs onStack) (onStack.reverse.map .temp)
      (.instrs (pushArgs ctx onStack)) :=
  each fun _ => slotOf (instr _)

/-- A call mentions the arguments that go in machine registers, then the others from the last one
on, then what takes the result. -/
theorem call (dst : Option Temp) (callee : Symbol) (args : List Temp) :
    Writes sink ctx.frame (sink.call dst callee.name args) (InstKind.call dst callee args).uses
      (.instrs (callCode ctx dst callee.name args)) := by
  have hargs : Writes sink ctx.frame (sink.loadArgs (args.take argRegs.length)) _ _ :=
    loadArgs (args.take argRegs.length) (List.length_take_le _ _)
  have hcall : Writes sink ctx.frame (sink.call dst callee.name args) _ _ :=
    hargs.andThen ((instrIf _ _).andThen ((pushArgs _).andThen ((instr _).andThen
      ((instrIf _ _).andThen (each (store .rax))))))
  refine hcall.congr ?_ ?_
  · simp [InstKind.uses]
  · simp only [callCode, Fragment.instrs_append, Fragment.append_assoc]
    rfl

/-- An instruction mentions its registers in the order of `InstKind.uses`. What a jump reads is
mentioned later, by its way on. -/
theorem inst (h : outline.Agrees ctx) (kind : InstKind) :
    Writes sink ctx.frame (sink.inst outline kind) (if kind.isJump then [] else kind.uses)
      (instCode ctx kind) := by
  cases kind with
  | nop => exact nothing
  | jump cond => exact nothing
  | copy dst src =>
    refine ((loadOperand h .r10 src).andThen (store .r10 dst)).congr ?_ rfl
    cases src <;> rfl
  | arith op dst left right => exact arith dst left right op
  | compare op dst left right =>
    exact congr ((instr _).andThen ((instr _).andThen ((load .r11 left).andThen
      (slotOf ((instr _).andThen ((instr _).andThen (store .rax dst))))))) rfl rfl
  | not dst operand =>
    exact congr ((load .r10 operand).andThen ((instr _).andThen (store .r10 dst))) rfl rfl
  | addressAt dst base offset => exact address dst base.name offset
  | load dst src =>
    exact congr ((loadAddr .r10 src).andThen ((instr _).andThen (store .r10 dst))) rfl rfl
  | store src dst =>
    exact congr ((loadAddr .r11 dst).andThen ((load .r10 src).andThen (instr _))) rfl rfl
  | call dst callee args => exact call dst callee args
  | ret value => exact each (load .rax)

/-! ## Steps

The way on from an instruction, and then the whole step. Branches ask for labels and not for slots;
only a jump mentions a register, the one it decides by. -/

/-- A branch to a place mentions no register. -/
theorem branch (h : outline.Agrees ctx) (made : Nat → Instr) (id : InstId) :
    Writes sink frame (sink.branch outline made id) [] (branchTo ctx made id) := by
  rw [Sink.branch, branchTo, h.lookup_eq, h.name_eq]
  rcases ctx.label? id with _ | label
  · exact stop _ _
  · exact instr _

/-- Going on to a place takes a branch, unless the place comes next anyway. -/
theorem onward (h : outline.Agrees ctx) (following : Option InstId) (id : InstId) :
    Writes sink frame (sink.onward outline following id) [] (continueTo ctx following id) := by
  rw [Sink.onward, continueTo]
  split
  · exact nothing
  · exact branch h _ id

/-- The way on of a jump mentions what the jump reads. Every other one mentions nothing. -/
theorem exit (h : outline.Agrees ctx) (step : Routine.Step) :
    Writes sink ctx.frame (sink.exit outline step.id step.inst step.following)
      (if step.inst.kind.isJump then step.inst.kind.uses else []) (exitCode ctx step) := by
  rcases hjump : step.inst.kind.isJump with _ | _
  · have hcode : sink.exit outline step.id step.inst step.following =
        step.inst.next.elim (do sink.instr .leave; sink.instr .ret)
          (sink.onward outline step.following) := by
      rw [Sink.exit]
      cases hkind : step.inst.kind with
      | jump cond => rw [hkind] at hjump; cases hjump
      | _ => cases step.inst.next <;> rfl
    rw [hcode, exitCode_of_isJump_eq_false hjump]
    rcases step.inst.next with _ | next
    · exact (instr .leave).andThen (instr .ret)
    · exact onward h step.following next
  · obtain ⟨cond, hkind⟩ := InstKind.exists_jump hjump
    rw [Sink.exit, exitCode, hkind, h.name_eq]
    rcases step.inst.next with _ | onFalse
    · exact stop _ _
    rcases step.inst.onTrue with _ | onTrue
    · exact stop _ _
    exact congr ((load .r10 cond).andThen ((instr _).andThen
      ((branch h .je onFalse).andThen (onward h step.following onTrue)))) rfl rfl

/-- The label of a step, if its place needs one. -/
theorem label (h : outline.Agrees ctx) (id : InstId) :
    Writes sink frame (sink.label outline id) []
      { lines := (ctx.label? id).toList.map .label } := by
  rw [Sink.label, h.lookup_eq]
  rcases ctx.label? id with _ | label
  · exact nothing
  · exact (put (.label label)).andThen nothing

/-- A step mentions the registers of its instruction, whether the instruction itself reads them or
the way on does. -/
theorem step (h : outline.Agrees ctx) (step : Routine.Step) :
    Writes sink ctx.frame
      (do
        sink.label outline step.id
        sink.inst outline step.inst.kind
        sink.exit outline step.id step.inst step.following)
      step.inst.kind.uses (stepCode ctx step) := by
  refine ((label h step.id).andThen ((inst h step.inst.kind).andThen (exit h step))).congr ?_ rfl
  rcases step.inst.kind.isJump with _ | _
  · exact List.append_nil _
  · rfl

/-- Steps in a row, as far as they are inside of the arena. By induction on the order they are laid
out in. -/
theorem steps (h : outline.Agrees ctx) {routine : Routine} {order : List (InstId × Option InstId)}
    (hstray : (routine.stepsOf order).2 = none) :
    Writes sink ctx.frame (sink.steps outline routine order)
      ((routine.stepsOf order).1.flatMap fun step => step.inst.kind.uses)
      (.join ((routine.stepsOf order).1.map (stepCode ctx))) := by
  induction order with
  | nil => exact nothing
  | cons pair rest ih =>
    obtain ⟨id, following⟩ := pair
    rw [Sink.steps]
    rcases hfound : routine.insts[id]? with _ | found
    · rw [Routine.stepsOf, hfound] at hstray
      cases hstray
    rw [Routine.stepsOf, hfound] at hstray ⊢
    have hfirst : Writes sink ctx.frame _ _ _ := step h { id, inst := found, following }
    have hall := hfirst.andThen (ih hstray)
    simp only [bind_assoc] at hall
    exact hall

/-! ## From the arguments on

The entry of a routine gives the first slots to its arguments. The arguments and the steps together
are everything that has slots, and so the slots that were given out in the end are the frame. -/

/-- Moving an argument to its slot mentions its register. -/
theorem bindArg (index : Nat) (arg : Temp) :
    Writes sink ctx.frame (sink.bindArg index arg) [.temp arg]
      (.instrs (bindArg ctx index arg)) := by
  rw [Asm.bindArg]
  refine slotOf ?_
  rcases argRegs[index]? with _ | reg
  · exact (instr _).andThen (instr _)
  · exact instr _

/-- The arguments are moved in order. -/
theorem bindArgs (index : Nat) (args : List Temp) :
    Writes sink ctx.frame (sink.bindArgs index args) (args.map .temp)
      (.instrs (bindArgs ctx index args)) := by
  induction args generalizing index with
  | nil => exact nothing
  | cons arg rest ih =>
    rw [Asm.bindArgs, Fragment.instrs_append]
    exact (bindArg index arg).andThen (ih (index + 1))

/-- A body mentions the arguments, and then what its steps mention: the registers of the routine in
the order of its frame. -/
theorem body (h : outline.Agrees ctx) {routine : Routine} (hstray : routine.stray? = none) :
    Writes sink ctx.frame (sink.body outline routine)
      (routine.args.map .temp ++ routine.steps.flatMap fun step => step.inst.kind.uses)
      (.instrs (Asm.bindArgs ctx 0 routine.args) ++ .join (routine.steps.map (stepCode ctx))) :=
  (bindArgs 0 routine.args).andThen (steps h hstray)

/-- Started without slots, code gives the first uses of what it mentions their slots; if these begin
the frame, then it writes its fragment. -/
theorem run' (h : Writes sink frame code uses fragment) (hframe : firstUses uses <+: frame) :
    code.run' [] = sink.write fragment := by
  have hrun := h [] (by rwa [foldl_enroll_nil])
  change Prod.fst <$> code.run [] = _
  rw [hrun]
  simp

end Writes

/-! ## Labels

All labels of a routine are taken before its first line, one for each place that is the target of a
branch, when it is met as a target for the first time. The state while they are taken is a list of
the places so far with consecutive numbers. -/

/-- Labels that are numbered in a row are found by their places. -/
theorem lookup_zipIdx (known : List InstId) (base : Nat) (id : InstId) :
    (known.zipIdx base).lookup id =
      if id ∈ known then some (base + known.idxOf id) else none := by
  induction known generalizing base with
  | nil => rfl
  | cons other rest ih =>
    rw [List.zipIdx_cons, List.lookup_cons, ih]
    by_cases hid : id = other
    · subst hid
      simp
    · have hne : (id == other) = false := beq_eq_false_iff_ne.mpr hid
      rw [hne, List.idxOf_cons_ne _ (Ne.symm hid)]
      simp only [List.mem_cons, hid, false_or]
      split <;> simp [Nat.add_comm, Nat.add_left_comm]

/-- The number of a new label is what the counter says. -/
theorem run_freshLabel (next : Nat) :
    (freshLabel : Writer m Nat).run.run next = pure (.ok next, next + 1) := by
  rw [freshLabel, ExceptT.run_lift, StateT.run_map]
  exact map_pure _ _

/-- The labels taken so far are numbered from `base` on and the counter has just passed them: taking
another one keeps it so. -/
theorem run_take (known : List InstId) (base : Nat) (target : InstId) :
    (Labels.take (known.zipIdx base) target : Writer m Labels).run.run (base + known.length) =
      pure (.ok ((enroll known target).zipIdx base), base + (enroll known target).length) := by
  rw [Labels.take, lookup_zipIdx, enroll]
  by_cases hmem : target ∈ known
  · simp [hmem]
  · simp only [if_neg hmem, Option.isSome_none, Bool.false_eq_true, if_false, ExceptT.run_bind,
      StateT.run_bind, run_freshLabel, pure_bind, List.zipIdx_append, List.length_append]
    rfl

/-- The targets of one instruction are met one after the other. -/
theorem run_foldlM_take (known : List InstId) (base : Nat) (targets : List InstId) :
    (targets.foldlM Labels.take (known.zipIdx base) : Writer m Labels).run.run
        (base + known.length) =
      pure (.ok ((targets.foldl enroll known).zipIdx base),
        base + (targets.foldl enroll known).length) := by
  induction targets generalizing known with
  | nil => rfl
  | cons target rest ih =>
    rw [List.foldlM_cons, ExceptT.run_bind, StateT.run_bind, run_take, pure_bind, List.foldl_cons]
    exact ih (enroll known target)

/-- The instructions are gone through in the order they are laid out in. By induction on that order;
the list `known` is what was found before. -/
theorem run_takeLabels (routine : Routine) (known : List InstId) (base : Nat)
    (order : List (InstId × Option InstId)) :
    let labelled := ((routine.stepsOf order).1.flatMap fun step =>
      step.inst.branchTargets step.following).foldl enroll known
    (takeLabels routine (known.zipIdx base) order : Writer m Labels).run.run
        (base + known.length) =
      pure (match (routine.stepsOf order).2 with
        | none => .ok (labelled.zipIdx base)
        | some id => .error (.stray routine.name id), base + labelled.length) := by
  induction order generalizing known with
  | nil => rfl
  | cons pair rest ih =>
    obtain ⟨id, following⟩ := pair
    rw [takeLabels, Routine.stepsOf]
    rcases routine.insts[id]? with _ | found
    · rfl
    · simp only [ExceptT.run_bind, StateT.run_bind, run_foldlM_take, pure_bind]
      rw [ih, List.flatMap_cons, List.foldl_append]

/-- A routine takes its labels in the order of `Routine.labelled`. A handle from outside the arena
ends writing after the labels that were needed before it. -/
theorem run_takeLabels_schedule (routine : Routine) (base : Nat) :
    (takeLabels routine [] (withFollowing routine.schedule) : Writer m Labels).run.run base =
      pure (match routine.stray? with
        | none => .ok (routine.labelled.zipIdx base)
        | some id => .error (.stray routine.name id), base + routine.labelled.length) := by
  have hlabels := run_takeLabels (m := m) routine [] base (withFollowing routine.schedule)
  rw [foldl_enroll_nil] at hlabels
  exact hlabels

/-! ## Routines and globals

Putting it together: the labels, the head of the routine with the size of its frame, and the body.
The size is known before the body is written, because it is computed from the routine. -/

/-- What the writer knows of a routine agrees with the context that the assembly is described with.
-/
theorem Outline.agrees_of (constants : List Constant) (base : Nat) (routine : Routine) :
    Outline.Agrees { constants, name := routine.name, labels := routine.labelled.zipIdx base }
      (Context.of constants base routine) where
  constants_eq := rfl
  name_eq := rfl
  lookup_eq := lookup_zipIdx routine.labelled base

/-- The head of a routine is written line by line. -/
theorem write_prologue (routine : Routine) (ctx : Context) (rest : Fragment) :
    sink.write ({ lines := prologue ctx routine } ++ rest) =
      (do sink.heading routine; sink.write (.instrs (bindArgs ctx 0 routine.args) ++ rest)) := by
  have hlines : ({ lines := prologue ctx routine } : Fragment) =
      { lines := [.exported routine.name] } ++ ({ lines := [.entry routine.name] } ++
        ({ lines := [.instr (.enter routine.frameWords)] } ++
          .instrs (bindArgs ctx 0 routine.args))) := rfl
  rw [hlines, Fragment.append_assoc, Fragment.append_assoc, Fragment.append_assoc, Sink.heading]
  simp only [Sink.write_append, Sink.write_line, bind_assoc]

/-- A routine writes `routineCode`, with labels from where the counter is, and leaves the counter
behind them. -/
theorem run_routine (sink : Sink m) (constants : List Constant) (routine : Routine) (base : Nat) :
    (sink.routine constants routine).run.run base =
      (sink.write (routineCode constants base routine)).run.run
        (base + routine.labelled.length) := by
  rw [Sink.routine, ExceptT.run_bind, StateT.run_bind, run_takeLabels_schedule, pure_bind,
    routineCode]
  rcases hstray : routine.stray? with _ | id
  · have hbody : Writes sink _ _ _ _ :=
      Writes.body (Outline.agrees_of constants base routine) hstray
    rw [write_prologue, ← hbody.run' (List.prefix_refl _)]
  · rw [Sink.write_stop]
    rfl

/-- A global is written as its fragment, which may end at once. -/
theorem global_eq (sink : Sink m) (global : GlobalDecl) :
    sink.global global = sink.write (globalCode global) := by
  rw [Sink.global, globalCode]
  split
  · exact (sink.write_line _).symm
  · exact (sink.write_stop _).symm

/-- The globals write the first section of a program, and take no labels. -/
theorem globals_eq (sink : Sink m) (globals : List GlobalDecl) :
    forM globals sink.global = sink.write (.join (globals.map globalCode)) := by
  induction globals with
  | nil => simp [Sink.write, Fragment.join]
  | cons global rest ih =>
    rw [List.forM_cons, List.map_cons, Fragment.join, Sink.write_append, global_eq, ih]

end WordLang.Asm
