import WordLang.Proofs.Lowering.Locals
import WordLang.Proofs.Lowering.Soundness
import WordLang.Proofs.Semantics.Source

/-!
# Where the body of a function starts

A function is lowered in two parts: first each parameter gets a register, then come the statements
of the body. What holds in between is the same for whatever is shown of the statements: the locals
are the parameters, and the arena has its first instruction and no other. At the end the locals are
all that the function declares.

Simulation, coverage and the counts of registers all start from here. They differ in what they say
of statements, and would otherwise each have to take apart how a function is lowered.
-/

namespace WordLang

/-- The body of a function is lowered from `b`, where only its parameters are known, up to `last`.
The first instruction is a `nop`, to which nothing else has been linked. -/
structure FunDef.LowersBody (definition : FunDef) (b : Builder) (last : InstId) (b' : Builder) :
    Prop where
  separated : b.Separated
  ids_eq : b.ids = Param.declaresAll definition.params
  insts_eq : b.routine.insts = #[{ kind := .nop }]
  start_eq : b.routine.start = 0
  lowers : Stmt.lowerAll none b.routine.start definition.body.stmts b = .ok (last, b')

/-- When its parameters are lowered, so is the body of a function. -/
theorem FunDef.lowersBody_of_params {definition : FunDef} {constants : List Constant}
    {name : String} {registers : List Temp} {b b' : Builder} {last : InstId}
    (hparams : Param.lowerAll definition.params (.start constants name definition.ty) =
      .ok (registers, b))
    (hbody : Stmt.lowerAll none b.routine.start definition.body.stmts (b.withArgs registers) =
      .ok (last, b')) :
    definition.LowersBody (b.withArgs registers) last b' := by
  have hstart : (Builder.start constants name definition.ty).Separated :=
    ⟨fun _ hmem => absurd hmem List.not_mem_nil, List.nodup_nil⟩
  have hdeclares := Param.declaresAll_of_lowerAll definition.params hstart hparams
  obtain ⟨-, -, hinsts, hzero, -⟩ :=
    Param.keeps_of_lowerAll definition.params hstart.settled hparams
  exact {
    separated := hdeclares.separated.of_locals_eq rfl (Nat.le_refl _)
    ids_eq := hdeclares.ids_eq.trans (List.append_nil _)
    insts_eq := hinsts
    start_eq := hzero
    lowers := hbody }

/-- A function that was lowered had its body lowered, and the routine is what that has left. -/
theorem FunDef.exists_lowersBody {definition : FunDef} {constants pool : List Constant}
    {routine : Routine} (h : definition.lower constants = .ok (routine, pool)) :
    ∃ b last b', definition.LowersBody b last b' ∧ routine = b'.routine := by
  obtain ⟨symbol, -, registers, b, hparams, last, b', hbody, rfl, -⟩ := FunDef.lower_eq_ok.mp h
  exact ⟨b.withArgs registers, last, b', FunDef.lowersBody_of_params hparams hbody, rfl⟩

namespace FunDef.LowersBody

variable {definition : FunDef} {b b' : Builder} {last : InstId}

/-- The first instruction is a part of its own. -/
theorem spans_start (h : definition.LowersBody b last b') :
    b.emptied.Spans none b.routine.start b.routine.start b :=
  Builder.spans_start h.insts_eq h.start_eq

/-- With the body after it, the first instruction is the whole arena. -/
theorem spans (h : definition.LowersBody b last b') :
    b.emptied.Spans none b.routine.start last b' :=
  Stmt.spans_of_lowerAll definition.body.stmts h.separated.settled h.spans_start h.lowers

/-- The routine still starts where it started. -/
theorem start_kept (h : definition.LowersBody b last b') :
    b'.routine.start = b.routine.start :=
  h.spans.grows.start_eq

/-- In the end everything that the function declares has a register of its own. -/
theorem declares (h : definition.LowersBody b last b') :
    b'.ids = definition.scope ∧ b'.Separated := by
  have hbody := Stmt.declaresAll_of_lowerAll definition.body.stmts h.separated h.lowers
  refine ⟨?_, hbody.separated⟩
  rw [hbody.ids_eq, h.ids_eq, FunDef.scope]

end FunDef.LowersBody

/-- Where the names of a function are in scope, its declarations are all different, and none of them
is global. -/
theorem FunDef.distinct_scope {ok : Ty → Bool} {floor : Nat} {definition : FunDef}
    (hparams : Param.ScopedAll floor [] definition.params)
    (hbody : Stmt.ScopedAll ok floor (Param.declaresAll definition.params) definition.body.stmts) :
    Distinct floor definition.scope := by
  have hdistinct := Param.distinct_declaresAll definition.params hparams .nil
  rw [List.append_nil] at hdistinct
  exact Stmt.distinct_declaresAll definition.body.stmts hbody hdistinct

end WordLang
