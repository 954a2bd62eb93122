import WordLang.Proofs.Lowering.Bodies
import WordLang.Proofs.Simulation.Statements

/-!
# Functions do in a graph what they do in a tree

A function's parameters and locals each have a register of their own. Where these hold what the
function's variables hold, running the function and running its graph come to the same: the same
events in the same order, the same memory, the same value; or a fault in both; or no end in both.

Variables that have not been assigned to hold something, in the tree and in the registers. What that
is does not matter as long as it is the same, so equal contents are asked for at the beginning and
nothing is said about which.

The body is a row of statements between the first instruction of the graph and an open exit
(`FunDef.follows_run`). What is left to do is at the two ends: arguments go into the registers of
the parameters as they go into the parameters (`Param.agrees_assignAll`), and falling off the body's
end is falling off the graph.
-/

namespace WordLang

open WordLang.Graph

/-- A routine does what a function does, whatever the world is like: every variable of the function
has a register of its own, and from equal contents and equal arguments both end in the same way, or
not at all.

That both run on forever in the same cases follows from the two equivalences: a run that ends does
so with a result or with a fault. -/
def FunDef.RunsAs (definition : FunDef) (constants : List Constant) (routine : Routine) : Prop :=
  ∃ home : SymbolId → Temp,
    (∀ id ∈ definition.scope, ∀ id' ∈ definition.scope, home id = home id' → id = id') ∧
    ∀ (world : World) (args : List Word) (locals : SymbolId → Word) (temps : Temp → Word)
      (addrs : Addr → Word) (outside : Outside),
      (∀ id ∈ definition.scope, temps (home id) = locals id) →
      (∀ result,
        (∃ fuel, definition.run world fuel args locals outside = .ok result) ↔
          Leads (routine.step world constants) (routine.enter args temps addrs outside)
            (.done result)) ∧
      ((∃ fuel, definition.run world fuel args locals outside = .error .fault) ↔
        Leads (routine.step world constants) (routine.enter args temps addrs outside) .fault)

section

variable {world : World} {scope : List SymbolId} {g : Builder} {ok : Ty → Bool} {floor : Nat}

/-- Each argument goes to a parameter, and to the register of that parameter. There may be too few
arguments, and then the parameters at the end keep what they had; or too many, which are dropped on
both sides. -/
theorem Param.agrees_assignAll (hg : g.Hosts floor scope) : ∀ (params : List Param) {b b' : Builder}
    {registers : List Temp} {args : List Word} {temps : Temp → Word} {locals : SymbolId → Word},
    Param.lowerAll params b = .ok (registers, b') → (∀ entry ∈ b'.locals, entry ∈ g.locals) →
    g.Agrees temps locals →
    g.Agrees (assignAll registers args temps)
      (assignAll (params.filterMap (·.ident.id?)) args locals)
  | [], _, _, _, _, _, _, h, _, hagrees => by
    obtain ⟨rfl, rfl⟩ := Param.lowerAll_nil_eq_ok.mp h
    exact hagrees
  | param :: rest, b, b', _, args, temps, locals, h, hmem, hagrees => by
    obtain ⟨symbol, hsymbol, others, hrest, rfl⟩ := Param.lowerAll_cons_eq_ok.mp h
    have hids : (param :: rest).filterMap (·.ident.id?) =
        symbol.id :: rest.filterMap (·.ident.id?) := by
      rw [List.filterMap_cons, Ident.id?_of_resolved hsymbol]
    rw [hids]
    cases args with
    | nil => exact hagrees
    | cons arg args =>
      obtain ⟨newer, hlocals, -⟩ := (Param.grows_of_lowerAll rest hrest).locals
      have hentry : (symbol.id, b.nextTemp) ∈ b'.locals := by
        rw [hlocals]
        exact List.mem_append_right _ List.mem_cons_self
      exact Param.agrees_assignAll hg rest hrest hmem (hagrees.update hg (hmem _ hentry) arg)

/-- The variables of a function, and their registers. No two variables share one, since the builder
has given out each register once. -/
theorem Builder.Hosts.exists_home (hg : g.Hosts floor scope) (hscope : g.ids = scope) :
    ∃ home : SymbolId → Temp,
      (∀ id ∈ scope, ∀ id' ∈ scope, home id = home id' → id = id') ∧
      ∀ entry ∈ g.locals, home entry.1 = entry.2 := by
  have hhome : ∀ entry ∈ g.locals, (g.locals.lookup entry.1).getD ⟨0⟩ = entry.2 := by
    intro entry hentry
    rcases hlookup : g.locals.lookup entry.1 with _ | t
    · have hne := List.lookup_eq_none_iff.mp hlookup entry hentry
      exact absurd rfl (bne_iff_ne.mp hne)
    · have hmem := Builder.mem_of_lookup hlookup
      have heq := List.inj_on_of_nodup_map hg.ids hmem hentry rfl
      exact congrArg Prod.snd heq
  refine ⟨fun id => (g.locals.lookup id).getD ⟨0⟩, fun id hid id' hid' heq => ?_, hhome⟩
  rw [← hscope] at hid hid'
  obtain ⟨entry, hentry, rfl⟩ := List.mem_map.mp hid
  obtain ⟨entry', hentry', rfl⟩ := List.mem_map.mp hid'
  have htemps : entry.2 = entry'.2 := by
    rw [← hhome entry hentry, ← hhome entry' hentry']
    exact heq
  exact congrArg Prod.fst (List.inj_on_of_nodup_map hg.temps hentry hentry' htemps)

end

/-- The body of a function, between its first instruction and its last. There is no loop around it,
so a body cannot end by leaving one. -/
theorem FunDef.follows_run {world : World} {g : Builder} {fuel last : Nat} {args : List Word}
    {locals : SymbolId → Word} {s : State} {definition : FunDef}
    (hbody : PerformsAll world definition.scope g none g.routine.start last definition.body.stmts)
    (hstart : g.Has g.routine.start .nop) (hlast : g.target? last .next = none)
    (hpc : s.pc = some g.routine.start)
    (hagrees : g.Agrees s.temps
      (assignAll (definition.params.filterMap (·.ident.id?)) args locals)) :
    Follows (g.step world) fuel s (definition.run world fuel args locals s.outside)
      fun result s' => g.step world s' = .done result := by
  have hs : At g (some g.routine.start)
      ⟨assignAll (definition.params.filterMap (·.ident.id?)) args locals, s.outside⟩ s :=
    ⟨hpc, rfl, hagrees⟩
  obtain ⟨s₁, hstep, hs₁⟩ := hs.nop hstart
  refine .after (.single hstep) ((hbody fuel s₁ _ hs₁).andThen ?_)
  rintro ⟨signal, store⟩ s₂ h₂
  match signal, h₂ with
  | .next, h₂ =>
    refine .here ?_
    rw [Builder.step, Routine.step, h₂.pc_eq, hlast]
    exact congrArg (fun outside => Progress.done (none, outside)) h₂.outside_eq
  | .ret value, h₂ => exact .here h₂
  | .leave, ⟨target, htarget, _⟩ => cases htarget

/-! ## The finished graph

A routine is lowered with the constants that the program has so far, and run with those that it has
in the end. The pool only grows at its end, so the ids that the routine has mean the same. -/

/-- What a function was lowered to, in a program with the given constants. -/
def Builder.withPool (b : Builder) (pool : List Constant) : Builder :=
  { b with constants := pool }

/-- A builder is part of itself with a longer pool. -/
theorem Builder.within_withPool {b : Builder} {pool : List Constant}
    (hpool : b.constants <+: pool) :
    b.Within (b.withPool pool) :=
  ⟨fun _ _ h => h, fun _ _ _ h => h, hpool, [], rfl, nofun⟩

/-- What a function's body was lowered to has the function's variables, and a register for each. All
of them have different ids, from the first parameter to the last local in the last block. -/
theorem FunDef.LowersBody.hosts {definition : FunDef} {b b' : Builder} {last : InstId} {floor : Nat}
    (h : definition.LowersBody b last b') (hdistinct : Distinct floor definition.scope)
    (pool : List Constant) : (b'.withPool pool).Hosts floor definition.scope := by
  obtain ⟨hids, hseparated⟩ := h.declares
  have hnodup : b'.ids.Nodup := hids ▸ hdistinct.nodup
  refine ⟨hdistinct.floor_le, fun entry hentry => ?_, hnodup, hseparated.nodup⟩
  rw [← hids]
  exact List.mem_map_of_mem hentry

/-- A function whose names are in scope runs as the routine that it was lowered to, in a program
whose pool has grown since. -/
theorem FunDef.runsAs_of_lower {ok : Ty → Bool} {definition : FunDef}
    {constants pool final : List Constant} {routine : Routine} (hscoped : definition.Scoped ok)
    (h : definition.lower constants = .ok (routine, pool)) (hfinal : pool <+: final) :
    definition.RunsAs final routine := by
  obtain ⟨-, floor, hparams, hbody⟩ := hscoped
  obtain ⟨symbol, -, registers, b₁, hregisters, last, b₂, hlower, rfl, rfl⟩ :=
    FunDef.lower_eq_ok.mp h
  have hlowers := FunDef.lowersBody_of_params hregisters hlower
  have hhosts := hlowers.hosts (FunDef.distinct_scope hparams hbody) final
  have hknows : (b₁.withArgs registers).Knows (Param.declaresAll definition.params) := by
    intro id hid
    rw [hlowers.ids_eq]
    exact hid
  obtain ⟨home, hinjective, hhome⟩ := hhosts.exists_home hlowers.declares.1
  refine ⟨home, hinjective, fun world args locals temps addrs outside hequal => ?_⟩
  refine Follows.ends_iff fun fuel => ?_
  -- running the routine is running the finished graph
  change Follows ((b₂.withPool final).step world) _ _ _ _
  obtain ⟨hw₁, hperforms⟩ := Stmt.performsAll hhosts definition.body.stmts hlowers.separated hknows
    hbody hlowers.spans_start hlower (Builder.within_withPool hfinal)
  have hentry := hw₁.has_start hlowers.insts_eq hlowers.start_eq
  rw [← hlowers.start_kept] at hentry hperforms
  have hlast : (b₂.withPool final).target? last .next = none := hlowers.spans.exit_open.unset .next
  have hagrees : (b₂.withPool final).Agrees temps locals := by
    intro entry hmem
    rw [← hhome entry hmem]
    exact hequal entry.1 (hhosts.declared entry hmem)
  have hargs : b₂.routine.args = registers := hlowers.spans.grows.args_eq
  refine FunDef.follows_run hperforms hentry hlast rfl ?_
  rw [Routine.enter, hargs]
  exact Param.agrees_assignAll hhosts definition.params hregisters
    (fun entry hmem => hw₁.mem_locals hmem) hagrees

end WordLang
