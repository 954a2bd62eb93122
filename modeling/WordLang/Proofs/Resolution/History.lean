import Mathlib.Data.List.Basic
import WordLang.Proofs.Resolution.Orderly

/-!
# Histories of a symbol table

What a symbol table answers, said by its history alone. A history is the row of the operations that
were run, each with its answer; it starts with the declarations of the run-time functions, which are
as good as any other. A declaration that succeeded is still good if its scope is still open, that
is, if the operations after it never close more scopes than they open. How many more they open is
how far out the scope is (`Bound`), and a use means the declaration that is the least far out
(`Means`).

The scopes of the table, counted from the innermost, hold exactly the declarations that are so far
out (`Recalls`). Each operation keeps this; so a table does what its history says (`Refines`), for
every sequence of operations in which no more scopes are closed than are open.

Histories grow at their end. So the first thing to know is how one more event changes what is good
(`bound_concat`): opening a scope puts everything one scope further out, closing one drops what was
declared in it and brings the rest closer, and a declaration that succeeds adds itself at depth
zero. The second thing is how the scopes of the table change with each operation (`held?`). The two
lists of cases match, and that is the step of the invariant (`Recalls.step`); a run is then an
induction over the operations (`Recalls.run`).

Which sequences can be run at all is a separate matter, and does not depend on names. A run works on
the scopes at the top and leaves the others alone, so after a balanced sequence the table has the
scopes it had (`exists_run_block`).
-/

namespace WordLang.SymbolTable

/-! ## Operations and events -/

/-- An operation on a symbol table. -/
inductive Op where
  | enter
  | exit
  | add (pos : Position) (name : String) (ty : Ty)
  | lookup (pos : Position) (name : String)

/-- An operation that was run, with the symbol it answered with if it has an answer. -/
inductive Event where
  | enter
  | exit
  | add (pos : Position) (name : String) (ty : Ty) (symbol : Symbol)
  | lookup (pos : Position) (name : String) (symbol : Symbol)

namespace Event

/-- The operation that was run. -/
def op : Event → Op
  | .enter => .enter
  | .exit => .exit
  | .add pos name ty _ => .add pos name ty
  | .lookup pos name _ => .lookup pos name

/-- The symbol that an operation answered with. -/
def answer? : Event → Option Symbol
  | .add _ _ _ symbol => some symbol
  | .lookup _ _ symbol => some symbol
  | _ => none

/-- The id of a symbol that was made for the answer. A use that succeeds makes none. -/
def madeId? : Event → Option SymbolId
  | .add _ _ _ symbol => some symbol.id
  | .lookup _ _ symbol => if symbol.isFaulty then some symbol.id else none
  | _ => none

/-- The problem that an operation reported. -/
def problem? : Event → Option Diagnostic
  | .add pos name _ symbol => if symbol.isFaulty then some (.duplicate pos name) else none
  | .lookup pos name symbol => if symbol.isFaulty then some (.unresolved pos name) else none
  | _ => none

end Event

/-- Runs an operation. The global scope cannot be closed. -/
def step (table : SymbolTable) : Op → Option (Event × SymbolTable)
  | .enter => some (.enter, table.enter)
  | .exit => table.exit?.map fun table' => (.exit, table')
  | .add pos name ty =>
    some (.add pos name ty (table.add pos name ty).1, (table.add pos name ty).2)
  | .lookup pos name => some (.lookup pos name (table.lookup pos name).1, (table.lookup pos name).2)

/-- Runs operations one after the other. -/
def run (table : SymbolTable) : List Op → Option (List Event × SymbolTable)
  | [] => some ([], table)
  | op :: rest =>
    (table.step op).bind fun (event, mid) =>
      (mid.run rest).map fun (events, last) => (event :: events, last)

/-! ## What a history says -/

/-- How many scopes are open after some operations, if `depth` are open before them. There is no
answer if a scope is closed that was not open. -/
def openScopes : Nat → List Op → Option Nat
  | depth, [] => some depth
  | depth, .enter :: rest => openScopes (depth + 1) rest
  | 0, .exit :: _ => none
  | depth + 1, .exit :: rest => openScopes depth rest
  | depth, .add _ _ _ :: rest => openScopes depth rest
  | depth, .lookup _ _ :: rest => openScopes depth rest

/-- A name was declared with success in a scope that is still open, and `depth` scopes that were
opened since are open too. -/
def Bound (history : List Event) (name : String) (depth : Nat) (symbol : Symbol) : Prop :=
  ∃ before pos ty after, history = before ++ .add pos name ty symbol :: after ∧
    symbol.fault = none ∧ openScopes 0 (after.map Event.op) = some depth

/-- The declaration that a use of a name means: that of the innermost scope with one. -/
def Means (history : List Event) (name : String) (symbol : Symbol) : Prop :=
  ∃ depth, Bound history name depth symbol ∧
    ∀ further < depth, ∀ other, ¬ Bound history name further other

/-- The declarations of the run-time functions. -/
def runtimeEvents (nextId : Nat) : List Event :=
  (builtins.zipIdx nextId).map fun ((name, ty), id) => .add {} name ty (.declared id name ty)

/-- A table does what a history says. -/
structure Refines (history : List Event) (table : SymbolTable) : Prop where
  /-- a use gets the symbol of the declaration it means, and changes nothing -/
  found : ∀ pos name symbol, Means history name symbol → table.lookup pos name = (symbol, table)
  /-- a use that means no declaration gets a faulty symbol -/
  missing : ∀ pos name, (∀ symbol, ¬ Means history name symbol) →
    (table.lookup pos name).1 = .faulty table.nextId name .unresolved
  /-- a declaration fails if the innermost scope has one of the name already -/
  refused : ∀ pos name ty, (∃ symbol, Bound history name 0 symbol) →
    (table.add pos name ty).1 = .faulty table.nextId name .duplicate
  /-- otherwise it succeeds -/
  accepted : ∀ pos name ty, (∀ symbol, ¬ Bound history name 0 symbol) →
    (table.add pos name ty).1 = .declared table.nextId name ty
  /-- a failure changes no binding -/
  kept : ∀ op event table', table.step op = some (event, table') → event.problem?.isSome = true →
    table'.scopes = table.scopes
  /-- a symbol has a type or a fault -/
  typed : ∀ event ∈ history, ∀ symbol, event.answer? = some symbol →
    (symbol.ty.isSome = true ↔ symbol.fault = none)
  /-- no two symbols that were made have the same id -/
  distinct : (history.filterMap Event.madeId?).Nodup
  /-- each failure was reported once -/
  reported : table.errors = history.filterMap Event.problem?
  /-- what happens in a scope is gone when it is closed -/
  restored : ∀ inside, openScopes 0 inside = some 0 →
    ∃ events table', table.run (.enter :: (inside ++ [.exit])) = some (events, table') ∧
      ∀ name, table'.find? name = table.find? name

/-- A run of several operations is a step and then a run of the others. -/
theorem run_cons_eq_some {table table' : SymbolTable} {op : Op} {ops : List Op}
    {events : List Event} :
    table.run (op :: ops) = some (events, table') ↔
      ∃ event mid later, table.step op = some (event, mid) ∧ mid.run ops = some (later, table') ∧
        events = event :: later := by
  constructor
  · intro h
    obtain ⟨⟨event, mid⟩, hstep, h⟩ := Option.bind_eq_some_iff.mp h
    obtain ⟨⟨later, last⟩, hrest, hlast⟩ := Option.map_eq_some_iff.mp h
    cases hlast
    exact ⟨event, mid, later, hstep, hrest, rfl⟩
  · rintro ⟨event, mid, later, hstep, hrest, rfl⟩
    refine Option.bind_eq_some_iff.mpr ⟨(event, mid), hstep, ?_⟩
    exact Option.map_eq_some_iff.mpr ⟨(later, table'), hrest, rfl⟩

/-! ## Open scopes

How many scopes are open is a matter of counting. A sequence can be counted in two parts. -/

/-- The scopes that are open after two sequences in a row. -/
theorem openScopes_append (depth : Nat) (ops rest : List Op) :
    openScopes depth (ops ++ rest) = (openScopes depth ops).bind fun less =>
      openScopes less rest := by
  fun_induction openScopes depth ops with
  | case1 => rfl
  | case2 depth ops ih => exact ih
  | case3 => rfl
  | case4 depth ops ih => exact ih
  | case5 depth pos name ty ops ih => exact ih
  | case6 depth pos name ops ih => exact ih

/-! ## One more event

The declarations that are good after one more event, for each kind of event. -/

section Bound

variable {history : List Event} {event : Event} {name : String} {depth : Nat} {symbol : Symbol}

/-- A declaration that is good after an event is made by it, or was good before. -/
theorem bound_concat :
    Bound (history ++ [event]) name depth symbol ↔
      (∃ pos ty, event = .add pos name ty symbol ∧ symbol.fault = none ∧ depth = 0) ∨
        ∃ further, Bound history name further symbol ∧
          openScopes further [event.op] = some depth := by
  constructor
  · rintro ⟨before, pos, ty, after, hsplit, hfault, hopen⟩
    rcases List.eq_nil_or_concat' after with rfl | ⟨after, last, rfl⟩
    · cases (List.append_inj' hsplit rfl).2
      exact .inl ⟨pos, ty, rfl, hfault, (Option.some.inj hopen).symm⟩
    · rw [← List.cons_append, ← List.append_assoc] at hsplit
      obtain ⟨rfl, hlast⟩ := List.append_inj' hsplit rfl
      cases hlast
      rw [List.map_append, openScopes_append, Option.bind_eq_some_iff] at hopen
      obtain ⟨further, hfurther, hlast⟩ := hopen
      exact .inr ⟨further, ⟨before, pos, ty, after, rfl, hfault, hfurther⟩, hlast⟩
  · rintro (⟨pos, ty, rfl, hfault, rfl⟩ | ⟨further,
      ⟨before, pos, ty, after, rfl, hfault, hopen⟩, hlast⟩)
    · exact ⟨history, pos, ty, [], rfl, hfault, rfl⟩
    · refine ⟨before, pos, ty, after ++ [event], by simp, hfault, ?_⟩
      rw [List.map_append, openScopes_append, hopen]
      exact hlast

/-- Opening a scope puts every good declaration one scope further out. -/
theorem bound_enter :
    Bound (history ++ [.enter]) name depth symbol ↔
      ∃ less, depth = less + 1 ∧ Bound history name less symbol := by
  rw [bound_concat]
  constructor
  · rintro (⟨_, _, h, -⟩ | ⟨further, hbound, hopen⟩)
    · cases h
    · exact ⟨further, (Option.some.inj hopen).symm, hbound⟩
  · rintro ⟨less, rfl, hbound⟩
    exact .inr ⟨less, hbound, rfl⟩

/-- Closing a scope brings those further out one scope closer; those at depth zero are gone. -/
theorem bound_exit :
    Bound (history ++ [.exit]) name depth symbol ↔ Bound history name (depth + 1) symbol := by
  rw [bound_concat]
  constructor
  · rintro (⟨_, _, h, -⟩ | ⟨_ | further, hbound, hopen⟩)
    · cases h
    · cases hopen
    · cases hopen
      exact hbound
  · intro hbound
    exact .inr ⟨depth + 1, hbound, rfl⟩

/-- A use changes nothing. -/
theorem bound_lookup {pos : Position} {used : String} {found : Symbol} :
    Bound (history ++ [.lookup pos used found]) name depth symbol ↔
      Bound history name depth symbol := by
  rw [bound_concat]
  constructor
  · rintro (⟨_, _, h, -⟩ | ⟨further, hbound, hopen⟩)
    · cases h
    · cases hopen
      exact hbound
  · intro hbound
    exact .inr ⟨depth, hbound, rfl⟩

/-- A declaration that succeeds is good at depth zero, and what was good before still is. -/
theorem bound_add {pos : Position} {declared : String} {ty : Ty} {answer : Symbol} :
    Bound (history ++ [.add pos declared ty answer]) name depth symbol ↔
      (answer.fault = none ∧ depth = 0 ∧ declared = name ∧ answer = symbol) ∨
        Bound history name depth symbol := by
  rw [bound_concat]
  constructor
  · rintro (⟨_, _, h, hfault, rfl⟩ | ⟨further, hbound, hopen⟩)
    · cases h
      exact .inl ⟨hfault, rfl, rfl, rfl⟩
    · cases hopen
      exact .inr hbound
  · rintro (⟨hfault, rfl, rfl, rfl⟩ | hbound)
    · exact .inl ⟨pos, ty, rfl, hfault, rfl⟩
    · exact .inr ⟨depth, hbound, rfl⟩

end Bound

/-! ## The scopes hold what the history says

The invariant between a table and its history. Scopes are numbered from the innermost one, as depths
are, so that they can be compared. -/

/-- The declaration of a name that the scope with the given number of scopes inside it has. -/
def held? (table : SymbolTable) (depth : Nat) (name : String) : Option Symbol :=
  table.scopes[depth]?.bind (List.lookup name)

section Held

variable {table table' : SymbolTable} {name : String} {symbol : Symbol}

/-- What is held depends on the scopes alone. -/
theorem held?_congr (h : table'.scopes = table.scopes) : table'.held? = table.held? := by
  funext depth name
  rw [held?, h, held?]

/-- The innermost scope is the current one. -/
theorem held?_zero (table : SymbolTable) (name : String) :
    table.held? 0 name = table.current.lookup name := by
  rw [held?, table.scopes_eq_cons]
  rfl

/-- In a new scope everything is held one scope further out. -/
theorem held?_enter_succ (table : SymbolTable) (depth : Nat) (name : String) :
    table.enter.held? (depth + 1) name = table.held? depth name := rfl

/-- A scope can be closed unless it is the global one. -/
theorem exit?_eq_some_iff :
    table.exit? = some table' ↔ table.inner ≠ [] ∧ table' = table.leave := by
  unfold exit?
  split
  · next hinner =>
    rw [List.isEmpty_iff] at hinner
    simp [hinner]
  · next hinner =>
    rw [List.isEmpty_iff] at hinner
    simp [hinner, eq_comm]

/-- Closing a scope drops the innermost one. -/
theorem scopes_leave (h : table.inner ≠ []) : table.leave.scopes = table.scopes.tail := by
  rcases hinner : table.inner with _ | ⟨scope, rest⟩
  · exact absurd hinner h
  · simp [leave, scopes, hinner]

/-- What is left is held one scope closer. -/
theorem held?_leave (h : table.inner ≠ []) (depth : Nat) (name : String) :
    table.leave.held? depth name = table.held? (depth + 1) name := by
  rw [held?, scopes_leave h, List.getElem?_tail, held?]

/-- A symbol that is bound is held by the innermost scope under its own name, and hides what the
scope held under that name before. -/
theorem held?_bind (table : SymbolTable) (symbol : Symbol) (depth : Nat) (name : String) :
    (table.bind symbol).held? depth name =
      if depth = 0 ∧ name = symbol.name then some symbol else table.held? depth name := by
  unfold held?
  rw [scopes_bind]
  cases depth with
  | zero =>
    rw [List.getElem?_cons_zero, Option.bind_some, List.lookup_cons]
    by_cases hname : name = symbol.name
    · simp [hname]
    · rw [beq_false_of_ne hname, if_neg fun h => hname h.2, table.scopes_eq_cons]
      rfl
  | succ depth =>
    rw [if_neg fun h => Nat.succ_ne_zero depth h.1, List.getElem?_cons_succ, List.getElem?_tail]

/-- The innermost declaration is found. -/
theorem find?_eq_some_iff :
    table.find? name = some symbol ↔
      ∃ depth, table.held? depth name = some symbol ∧
        ∀ further < depth, table.held? further name = none := by
  rw [find?, List.findSome?_eq_some_iff]
  constructor
  · rintro ⟨inside, scope, around, hsplit, hscope, hinside⟩
    refine ⟨inside.length, ?_, fun further hlt => ?_⟩
    · simp [held?, hsplit, hscope]
    · rw [held?, hsplit, List.getElem?_append_left hlt, List.getElem?_eq_getElem hlt]
      exact hinside _ (List.getElem_mem hlt)
  · rintro ⟨depth, hheld, hnone⟩
    obtain ⟨scope, hscope, hlookup⟩ := Option.bind_eq_some_iff.mp hheld
    obtain ⟨hlt, rfl⟩ := List.getElem?_eq_some_iff.mp hscope
    refine ⟨table.scopes.take depth, table.scopes[depth], table.scopes.drop (depth + 1),
      ?_, hlookup, ?_⟩
    · rw [List.getElem_cons_drop, List.take_append_drop]
    · intro inside hinside
      obtain ⟨further, hfurther, rfl⟩ := List.getElem_of_mem hinside
      rw [List.length_take, Nat.lt_min] at hfurther
      have hnone := hnone further hfurther.1
      rw [held?, List.getElem?_eq_getElem hfurther.2] at hnone
      rw [List.getElem_take]
      exact hnone

end Held

/-- What a table has in common with its history. The scopes hold the declarations that are still
good; every id that was given is below the next one. -/
structure Recalls (history : List Event) (table : SymbolTable) : Prop where
  held : ∀ depth name symbol,
    table.held? depth name = some symbol ↔ Bound history name depth symbol
  typed : ∀ event ∈ history, ∀ symbol, event.answer? = some symbol →
    (symbol.ty.isSome = true ↔ symbol.fault = none)
  below : ∀ id ∈ history.filterMap Event.madeId?, id.index < table.nextId
  distinct : (history.filterMap Event.madeId?).Nodup
  reported : table.errors = history.filterMap Event.problem?

namespace Recalls

variable {history : List Event} {event : Event} {table table' : SymbolTable} {name : String}
  {symbol : Symbol}

/-- A table with nothing in it has nothing in common with anything, which is what its history says.
-/
theorem empty (nextId : Nat) :
    Recalls [] { globals := [], inner := [], nextId := nextId, errors := [] } where
  held depth name symbol := by
    constructor
    · intro hheld
      obtain ⟨scope, hscope, hlookup⟩ := Option.bind_eq_some_iff.mp hheld
      have hempty : scope = [] := List.mem_singleton.mp (List.mem_of_getElem? hscope)
      rw [hempty] at hlookup
      cases hlookup
    · rintro ⟨before, pos, ty, after, hsplit, -⟩
      exact absurd hsplit.symm (List.append_ne_nil_of_right_ne_nil _ (List.cons_ne_nil _ _))
  typed _ hmem := absurd hmem List.not_mem_nil
  below _ hmem := absurd hmem List.not_mem_nil
  distinct := List.nodup_nil
  reported := rfl

/-- One more event, which makes a symbol with the next id or none at all. -/
theorem concat (h : Recalls history table)
    (hheld : ∀ depth name symbol,
      table'.held? depth name = some symbol ↔ Bound (history ++ [event]) name depth symbol)
    (htyped : ∀ symbol, event.answer? = some symbol →
      (symbol.ty.isSome = true ↔ symbol.fault = none))
    (hmade : event.madeId? = none ∧ table'.nextId = table.nextId ∨
      event.madeId? = some ⟨table.nextId⟩ ∧ table'.nextId = table.nextId + 1)
    (herrors : table'.errors = table.errors ++ event.problem?.toList) :
    Recalls (history ++ [event]) table' where
  held := hheld
  typed := List.forall_mem_append.mpr ⟨h.typed, List.forall_mem_singleton.mpr htyped⟩
  below := by
    rw [List.filterMap_append, List.forall_mem_append]
    -- an event that makes no symbol leaves the next number where it is
    rcases hmade with ⟨hmade, hnext⟩ | ⟨hmade, hnext⟩
    · rw [hnext]
      refine ⟨h.below, fun id hid => ?_⟩
      simp [hmade] at hid
    · rw [hnext]
      refine ⟨fun id hid => Nat.lt_succ_of_lt (h.below id hid), fun id hid => ?_⟩
      obtain rfl : id = ⟨table.nextId⟩ := by simpa [hmade] using hid
      exact Nat.lt_succ_self _
  distinct := by
    rw [List.filterMap_append, List.nodup_append]
    rcases hmade with ⟨hmade, -⟩ | ⟨hmade, -⟩
    · simpa [hmade] using h.distinct
    · refine ⟨h.distinct, by simp [hmade], fun id hid other hother heq => ?_⟩
      obtain rfl : other = ⟨table.nextId⟩ := by simpa [hmade] using hother
      exact absurd (h.below id hid) (by rw [heq]; exact Nat.lt_irrefl _)
  reported := by
    rw [herrors, h.reported, List.filterMap_append]
    rcases event.problem?.eq_none_or_eq_some with hnone | ⟨problem, hsome⟩
    · simp [hnone]
    · simp [hsome]

/-- Opening a scope. -/
theorem enter (h : Recalls history table) : Recalls (history ++ [.enter]) table.enter := by
  refine h.concat (fun depth name symbol => ?_) (fun _ hanswer => nomatch hanswer) (.inl ⟨rfl, rfl⟩)
    (List.append_nil _).symm
  rw [bound_enter]
  cases depth with
  | zero =>
    constructor
    · intro hheld
      cases hheld
    · rintro ⟨less, hless, -⟩
      cases hless
  | succ depth =>
    rw [held?_enter_succ, h.held]
    constructor
    · intro hbound
      exact ⟨depth, rfl, hbound⟩
    · rintro ⟨less, hless, hbound⟩
      cases hless
      exact hbound

/-- Closing one that is not the global scope. -/
theorem exit (h : Recalls history table) (hinner : table.inner ≠ []) :
    Recalls (history ++ [.exit]) table.leave := by
  refine h.concat (fun depth name symbol => ?_) (fun _ hanswer => nomatch hanswer) (.inl ⟨rfl, rfl⟩)
    (List.append_nil _).symm
  rw [held?_leave hinner, h.held, bound_exit]

/-- A declaration fails exactly when the innermost scope has one of the name. -/
theorem add_eq (h : Recalls history table) (pos : Position) (name : String) (ty : Ty) :
    (∃ symbol, Bound history name 0 symbol) ∧
        table.add pos name ty =
          (.faulty table.nextId name .duplicate, table.skipId.report (.duplicate pos name)) ∨
      (∀ symbol, ¬ Bound history name 0 symbol) ∧
        table.add pos name ty =
          (.declared table.nextId name ty, table.skipId.bind (.declared table.nextId name ty)) := by
  unfold SymbolTable.add
  split
  · next hsome =>
    obtain ⟨symbol, hsymbol⟩ := Option.isSome_iff_exists.mp hsome
    rw [← held?_zero, h.held] at hsymbol
    exact .inl ⟨⟨symbol, hsymbol⟩, rfl⟩
  · next hnone =>
    refine .inr ⟨fun symbol hbound => hnone ?_, rfl⟩
    rw [← h.held, held?_zero] at hbound
    exact Option.isSome_of_eq_some hbound

/-- Declaring a name, whether or not that succeeds. -/
theorem add (h : Recalls history table) (pos : Position) (name : String) (ty : Ty) :
    Recalls (history ++ [.add pos name ty (table.add pos name ty).1])
      (table.add pos name ty).2 := by
  rcases h.add_eq pos name ty with ⟨-, hadd⟩ | ⟨hnew, hadd⟩
  · rw [hadd]
    refine h.concat (fun depth other symbol => ?_) (fun symbol hsymbol => ?_) (.inr ⟨rfl, rfl⟩) rfl
    · rw [bound_add, ← h.held, held?_congr (scopes_report _ _), held?_congr (scopes_skipId _)]
      simp [Symbol.faulty]
    · cases hsymbol
      simp [Symbol.faulty]
  · rw [hadd]
    refine h.concat (fun depth other symbol => ?_) (fun symbol hsymbol => ?_) (.inr ⟨rfl, ?_⟩) ?_
    · rw [bound_add, held?_bind, held?_congr (scopes_skipId _), ← h.held]
      by_cases hhere : depth = 0 ∧ other = (Symbol.declared table.nextId name ty).name
      · obtain ⟨rfl, hname⟩ := hhere
        obtain rfl : other = name := hname
        -- the scope had no declaration of the name before
        have hnone : table.held? 0 other = none := by
          refine Option.eq_none_iff_forall_ne_some.mpr fun symbol hheld => ?_
          exact hnew symbol ((h.held 0 other symbol).mp hheld)
        simp [Symbol.declared, hnone]
      · rw [if_neg hhere]
        constructor
        · exact .inr
        · rintro (⟨-, hdepth, hname, -⟩ | hheld)
          · exact absurd ⟨hdepth, hname.symm⟩ hhere
          · exact hheld
    · cases hsymbol
      simp [Symbol.declared]
    · rw [nextId_bind]
      rfl
    · rw [errors_bind]
      exact (List.append_nil _).symm

/-- A name is found exactly if the history says what it means. -/
theorem find?_eq_some_iff (h : Recalls history table) :
    table.find? name = some symbol ↔ Means history name symbol := by
  rw [SymbolTable.find?_eq_some_iff]
  refine exists_congr fun depth => and_congr (h.held depth name symbol) ?_
  refine forall₂_congr fun further _ => ?_
  rw [Option.eq_none_iff_forall_ne_some]
  exact forall_congr' fun other => not_congr (h.held further name other)

/-- What a use finds was declared without a fault, and has a type. -/
theorem found_typed (h : Recalls history table) (hmeans : Means history name symbol) :
    symbol.fault = none ∧ (symbol.ty.isSome = true ↔ symbol.fault = none) := by
  obtain ⟨depth, ⟨before, pos, ty, after, rfl, hfault, -⟩, -⟩ := hmeans
  have hmem : Event.add pos name ty symbol ∈ before ++ .add pos name ty symbol :: after :=
    List.mem_append_right _ List.mem_cons_self
  exact ⟨hfault, h.typed _ hmem symbol rfl⟩

/-- Using a name, whether or not it is found. -/
theorem lookup (h : Recalls history table) (pos : Position) (name : String) :
    Recalls (history ++ [.lookup pos name (table.lookup pos name).1])
      (table.lookup pos name).2 := by
  unfold SymbolTable.lookup
  rcases hfind : table.find? name with _ | symbol
  · refine h.concat (fun depth other symbol => ?_) (fun symbol hsymbol => ?_) (.inr ⟨rfl, rfl⟩) rfl
    · rw [bound_lookup, ← h.held, held?_congr (scopes_report _ _), held?_congr (scopes_skipId _)]
    · cases hsymbol
      simp [Symbol.faulty]
  · obtain ⟨hfault, htyped⟩ := h.found_typed (h.find?_eq_some_iff.mp hfind)
    have hfaulty : symbol.isFaulty = false := by rw [Symbol.isFaulty, hfault, Option.isSome_none]
    refine h.concat (fun depth other symbol => ?_) (fun other hother => ?_) (.inl ⟨?_, rfl⟩) ?_
    · rw [bound_lookup, h.held]
    · cases hother
      exact htyped
    · simp [Event.madeId?, hfaulty]
    · simp [Event.problem?, hfaulty]

/-- An operation keeps what a table has in common with its history. -/
theorem step (h : Recalls history table) {op : Op} (hstep : table.step op = some (event, table')) :
    Recalls (history ++ [event]) table' := by
  cases op with
  | enter =>
    cases hstep
    exact h.enter
  | exit =>
    obtain ⟨last, hexit, hlast⟩ := Option.map_eq_some_iff.mp hstep
    cases hlast
    obtain ⟨hinner, rfl⟩ := exit?_eq_some_iff.mp hexit
    exact h.exit hinner
  | add pos name ty =>
    cases hstep
    exact h.add pos name ty
  | lookup pos name =>
    cases hstep
    exact h.lookup pos name

/-- And so do operations one after the other. -/
theorem run (h : Recalls history table) {ops : List Op} {events : List Event}
    (hrun : table.run ops = some (events, table')) : Recalls (history ++ events) table' := by
  induction ops generalizing history table events with
  | nil =>
    cases hrun
    rwa [List.append_nil]
  | cons op rest ih =>
    obtain ⟨event, mid, later, hstep, hrest, rfl⟩ := run_cons_eq_some.mp hrun
    have hevents := ih (h.step hstep) hrest
    rwa [List.append_assoc] at hevents

end Recalls

/-! ## Which sequences can be run

The only thing that can go wrong is to close the global scope. Scopes are a list, and operations
change it at its front; what is behind the scopes that a sequence opens itself is not touched. -/

section Run

variable {table table' : SymbolTable} {ops : List Op} {depth less : Nat} {top rest : List Scope}

/-- Two runs in a row are a run. -/
theorem run_append {events later : List Event} {mid : SymbolTable} {more : List Op}
    (h : table.run ops = some (events, mid)) (hmore : mid.run more = some (later, table')) :
    table.run (ops ++ more) = some (events ++ later, table') := by
  induction ops generalizing table events with
  | nil =>
    cases h
    exact hmore
  | cons op ops ih =>
    obtain ⟨event, next, rest, hstep, hrest, rfl⟩ := run_cons_eq_some.mp h
    exact run_cons_eq_some.mpr ⟨event, next, rest ++ later, hstep, ih hrest, rfl⟩

/-- With two scopes or more there is one to close. -/
theorem inner_ne_nil (h : table.scopes = top ++ rest) (hlength : 2 ≤ (top ++ rest).length) :
    table.inner ≠ [] := by
  intro hinner
  rw [← h, scopes, hinner] at hlength
  exact absurd hlength (Nat.not_succ_le_self 1)

/-- A declaration changes the innermost scope only. -/
theorem scopes_add (table : SymbolTable) (pos : Position) (name : String) (ty : Ty) :
    ∃ scope, (table.add pos name ty).2.scopes = scope :: table.scopes.tail := by
  rcases table.add_cases pos name ty with ⟨problem, hadd⟩ | hadd
  · rw [hadd]
    exact ⟨_, table.scopes_eq_cons⟩
  · rw [hadd, scopes_bind]
    exact ⟨_, rfl⟩

/-- An operation works on the scopes at the top. -/
theorem exists_step {op : Op} (hopen : openScopes depth [op] = some less)
    (hscopes : table.scopes = top ++ rest) (htop : top.length = depth + 1) :
    ∃ event table' top', table.step op = some (event, table') ∧ event.op = op ∧
      table'.scopes = top' ++ rest ∧ top'.length = less + 1 := by
  cases op with
  | enter =>
    cases hopen
    refine ⟨.enter, table.enter, [] :: top, rfl, rfl, ?_, congrArg (· + 1) htop⟩
    rw [scopes_enter, hscopes, List.cons_append]
  | exit =>
    cases depth with
    | zero => cases hopen
    | succ depth =>
      cases hopen
      have hinner : table.inner ≠ [] := by
        refine inner_ne_nil hscopes ?_
        rw [List.length_append, htop]
        omega
      have hexit : table.exit? = some table.leave := exit?_eq_some_iff.mpr ⟨hinner, rfl⟩
      refine ⟨.exit, table.leave, top.tail, by rw [step, hexit]; rfl, rfl, ?_, ?_⟩
      · have hne : top ≠ [] := List.ne_nil_of_length_eq_add_one htop
        rw [scopes_leave hinner, hscopes, List.tail_append_of_ne_nil hne]
      · rw [List.length_tail, htop, Nat.add_sub_cancel]
  | add pos name ty =>
    cases hopen
    obtain ⟨scope, hadd⟩ := table.scopes_add pos name ty
    have hne : top ≠ [] := List.ne_nil_of_length_eq_add_one htop
    refine ⟨_, _, scope :: top.tail, rfl, rfl, ?_, ?_⟩
    · rw [hadd, hscopes, List.tail_append_of_ne_nil hne, List.cons_append]
    · rw [List.length_cons, List.length_tail, htop, Nat.add_sub_cancel]
  | lookup pos name =>
    cases hopen
    exact ⟨_, _, top, rfl, rfl, by rw [scopes_lookup, hscopes], htop⟩

/-- Operations that close no more scopes than are open can be run, and what is around these scopes
stays as it is. -/
theorem exists_run (hopen : openScopes depth ops = some less) (hscopes : table.scopes = top ++ rest)
    (htop : top.length = depth + 1) :
    ∃ events table' top', table.run ops = some (events, table') ∧ events.map Event.op = ops ∧
      table'.scopes = top' ++ rest ∧ top'.length = less + 1 := by
  induction ops generalizing table depth top with
  | nil =>
    cases hopen
    exact ⟨[], table, top, rfl, rfl, hscopes, htop⟩
  | cons op ops ih =>
    rw [← List.singleton_append, openScopes_append, Option.bind_eq_some_iff] at hopen
    obtain ⟨between, hop, hopen⟩ := hopen
    obtain ⟨event, mid, top', hstep, hevent, hmid, htop'⟩ := exists_step hop hscopes htop
    obtain ⟨events, last, top'', hrun, hevents, hlast, htop''⟩ := ih hopen hmid htop'
    refine ⟨event :: events, last, top'', ?_, ?_, hlast, htop''⟩
    · exact run_cons_eq_some.mpr ⟨event, mid, events, hstep, hrun, rfl⟩
    · rw [List.map_cons, hevent, hevents]

/-- What a name means depends on the scopes alone. -/
theorem find?_congr (h : table'.scopes = table.scopes) (name : String) :
    table'.find? name = table.find? name := by
  rw [find?, h, find?]

/-- What happens in a scope is gone when it is closed. -/
theorem exists_run_block {inside : List Op} (hopen : openScopes 0 inside = some 0) :
    ∃ events table', table.run (.enter :: (inside ++ [.exit])) = some (events, table') ∧
      table'.scopes = table.scopes := by
  have hentered : table.enter.scopes = [[]] ++ table.scopes := rfl
  obtain ⟨events, mid, top, hrun, -, hmid, htop⟩ := exists_run hopen hentered rfl
  obtain ⟨scope, rfl⟩ := List.length_eq_one_iff.mp htop
  have hinner : mid.inner ≠ [] := by
    refine inner_ne_nil hmid ?_
    rw [table.scopes_eq_cons]
    exact Nat.le_add_left _ _
  have hexit : mid.run [.exit] = some ([.exit], mid.leave) := by
    rw [run, step, exit?_eq_some_iff.mpr ⟨hinner, rfl⟩]
    rfl
  refine ⟨.enter :: (events ++ [.exit]), mid.leave, ?_, ?_⟩
  · exact run_cons_eq_some.mpr ⟨.enter, table.enter, _, rfl, run_append hrun hexit, rfl⟩
  · rw [scopes_leave hinner, hmid]
    rfl

/-- A failure changes no binding. -/
theorem scopes_of_problem {op : Op} {event : Event} (hstep : table.step op = some (event, table'))
    (hproblem : event.problem?.isSome = true) : table'.scopes = table.scopes := by
  cases op with
  | enter =>
    cases hstep
    cases hproblem
  | exit =>
    obtain ⟨last, -, hlast⟩ := Option.map_eq_some_iff.mp hstep
    cases hlast
    cases hproblem
  | add pos name ty =>
    cases hstep
    rcases table.add_cases pos name ty with ⟨problem, hadd⟩ | hadd
    · rw [hadd, scopes_report, scopes_skipId]
    · rw [hadd] at hproblem
      cases hproblem
  | lookup pos name =>
    cases hstep
    exact table.scopes_lookup pos name

end Run

/-! ## Every history

The history of a new table begins with the run-time functions, which it declares in an empty one.
After that any sequence of operations will do. -/

/-- A table that has this in common with its history does what the history says. -/
theorem Recalls.refines {history : List Event} {table : SymbolTable} (h : Recalls history table) :
    Refines history table where
  found pos name symbol hmeans := by
    rw [SymbolTable.lookup, h.find?_eq_some_iff.mpr hmeans]
  missing pos name hnone := by
    have hfind : table.find? name = none :=
      Option.eq_none_iff_forall_ne_some.mpr fun symbol hfound =>
        hnone symbol (h.find?_eq_some_iff.mp hfound)
    rw [SymbolTable.lookup, hfind]
  refused pos name ty hbound := by
    rcases h.add_eq pos name ty with ⟨-, hadd⟩ | ⟨hnone, -⟩
    · rw [hadd]
    · obtain ⟨symbol, hbound⟩ := hbound
      exact absurd hbound (hnone symbol)
  accepted pos name ty hnone := by
    rcases h.add_eq pos name ty with ⟨⟨symbol, hbound⟩, -⟩ | ⟨-, hadd⟩
    · exact absurd hbound (hnone symbol)
    · rw [hadd]
  kept _ _ _ := scopes_of_problem
  typed := h.typed
  distinct := h.distinct
  reported := h.reported
  restored inside hopen := by
    obtain ⟨events, table', hrun, hscopes⟩ := exists_run_block hopen
    exact ⟨events, table', hrun, find?_congr hscopes⟩

/-- An operation reports a problem exactly if it answers with a faulty symbol. -/
theorem Event.problem?_isSome_iff (event : Event) :
    event.problem?.isSome = true ↔ ∃ symbol, event.answer? = some symbol ∧ symbol.isFaulty = true :=
  by
  cases event with
  | enter => simp [problem?, answer?]
  | exit => simp [problem?, answer?]
  | add pos name ty symbol => simp [problem?, answer?]
  | lookup pos name symbol => simp [problem?, answer?]

/-- A client that asks whether anything went wrong learns whether some answer was faulty, whichever
operation gave it and whether or not its scope is still open. -/
theorem Refines.hasError_iff {history : List Event} {table : SymbolTable}
    (h : Refines history table) :
    table.hasError = true ↔
      ∃ event ∈ history, ∃ symbol, event.answer? = some symbol ∧ symbol.isFaulty = true := by
  have hnil : table.hasError = true ↔ ¬ ∀ event ∈ history, event.problem? = none := by
    rw [hasError, Bool.not_eq_true', List.isEmpty_eq_false_iff, h.reported, ne_eq,
      List.filterMap_eq_nil_iff]
  rw [hnil, not_forall₂]
  refine exists_congr fun event => ?_
  rw [exists_prop, ← event.problem?_isSome_iff, Option.isSome_iff_ne_none]

/-- A new table is what declaring the run-time functions in an empty one gives. -/
theorem run_builtins (nextId : Nat) :
    run { globals := [], inner := [], nextId := nextId, errors := [] }
        (builtins.map fun (name, ty) => .add {} name ty) =
      some (runtimeEvents nextId, new nextId) := by
  simp [builtins, run, step, add, current, skipId, bind, runtimeEvents, new, declareAll,
    List.lookup_nil, List.lookup_cons, Symbol.declared]

/-- A table does what its history says. Every sequence of operations in which no more scopes are
closed than are open can be run on a new table; the history starts with the run-time functions. -/
theorem run_refines (nextId : Nat) {ops : List Op} {depth : Nat}
    (h : openScopes 0 ops = some depth) :
    ∃ events table, (new nextId).run ops = some (events, table) ∧ events.map Event.op = ops ∧
      Refines (runtimeEvents nextId ++ events) table := by
  have hscopes : (new nextId).scopes = (new nextId).scopes ++ [] := (List.append_nil _).symm
  obtain ⟨events, table, -, hrun, hevents, -⟩ := exists_run h hscopes rfl
  have hnew : Recalls (runtimeEvents nextId) (new nextId) :=
    (Recalls.empty nextId).run (run_builtins nextId)
  exact ⟨events, table, hrun, hevents, (hnew.run hrun).refines⟩

/-- A global is hidden in a scope where its name is declared twice; the scope inside of it declares
the name of a run-time function and uses a name that nobody declares. -/
def shadowingOps : List Op :=
  [.add ⟨1, 1⟩ "x" .int, .enter, .add ⟨2, 1⟩ "x" .bool, .add ⟨3, 1⟩ "x" .int, .enter,
    .add ⟨4, 1⟩ "println" .int, .lookup ⟨5, 1⟩ "y", .exit, .lookup ⟨6, 1⟩ "println"]

/-- The sequence above can be run, and in the end the name means the declaration in the inner scope.
-/
theorem run_refines_shadowing :
    openScopes 0 shadowingOps = some 1 ∧
      (∃ events table, (new 3).run shadowingOps = some (events, table) ∧
        events.map Event.op = shadowingOps ∧ Refines (runtimeEvents 3 ++ events) table) ∧
      ((new 3).run shadowingOps).map (fun (_, table) => (table.lookup {} "x").1) =
        some (.declared 10 "x" .bool) :=
  ⟨rfl, run_refines 3 rfl, rfl⟩

end WordLang.SymbolTable
