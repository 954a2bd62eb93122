import WordLang.Proofs.Lowering.Locals
import WordLang.Proofs.Semantics.Graph

/-!
# Where the parts of a graph are

Running a graph means running the finished one, while a construct was lowered when its graph was
half done. `b.Within g` says that `g` is a later stage of `b`: every instruction of `b` is there,
with the edges that it had, and so are the constants and the locals. Going back from a stage to the
one before it, each push tells which instruction stands where, and each link where an edge leads.

So the lowering of a construct is read backwards. One starts with the builder that the construct
leaves, which is within the finished graph, and takes off one operation after the other: taking off
a push gives an instruction of the finished graph (`Within.has`), taking off a link gives an edge of
it (`Within.goes`). What is left is the builder that a part of the construct leaves, and the
recursion goes on with that part.

There is one condition. An edge that is set may be set again later, and then the earlier stage is no
longer within the finished graph. So taking off a link asks that the edge was not set before
(`Unset`), which holds of edges of open ends and of instructions that were just added.

The last section says what a step of the finished graph does, once it is known which instruction it
is at.
-/

namespace WordLang

open WordLang.Graph

namespace Builder

/-- Where an edge leads. -/
def target? (g : Builder) (id : InstId) (edge : Edge) : Option InstId :=
  (g.inst? id).bind (·.target edge)

/-- An instruction of the given kind is at the handle. -/
def Has (g : Builder) (id : InstId) (kind : InstKind) : Prop :=
  (g.inst? id).map (·.kind) = some kind

/-- An edge is not set, if its instruction is there at all. -/
def Unset (b : Builder) (id : InstId) (edge : Edge) : Prop :=
  b.target? id edge = none

/-- What `b` has is in the finished `g`. -/
structure Within (b g : Builder) : Prop where
  kinds : ∀ id kind, b.Has id kind → g.Has id kind
  edges : ∀ id edge target, b.target? id edge = some target → g.target? id edge = some target
  pool : b.constants <+: g.constants
  /-- what is declared later has a register that is taken later -/
  locals : ∃ newer, g.locals = newer ++ b.locals ∧
    ∀ entry ∈ newer, b.routine.temps ≤ entry.2.index

variable {b b' g : Builder} {id source target : Nat} {edge edge' : Edge} {kind : InstKind}

/-! ## Edges that are not set

An edge is not set if its instruction is not there yet, or is an open end. Operations elsewhere keep
it so. -/

/-- An instruction that is not there has no edges. -/
theorem Unset.of_size_le (h : b.size ≤ id) : b.Unset id edge := by
  have hnone : b.inst? id = none := Array.getElem?_eq_none_iff.mpr h
  rw [Unset, target?, hnone, Option.bind_none]

/-- The edges of an open end are not set. -/
theorem Open.unset (h : b.Open id) (edge : Edge) : b.Unset id edge := by
  obtain ⟨kind, hinst, -⟩ := h
  rw [Unset, target?, hinst]
  cases edge <;> rfl

/-- A new instruction starts without edges, and the others keep theirs. -/
theorem Unset.push (h : b.Unset id edge) (kind : InstKind) : (b.push kind).Unset id edge := by
  rw [Unset, target?, inst?_push]
  by_cases hid : id = b.size
  · rw [if_pos hid]
    cases edge <;> rfl
  · rw [if_neg hid]
    exact h

/-- Taking a register sets no edge. -/
theorem Unset.takeTemp (h : b.Unset id edge) : b.takeTemp.Unset id edge :=
  h

/-- Nor does taking one for an address. -/
theorem Unset.takeAddr (h : b.Unset id edge) : b.takeAddr.Unset id edge :=
  h

/-- Setting an edge sets no other one: neither of another instruction, nor the other one of the
same. -/
theorem Unset.link (h : b.Unset id edge) (hne : id ≠ source ∨ edge ≠ edge') :
    (b.link source target edge').Unset id edge := by
  rw [Unset, target?, inst?_link]
  by_cases hid : source = id
  · have hedge : edge ≠ edge' := hne.resolve_left fun hne => hne hid.symm
    rw [if_pos hid, Option.bind_map]
    rw [Unset, target?] at h
    rcases hinst : b.inst? id with _ | inst
    · rfl
    · rw [hinst] at h
      exact (Inst.target_link_of_ne inst target hedge).trans h
  · rw [if_neg hid]
    exact h

/-- Growth keeps the instructions that were there with their edges, so none of these is set by it.
-/
theorem Unset.grows (h : b.Unset id edge) (hlt : id < b.size) (hb : b.Grows b') :
    b'.Unset id edge := by
  rw [Unset, target?, hb.keeps id hlt]
  exact h

/-! ## Going back

From a stage to the one before it. The first lemmas take off single operations; the later ones take
off what the end of a construct always consists of. -/

namespace Within

/-- An earlier stage is within everything that a later one is within. -/
theorem of_grows (hb : b.Grows b') (h : b'.Within g) : b.Within g where
  kinds id kind hid := by
    refine h.kinds id kind ?_
    obtain ⟨inst, hinst, -⟩ := Option.map_eq_some_iff.mp hid
    rw [Has, hb.keeps id (lt_size hinst)]
    exact hid
  edges id edge target hid := by
    refine h.edges id edge target ?_
    obtain ⟨inst, hinst, -⟩ := Option.bind_eq_some_iff.mp hid
    rw [target?, hb.keeps id (lt_size hinst)]
    exact hid
  pool := hb.pool.trans h.pool
  locals := by
    obtain ⟨newer, he, hn⟩ := h.locals
    obtain ⟨newer', he', hn'⟩ := hb.locals
    refine ⟨newer ++ newer', by rw [he, he', List.append_assoc], fun entry hentry => ?_⟩
    rcases List.mem_append.mp hentry with hmem | hmem
    · exact Nat.le_trans hb.temps_le (hn entry hmem)
    · exact (hn' entry hmem).1

/-- Back over a new instruction. -/
theorem of_push (h : (b.push kind).Within g) : b.Within g :=
  h.of_grows ((Grows.refl b).push kind)

/-- Back over a register that was taken. -/
theorem of_takeTemp (h : b.takeTemp.Within g) : b.Within g :=
  h.of_grows (Grows.refl b).takeTemp

/-- Back over a register for an address. -/
theorem of_takeAddr (h : b.takeAddr.Within g) : b.Within g :=
  h.of_grows (Grows.refl b).takeAddr

/-- The instruction that was just added. -/
theorem has (h : (b.push kind).Within g) : g.Has b.size kind := by
  refine h.kinds b.size kind ?_
  rw [Has, inst?_push_size, Option.map_some]

/-- The instruction that an arena starts with. -/
theorem has_start (h : b.Within g) (hinsts : b.routine.insts = #[{ kind := .nop }])
    (hstart : b.routine.start = 0) : g.Has b.routine.start .nop := by
  refine h.kinds b.routine.start .nop ?_
  rw [Has, inst?, hinsts, hstart]
  rfl

/-- Back over an edge that was not set before. -/
theorem of_link (h : (b.link source target edge).Within g) (hunset : b.Unset source edge) :
    b.Within g where
  kinds id kind hid := by
    refine h.kinds id kind ?_
    rw [Has] at hid
    rw [Has, inst?_link]
    split
    · rw [Option.map_map]
      simpa only [Function.comp_def, Inst.kind_link] using hid
    · exact hid
  edges id edge' target' hid := by
    refine h.edges id edge' target' ?_
    rw [target?, inst?_link]
    split
    · next heq =>
      subst heq
      have hedge : edge' ≠ edge := by
        rintro rfl
        rw [Unset] at hunset
        rw [hunset] at hid
        cases hid
      obtain ⟨inst, hinst, htarget⟩ := Option.bind_eq_some_iff.mp hid
      rw [hinst]
      exact (Inst.target_link_of_ne inst target hedge).trans htarget
    · exact hid
  pool := h.pool
  locals := h.locals

/-- The edge that was just set. -/
theorem goes (h : (b.link source target edge).Within g) (hlt : source < b.size) :
    g.target? source edge = some target := by
  refine h.edges source edge target ?_
  have hinst : b.inst? source = some b.routine.insts[source] := Array.getElem?_eq_getElem hlt
  rw [target?, inst?_link_self, hinst]
  exact Inst.target_link_self _ target edge

/-- Back over a link: the edge that it set, and the stage before it. -/
theorem unlink (h : (b.link source target edge).Within g) (hlt : source < b.size)
    (hunset : b.Unset source edge) :
    g.target? source edge = some target ∧ b.Within g :=
  ⟨h.goes hlt, h.of_link hunset⟩

/-- Back over an instruction at the end of a part. -/
theorem unappend (h : ((b.push kind).link source b.size .next).Within g) (hopen : b.Open source) :
    g.target? source .next = some b.size ∧ g.Has b.size kind ∧ b.Within g := by
  have hlt := hopen.lt_size
  obtain ⟨hgoes, hpush⟩ := h.unlink (by simp; omega) ((hopen.unset .next).push kind)
  exact ⟨hgoes, hpush.has, hpush.of_push⟩

section Parts

variable {b₁ b₂ mid : Builder} {kind' : InstKind} {entry exit entry' exit' : Nat}

/-- Back over two instructions at the end of a part. -/
theorem unappendBoth (hopen : b.Open exit)
    (h : ((((b.push kind).push kind').link exit b.size .next).link
      b.size (b.size + 1) .next).Within g) :
    g.target? exit .next = some b.size ∧ g.Has b.size kind ∧
      g.target? b.size .next = some (b.size + 1) ∧ g.Has (b.size + 1) kind' ∧ b.Within g := by
  have hlt := hopen.lt_size
  have hunset : ((b.push kind).push kind').Unset b.size .next :=
    ((Unset.of_size_le (Nat.le_refl _)).push _).push _
  obtain ⟨hlast, h⟩ := h.unlink (by simp only [size_link, size_push]; omega)
    (hunset.link (.inl (by omega)))
  obtain ⟨hnext, h⟩ := h.unlink (by simp only [size_push]; omega)
    (((hopen.unset .next).push _).push _)
  have hhas : g.Has (b.size + 1) kind' := by simpa using h.has
  exact ⟨hnext, h.of_push.has, hlast, hhas, h.of_push.of_push⟩

/-- Back over an instruction that follows two parts. -/
theorem uncombine (h₁ : b.Spans none entry exit b₁) (h₂ : b₁.Spans none entry' exit' b₂)
    (h : (((b₂.push kind).link exit entry' .next).link exit' b₂.size .next).Within g) :
    g.target? exit .next = some entry' ∧ g.target? exit' .next = some b₂.size ∧
      g.Has b₂.size kind ∧ b₂.Within g := by
  have hexit := h₁.exit_lt
  have hexit' := h₂.exit_ge
  have hexit'' := h₂.exit_lt
  have hunset := ((h₁.exit_open.grows h₂.grows).unset .next).push kind
  have hunset' := (h₂.exit_open.unset .next).push kind
  obtain ⟨hlast, h⟩ := h.unlink (by simp; omega) (hunset'.link (.inl (by omega)))
  obtain ⟨hnext, h⟩ := h.unlink (by simp; omega) hunset
  exact ⟨hnext, hlast, h.has, h.of_push⟩

/-- Back over an instruction that follows two parts with another one between them: `mid` is the
builder from which the second part starts. -/
theorem unstoreAt (h₁ : b.Spans none entry exit b₁) (hmid : mid = b₁.push kind)
    (h₂ : mid.Spans none entry' exit' b₂)
    (h : ((((b₂.push kind').link exit b₁.size .next).link b₁.size entry' .next).link
      exit' b₂.size .next).Within g) :
    (g.target? exit .next = some b₁.size ∧ g.Has b₁.size kind ∧ b₁.Within g) ∧
      g.target? b₁.size .next = some entry' ∧ g.target? exit' .next = some b₂.size ∧
      g.Has b₂.size kind' ∧ b₂.Within g := by
  have hexit := h₁.exit_lt
  have hexit' := h₂.exit_ge
  have hexit'' := h₂.exit_lt
  have hsize := h₂.grows.size_le
  have hunset : ∀ id : Nat, b₁.Unset id .next → id ≤ b₁.size → (b₂.push kind').Unset id .next := by
    intro id hid hle
    have hlt : id < mid.size := by rw [hmid, size_push]; omega
    exact ((hmid ▸ hid.push kind : mid.Unset id .next).grows hlt h₂.grows).push _
  rw [hmid, size_push] at hexit' hsize
  have hunset₁ := hunset exit (h₁.exit_open.unset .next) (by omega)
  have hunset₂ := hunset b₁.size (.of_size_le (Nat.le_refl _)) (Nat.le_refl _)
  have hunset₃ := (h₂.exit_open.unset .next).push kind'
  obtain ⟨hlast, h⟩ := h.unlink (by simp; omega)
    ((hunset₃.link (.inl (by omega))).link (.inl (by omega)))
  obtain ⟨hentry, h⟩ := h.unlink (by simp; omega) (hunset₂.link (.inl (by omega)))
  obtain ⟨hnext, h⟩ := h.unlink (by simp; omega) hunset₁
  have hwmid : (b₁.push kind).Within g := hmid ▸ h.of_push.of_grows h₂.grows
  exact ⟨⟨hnext, hwmid.has, hwmid.of_push⟩, hentry, hlast, h.has, h.of_push⟩

end Parts

end Within

/-! ## Steps of the finished graph

One lemma for each kind of instruction: at an instruction of that kind, the next step is this. What
comes after is where the edge leads, if it leads anywhere. -/

/-- What the graph does next. -/
def step (g : Builder) (world : World) (state : State) : Progress State Result :=
  g.routine.step world g.constants state

/-- A step is that of the instruction at hand. -/
theorem step_eq (world : World) {state : State} (hhas : g.Has id kind) (hpc : state.pc = some id) :
    g.step world state =
      Inst.step world g.constants ⟨kind, g.target? id .next, g.target? id .onTrue⟩ state := by
  obtain ⟨inst, hinst, rfl⟩ := Option.map_eq_some_iff.mp hhas
  have hget : g.routine.insts[id]? = some inst := hinst
  rw [step, Routine.step, hpc]
  simp only [hget]
  rw [target?, target?, hinst]
  rfl

section Steps

variable {world : World} {state : State}

/-- A `nop` goes on. -/
theorem step_nop (hhas : g.Has id .nop) (hpc : state.pc = some id) :
    g.step world state = .next (state.goto (g.target? id .next)) :=
  step_eq world hhas hpc

/-- An address is what the world says of the name and of the offset. -/
theorem step_addressAt {dst : Addr} {base : Symbol} {offset : Option Temp}
    (hhas : g.Has id (.addressAt dst base offset)) (hpc : state.pc = some id) :
    g.step world state =
      .next ((state.setAddr dst (world.address base.name (offset.map state.temps))).goto
        (g.target? id .next)) :=
  step_eq world hhas hpc

/-- Arithmetic writes its result, or traps. It traps only where a division does. -/
theorem step_arith {op : Arith} {dst left right : Temp} (hhas : g.Has id (.arith op dst left right))
    (hpc : state.pc = some id) :
    g.step world state =
      match op.apply (state.temps left) (state.temps right) with
      | some value => .next ((state.setTemp dst value).goto (g.target? id .next))
      | none => .fault :=
  step_eq world hhas hpc

/-- A comparison writes a truth value as a word. -/
theorem step_compare {op : Comparison} {dst left right : Temp}
    (hhas : g.Has id (.compare op dst left right)) (hpc : state.pc = some id) :
    g.step world state =
      .next ((state.setTemp dst (truth (op.holds (state.temps left) (state.temps right)))).goto
        (g.target? id .next)) :=
  step_eq world hhas hpc

/-- A copy of a register writes what is in it. -/
theorem step_copy_temp {dst src : Temp} (hhas : g.Has id (.copy dst (.temp src)))
    (hpc : state.pc = some id) :
    g.step world state =
      .next ((state.setTemp dst (state.temps src)).goto (g.target? id .next)) :=
  step_eq world hhas hpc

/-- A copy of a constant writes its value, which is found in the pool. -/
theorem step_copy_const {dst : Temp} {const : ConstId} {constant : Constant}
    (hhas : g.Has id (.copy dst (.const const))) (hconst : g.constants[const]? = some constant)
    (hpc : state.pc = some id) :
    g.step world state =
      .next ((state.setTemp dst constant.value).goto (g.target? id .next)) := by
  rw [step_eq world hhas hpc]
  simp only [Inst.step, State.read?, hconst, Option.map_some]

/-- A load is an event, and what it gives depends on the memory at that time. -/
theorem step_load {dst : Temp} {src : Addr} (hhas : g.Has id (.load dst src))
    (hpc : state.pc = some id) :
    g.step world state =
      .next (((state.setOutside (state.outside.load (state.addrs src)).2).setTemp dst
        (state.outside.load (state.addrs src)).1).goto (g.target? id .next)) :=
  step_eq world hhas hpc

/-- A store is an event and changes the memory. -/
theorem step_store {src : Temp} {dst : Addr} (hhas : g.Has id (.store src dst))
    (hpc : state.pc = some id) :
    g.step world state =
      .next ((state.setOutside
        (state.outside.store (state.addrs dst) (state.temps src))).goto (g.target? id .next)) :=
  step_eq world hhas hpc

/-- A call is an event. The world says what it gives and what it does to the memory. -/
theorem step_call {dst : Option Temp} {callee : Symbol} {args : List Temp}
    (hhas : g.Has id (.call dst callee args)) (hpc : state.pc = some id) :
    g.step world state =
      .next (((state.setOutside
        (state.outside.call world callee.name (args.map state.temps)).2).setResult dst
          (state.outside.call world callee.name (args.map state.temps)).1).goto
            (g.target? id .next)) :=
  step_eq world hhas hpc

/-- A return ends the run, with the value of its register if it has one. -/
theorem step_ret {value : Option Temp} (hhas : g.Has id (.ret value))
    (hpc : state.pc = some id) :
    g.step world state = .done (value.map state.temps, state.outside) :=
  step_eq world hhas hpc

/-- A jump goes on along the edge for a false condition if its register is zero, and along the one
for a true condition otherwise. -/
theorem step_jump {cond : Temp} (hhas : g.Has id (.jump cond)) (hpc : state.pc = some id) :
    g.step world state =
      .next (state.goto
        (if state.temps cond = 0 then g.target? id .next else g.target? id .onTrue)) :=
  step_eq world hhas hpc

/-- Negation writes the other truth value. -/
theorem step_not {dst operand : Temp} (hhas : g.Has id (.not dst operand))
    (hpc : state.pc = some id) :
    g.step world state =
      .next ((state.setTemp dst (flip (state.temps operand))).goto (g.target? id .next)) :=
  step_eq world hhas hpc

end Steps

end Builder

end WordLang
