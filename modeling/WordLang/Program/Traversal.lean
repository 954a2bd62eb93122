import WordLang.FirstUse
import WordLang.Program.Basic

/-!
# Walking the graph of a routine

Two walks start where the routine starts and visit each instruction once.

* `reachable` goes breadth first along both edges and never leaves the arena. Listings and checks
  follow it.
* `schedule` goes depth first and decides the order of the assembly. After a jump comes the side
  taken when the condition holds, so that it needs no branch. Only jumps have that side here. A
  handle outside the arena is visited like any other and leads nowhere.

Both keep the handles already met in a list. What is left to meet in the arena, `unmet`, only
shrinks: that is why the walks end, whatever the edges are.
-/

namespace WordLang

/-- How many handles of an arena of the given size have not been met. -/
def unmet (size : Nat) (met : List InstId) : Nat :=
  ((List.range size).filter (· ∉ met)).length

theorem unmet_cons_le (size : Nat) (id : InstId) (met : List InstId) :
    unmet size (id :: met) ≤ unmet size met := by
  unfold unmet
  have h : (List.range size).filter (· ∉ id :: met) =
      ((List.range size).filter (· ∉ met)).filter (· ≠ id) := by
    rw [List.filter_filter]
    congr 1
    funext other
    simp [not_or]
  rw [h]
  exact List.length_filter_le _ _

/-- Meeting a new handle of the arena leaves one less to meet. -/
theorem unmet_cons {size : Nat} {id : InstId} {met : List InstId} (hid : id < size)
    (hmet : id ∉ met) : unmet size (id :: met) + 1 = unmet size met := by
  unfold unmet
  have h : (List.range size).filter (· ∉ id :: met) =
      ((List.range size).filter (· ∉ met)).erase id := by
    rw [List.Nodup.erase_eq_filter (List.nodup_range.filter _), List.filter_filter]
    congr 1
    funext other
    by_cases h : other = id <;> simp [h]
  have hmem : id ∈ (List.range size).filter (· ∉ met) := by simp [hid, hmet]
  rw [h, List.length_erase_of_mem hmem]
  have := List.length_pos_of_mem hmem
  omega

/-- Meeting several new handles of the arena leaves so many less to meet. -/
theorem unmet_append {size : Nat} {met fresh : List InstId} (hnodup : fresh.Nodup)
    (hfresh : ∀ id ∈ fresh, id < size ∧ id ∉ met) :
    unmet size (fresh ++ met) + fresh.length = unmet size met := by
  induction fresh with
  | nil => rfl
  | cons id rest ih =>
    rw [List.nodup_cons] at hnodup
    have hid := hfresh id (by simp)
    have hmet : id ∉ rest ++ met := by simp [hnodup.1, hid.2]
    have hrest := ih hnodup.2 fun other h => hfresh other (by simp [h])
    have hcons := unmet_cons hid.1 hmet
    rw [List.cons_append, List.length_cons]
    omega

namespace Routine

/-! ## Breadth first -/

/-- The successors of an instruction that are in the arena and have not been met. -/
def freshTargets (routine : Routine) (met : List InstId) (inst : Inst) : List InstId :=
  firstUses (inst.successors.filter fun id => routine.holds id && id ∉ met)

theorem mem_freshTargets {routine : Routine} {met : List InstId} {inst : Inst} {id : InstId}
    (h : id ∈ routine.freshTargets met inst) : id < routine.insts.size ∧ id ∉ met := by
  simpa [freshTargets, holds] using (List.mem_filter.mp (mem_firstUses.mp h)).2

theorem nodup_freshTargets (routine : Routine) (met : List InstId) (inst : Inst) :
    (routine.freshTargets met inst).Nodup :=
  nodup_firstUses _

/-- The instructions met from a queue of handles on, each handle in the queue being in `met`. -/
def breadthFirst (routine : Routine) (met : List InstId) : List InstId → List InstId
  | [] => []
  | id :: queue =>
    match routine.insts[id]? with
    | none => breadthFirst routine met queue
    | some inst =>
      let fresh := routine.freshTargets met inst
      id :: breadthFirst routine (fresh ++ met) (queue ++ fresh)
termination_by queue => unmet routine.insts.size met + queue.length
decreasing_by
  · simp
  · have := unmet_append (nodup_freshTargets routine met inst) fun id h => mem_freshTargets h
    simp only [List.length_append, List.length_cons]
    omega

/-- The instructions that can be reached from the start, breadth first. -/
def reachable (routine : Routine) : List InstId :=
  routine.breadthFirst [routine.start] [routine.start]

/-! ## Depth first -/

/-- Where the walk goes from a handle, the preferred way first. -/
def onward (routine : Routine) (id : InstId) : List InstId :=
  match routine.insts[id]? with
  | none => []
  | some inst =>
    if inst.kind.isJump then inst.onTrue.toList ++ inst.next.toList else inst.next.toList

theorem onward_eq_nil {routine : Routine} {id : InstId} (h : ¬ id < routine.insts.size) :
    routine.onward id = [] := by
  simp [onward, Array.getElem?_eq_none (Nat.le_of_not_lt h)]

theorem length_onward_le (routine : Routine) (id : InstId) : (routine.onward id).length ≤ 2 := by
  unfold onward
  split
  · simp
  · next inst _ =>
    split
    · cases inst.onTrue <;> cases inst.next <;> simp
    · cases inst.next <;> simp

/-- The handles visited from a stack of handles on, the top first. -/
def depthFirst (routine : Routine) (met : List InstId) : List InstId → List InstId
  | [] => []
  | id :: stack =>
    if id ∈ met then depthFirst routine met stack
    else id :: depthFirst routine (id :: met) (routine.onward id ++ stack)
termination_by stack => 3 * unmet routine.insts.size met + stack.length
decreasing_by
  · simp
  · next hmet =>
    simp only [List.length_append, List.length_cons]
    by_cases hid : id < routine.insts.size
    · have := unmet_cons hid hmet
      have := routine.length_onward_le id
      omega
    · have := unmet_cons_le routine.insts.size id met
      simp only [onward_eq_nil hid, List.length_nil]
      omega

/-- The order in which a routine is written as assembly. -/
def schedule (routine : Routine) : List InstId :=
  routine.depthFirst [] [routine.start]

end Routine

end WordLang
