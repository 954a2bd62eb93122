/-!
# First uses

The distinct members of a list in the order in which they first occur. Labels and stack slots are
numbered this way: the number of a thing is its place in the list of first uses.

There are two ways to get that list. `firstUses` needs the whole list of uses and is what theorems
are about. `enroll` takes one use at a time, which is how numbers are given out while lines are
being written. The two agree (`foldl_enroll_nil`), and a number that was given out never changes
(`prefix_foldl_enroll`).
-/

namespace WordLang

/-- The distinct members of a list, each at its first occurrence. -/
def firstUses {α : Type} [DecidableEq α] : List α → List α
  | [] => []
  | a :: rest => a :: (firstUses rest).filter (· ≠ a)

/-- Puts something at the end of a list, unless it is in there. -/
def enroll {α : Type} [DecidableEq α] (known : List α) (a : α) : List α :=
  if a ∈ known then known else known ++ [a]

variable {α : Type} [DecidableEq α]

/-- Nothing is lost and nothing is added. -/
@[simp]
theorem mem_firstUses {a : α} {uses : List α} : a ∈ firstUses uses ↔ a ∈ uses := by
  induction uses with
  | nil => simp [firstUses]
  | cons b rest ih => by_cases h : a = b <;> simp [firstUses, ih, h]

/-- So the place of a member is its number, and no other member has the same. -/
theorem nodup_firstUses (uses : List α) : (firstUses uses).Nodup := by
  induction uses with
  | nil => simp [firstUses]
  | cons a rest ih =>
    rw [firstUses, List.nodup_cons]
    exact ⟨by simp, ih.filter _⟩

/-! ## One use at a time -/

theorem mem_enroll (known : List α) (a : α) : a ∈ enroll known a := by
  rw [enroll]
  split
  · assumption
  · exact List.mem_append_right _ List.mem_cons_self

/-- Enrolling uses one by one adds those of their first uses that are not known yet. -/
theorem foldl_enroll (known uses : List α) :
    uses.foldl enroll known = known ++ (firstUses uses).filter (· ∉ known) := by
  induction uses generalizing known with
  | nil => exact (List.append_nil known).symm
  | cons a rest ih =>
    rw [List.foldl_cons, ih, firstUses, enroll]
    by_cases ha : a ∈ known
    -- a use that is known is no first use, and neither is what equals it further on
    · have hknown : ∀ b, (decide (b ∉ known) && decide (b ≠ a)) = decide (b ∉ known) := by
        intro b
        by_cases hb : b ∈ known
        · simp [hb]
        · have hne : b ≠ a := fun heq => hb (heq ▸ ha)
          simp [hb, hne]
      rw [if_pos ha, List.filter_cons_of_neg (by simpa using ha), List.filter_filter]
      simp only [hknown]
    · rw [if_neg ha, List.filter_cons_of_pos (by simpa using ha), List.filter_filter,
        List.append_assoc, List.singleton_append]
      congr 3
      funext b
      simp [List.mem_append, not_or]

/-- Enrolled from the beginning, uses give their first uses. -/
theorem foldl_enroll_nil (uses : List α) : uses.foldl enroll [] = firstUses uses := by
  rw [foldl_enroll]
  simp

/-- What is enrolled stays where it is. -/
theorem prefix_foldl_enroll (known uses : List α) : known <+: uses.foldl enroll known :=
  ⟨_, (foldl_enroll known uses).symm⟩

end WordLang
