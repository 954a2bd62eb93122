import WordLang.Proofs.Asm.Labels
import WordLang.Proofs.Asm.Names

/-!
# Reading assembly

What a line of text defines, reserves or branches to, found in its characters alone, and where the
text of one function ends and that of the next one begins. A line starts with blanks unless it
defines a name, and the word after the blanks says what it does.

These readers know nothing of how the text was made. That gives a meaning to statements about the
text of a program, such as that no name is defined twice in it: they are about what a linker or a
person finds there, and not about lists that the text was made from.

A name could have characters that mean something to a reader. A line with *legible* names is read as
it was meant: it is a single line (`oneLine_text`), and it defines, reserves and branches to what it
should (`definitionOf?_text`, `commonOf?_text`, `branchOf?_text`). For a whole text this means that
reading it gives what is known of its lines, in the same order.

To find out that a line does *not* begin in some way, it is enough to look at one character. So the
lemmas come down to the first letters of the texts of instructions, and to the dot before the names
of directives and labels, which no legible name begins with.
-/

namespace WordLang.Asm

/-! ## Readers

Functions on characters, without the structure of lines or instructions. -/

/-- What follows after a lead. -/
def after? (lead line : String) : Option String :=
  if lead.toList.isPrefixOf line.toList then
    some (String.ofList (line.toList.drop lead.toList.length))
  else none

/-- The name that a line defines: it stands at the very beginning, before a colon. -/
def definitionOf? (line : String) : Option String :=
  if line.toList.head? = some ' ' then none
  else if line.toList.getLast? = some ':' then some (String.ofList line.toList.dropLast)
  else none

/-- The name that a line reserves room for: what comes before the first comma. -/
def commonOf? (line : String) : Option String :=
  (after? "    .comm " line).map fun rest => String.ofList (rest.toList.takeWhile (· ≠ ','))

/-- The name that a line branches to. -/
def branchOf? (line : String) : Option String :=
  after? "    je " line <|> after? "    jmp " line

/-- Whether the text of a function begins with a line. -/
def opensFunction (line : String) : Bool :=
  (after? "    .globl " line).isSome

/-- Whether a name is that of a place inside of a function. -/
def isLocal (name : String) : Bool :=
  (after? ".L" name).isSome

/-- The parts of a list that begin with the members that open one. What is before the first one of
them belongs to no part. -/
def parts {α : Type} (opens : α → Bool) : List α → List (List α)
  | [] => []
  | a :: rest =>
    if opens a then (a :: rest.takeWhile (! opens ·)) :: parts opens rest else parts opens rest

/-- The names that a text defines. -/
def definitions (text : List String) : List String :=
  text.filterMap definitionOf?

/-- The names that a text reserves room for. -/
def commons (text : List String) : List String :=
  text.filterMap commonOf?

/-- The names that a text branches to. -/
def branches (text : List String) : List String :=
  text.filterMap branchOf?

/-- The texts of the functions in a text. -/
def functionTexts (text : List String) : List (List String) :=
  parts opensFunction text

/-! ## Names

A label begins with a dot, and a legible name does not. So the two are never the same. -/

/-- Whether no character of a name has a meaning in assembly. Letters, digits and underscores have
none. -/
def isName (name : String) : Bool :=
  name.toList.all fun c => c ∉ [' ', '\n', ',', ':', '.']

/-- The names in a line, but for those of labels. -/
def Line.names : Line → List String
  | .common name _ => [name]
  | .exported name => [name]
  | .entry name => [name]
  | .label _ => []
  | .instr i => i.references.map Reference.target

/-- The names in a line have no characters with a meaning. -/
def Line.Legible (line : Line) : Prop :=
  ∀ name ∈ line.names, isName name = true

section

variable {name : String}

/-- None of the characters with a meaning is in a legible name. -/
theorem not_mem_of_isName (h : isName name = true) {c : Char}
    (hc : c ∈ [' ', '\n', ',', ':', '.']) :
    c ∉ name.toList :=
  fun hmem => of_decide_eq_true (List.all_eq_true.mp h c hmem) hc

/-- So a legible name begins with none of them. -/
theorem head?_ne_of_isName (h : isName name = true) {c : Char}
    (hc : c ∈ [' ', '\n', ',', ':', '.']) :
    name.toList.head? ≠ some c :=
  fun hhead => not_mem_of_isName h hc (List.mem_of_head? hhead)

/-- Labels with different numbers have different names. -/
theorem labelText_injective : Function.Injective labelText := by
  intro first second h
  have hdigits : toString first = toString second := (String.append_right_inj _).mp h
  exact toString_nat_injective hdigits

end

/-! ## Leads

What a line begins with, and what comes after that. Leads are compared from the left, so a common
front can be left out (`after?_append_append`), and one character that differs is enough. -/

section

variable {lead line : String}

/-- What comes after a lead is found. -/
theorem after?_append (lead rest : String) : after? lead (lead ++ rest) = some rest := by
  rw [after?, String.toList_append, if_pos
    (List.isPrefixOf_iff_prefix.mpr (List.prefix_append _ _)), List.drop_left, String.ofList_toList]

/-- A common front can be left out. -/
theorem after?_append_append (front lead rest : String) :
    after? (front ++ lead) (front ++ rest) = after? lead rest := by
  have hsame : (front.toList ++ lead.toList).isPrefixOf (front.toList ++ rest.toList) =
      lead.toList.isPrefixOf rest.toList := by
    rw [Bool.eq_iff_iff, List.isPrefixOf_iff_prefix, List.isPrefixOf_iff_prefix,
      List.prefix_append_right_inj]
  rw [after?, String.toList_append, String.toList_append, hsame, List.length_append,
    List.drop_length_add_append]
  rfl

/-- What begins otherwise has no lead. -/
theorem after?_eq_none (hlead : lead ≠ "") (h : line.toList.head? ≠ lead.toList.head?) :
    after? lead line = none := by
  rw [after?, if_neg]
  intro hprefix
  obtain ⟨rest, hrest⟩ := List.isPrefixOf_iff_prefix.mp hprefix
  rw [← hrest] at h
  cases hlist : lead.toList with
  | nil => exact hlead (by simpa using hlist)
  | cons c tail => simp [hlist] at h

/-- The name of a label is that of a place inside of a function. -/
theorem isLocal_labelText (number : Nat) : isLocal (labelText number) = true := by
  rw [isLocal, labelText, after?_append]
  rfl

/-- A legible name is not. -/
theorem isLocal_of_isName {name : String} (h : isName name = true) : isLocal name = false := by
  rw [isLocal, after?_eq_none (by decide) (head?_ne_of_isName h (by decide))]
  rfl

end

/-! ## Lines

Each kind of line by each of the readers. Instructions are read together: none of them begins like a
directive, and only two of them begin with the letter that branches begin with. -/

/-- The name that a line defines. -/
def Line.definition? : Line → Option String
  | .entry name => some name
  | .label number => some (labelText number)
  | _ => none

/-- The name of the function that begins with a line. -/
def Line.entry? : Line → Option String
  | .entry name => some name
  | _ => none

/-- The name that a line reserves room for. -/
def Line.common? : Line → Option String
  | .common name _ => some name
  | _ => none

/-- Whether a line makes a function visible. -/
def Line.isExported : Line → Bool
  | .exported _ => true
  | _ => false

/-- No instruction begins like a directive, and only branches begin as they do. -/
theorem Instr.head?_text (i : Instr) :
    i.text.toList.head? ≠ some '.' ∧ (i.target? = none → i.text.toList.head? ≠ some 'j') := by
  cases i with
  | alu op src dst => cases op <;> simp [Instr.text, Alu.mnemonic]
  | cmov op src dst => cases op <;> simp [Instr.text, cmovMnemonic]
  | _ => simp [Instr.text, Instr.target?]

/-- An instruction does not begin with the name of a directive. -/
theorem after?_directive (word : String) (i : Instr) :
    after? ("    " ++ ("." ++ word)) (Line.instr i).text = none := by
  have hhead : ("." ++ word).toList.head? = some '.' := by
    rw [String.toList_append]
    rfl
  have hlead : "." ++ word ≠ "" := by
    intro hempty
    rw [hempty] at hhead
    cases hhead
  refine (after?_append_append "    " ("." ++ word) i.text).trans (after?_eq_none hlead ?_)
  rw [hhead]
  exact i.head?_text.1

section

variable {line : Line}

/-- A line that begins with blanks defines no name. -/
theorem definitionOf?_blank (rest : String) : definitionOf? ("    " ++ rest) = none := by
  rw [definitionOf?, String.toList_append]
  rfl

/-- A line that is a name and a colon defines the name. -/
theorem definitionOf?_colon {name : String} (h : name.toList.head? ≠ some ' ') :
    definitionOf? (name ++ ":") = some name := by
  have hhead : (name.toList ++ [':']).head? ≠ some ' ' := by
    cases hname : name.toList with
    | nil => decide
    | cons c rest =>
      rw [hname] at h
      exact h
  rw [definitionOf?, String.toList_append]
  change (if (name.toList ++ [':']).head? = some ' ' then none else
    if (name.toList ++ [':']).getLast? = some ':' then
      some (String.ofList (name.toList ++ [':']).dropLast) else none) = _
  rw [if_neg hhead, List.getLast?_concat, if_pos rfl, List.dropLast_concat, String.ofList_toList]

/-- Labels begin with a dot. -/
theorem head?_labelText (number : Nat) : (labelText number).toList.head? = some '.' := by
  rw [labelText, String.toList_append]
  rfl

/-- If neither of two texts begins with a character, then neither do the two together: should the
first be empty, it is the second that counts. -/
theorem head?_append_of_ne {name : String} {c : Char} (h : name.toList.head? ≠ some c)
    {rest : String} (hrest : rest.toList.head? ≠ some c) :
    (name ++ rest).toList.head? ≠ some c := by
  rw [String.toList_append, List.head?_append]
  cases hhead : name.toList.head? with
  | none => exact hrest
  | some first => rwa [hhead] at h

/-- A line that defines a name begins with no blank. -/
theorem head?_text_of_definition? (h : line.Legible) {name : String}
    (hname : line.definition? = some name) :
    line.text.toList.head? ≠ some ' ' := by
  cases line with
  | entry name =>
    exact head?_append_of_ne (head?_ne_of_isName (h name List.mem_cons_self) (by decide))
      (by decide)
  | label number =>
    refine head?_append_of_ne ?_ (by decide)
    rw [head?_labelText]
    decide
  | _ => cases hname

/-- A line defines what it should. -/
theorem definitionOf?_text (h : line.Legible) : definitionOf? line.text = line.definition? := by
  cases line with
  | common name bytes =>
    rw [definitionOf?, Line.text]
    simp only [String.toList_append]
    rfl
  | exported name =>
    rw [definitionOf?, Line.text, String.toList_append]
    rfl
  | entry name =>
    exact definitionOf?_colon (head?_ne_of_isName (h name List.mem_cons_self) (by decide))
  | label number =>
    refine definitionOf?_colon ?_
    rw [head?_labelText]
    decide
  | instr i => exact definitionOf?_blank i.text

/-- A line reserves room for what it should. -/
theorem commonOf?_text (h : line.Legible) : commonOf? line.text = line.common? := by
  cases line with
  | common name bytes =>
    have hlead : after? "    .comm " (Line.common name bytes).text =
        some (name ++ (", " ++ toString bytes ++ ", " ++ toString wordSize)) := by
      rw [← after?_append "    .comm "]
      simp only [Line.text, String.append_assoc]
    have hname : ∀ c ∈ name.toList, decide (c ≠ ',') = true := by
      intro c hc
      refine decide_eq_true fun hcomma => ?_
      exact not_mem_of_isName (h name List.mem_cons_self) (by decide) (hcomma ▸ hc)
    rw [commonOf?, hlead, Option.map_some, String.toList_append, List.takeWhile_append_of_pos hname]
    simp only [String.toList_append]
    change some (String.ofList (name.toList ++ [])) = _
    rw [List.append_nil, String.ofList_toList]
    rfl
  | exported name =>
    rw [commonOf?, after?, Line.text, String.toList_append]
    rfl
  | entry name =>
    rw [commonOf?, after?_eq_none (by decide) (head?_text_of_definition? h rfl)]
    rfl
  | label number =>
    rw [commonOf?, after?_eq_none (by decide) (head?_text_of_definition? h rfl)]
    rfl
  | instr i =>
    rw [commonOf?]
    exact congrArg (Option.map _) (after?_directive "comm " i)

/-- The text of a function begins with the lines that make a function visible, and with no others.
-/
theorem opensFunction_text (h : line.Legible) : opensFunction line.text = line.isExported := by
  cases line with
  | common name bytes =>
    rw [opensFunction, after?, Line.text]
    simp only [String.toList_append]
    rfl
  | exported name =>
    rw [opensFunction, Line.text, after?_append]
    rfl
  | entry name =>
    rw [opensFunction, after?_eq_none (by decide) (head?_text_of_definition? h rfl)]
    rfl
  | label number =>
    rw [opensFunction, after?_eq_none (by decide) (head?_text_of_definition? h rfl)]
    rfl
  | instr i =>
    rw [opensFunction]
    exact congrArg Option.isSome (after?_directive "globl " i)

/-- A line that begins with blanks branches if one of the two words for it comes next. -/
theorem branchOf?_blank (rest : String) :
    branchOf? ("    " ++ rest) = (after? "je " rest <|> after? "jmp " rest) := by
  have hje : after? "    je " ("    " ++ rest) = after? "je " rest :=
    after?_append_append "    " "je " rest
  have hjmp : after? "    jmp " ("    " ++ rest) = after? "jmp " rest :=
    after?_append_append "    " "jmp " rest
  rw [branchOf?, hje, hjmp]

/-- A line branches where it should, which is to a label. -/
theorem branchOf?_text (h : line.Legible) : branchOf? line.text = line.target?.map labelText := by
  cases line with
  | common name bytes =>
    rw [branchOf?, after?, after?, Line.text]
    simp only [String.toList_append]
    rfl
  | exported name =>
    rw [branchOf?, after?, after?, Line.text, String.toList_append]
    rfl
  | entry name =>
    rw [branchOf?, after?_eq_none (by decide) (head?_text_of_definition? h rfl),
      after?_eq_none (by decide) (head?_text_of_definition? h rfl)]
    rfl
  | label number =>
    rw [branchOf?, after?_eq_none (by decide) (head?_text_of_definition? h rfl),
      after?_eq_none (by decide) (head?_text_of_definition? h rfl)]
    rfl
  | instr i =>
    rw [Line.text, branchOf?_blank]
    -- an instruction that is no branch does not begin like one
    rcases htarget : i.target? with _ | number
    · have hhead := i.head?_text.2 htarget
      rw [after?_eq_none (by decide) hhead, after?_eq_none (by decide) hhead, Line.target?, htarget]
      rfl
    · cases i with
      | je other =>
        rw [Instr.text, after?_append]
        rfl
      | jmp other =>
        have hje : after? "je " ("jmp " ++ labelText other) = none := by
          rw [after?, String.toList_append]
          rfl
        rw [Instr.text, hje, after?_append]
        rfl
      | _ => cases htarget

end

/-! ## Line ends

The text of a line must not be read as several lines. Numbers and names of registers have no line
ends, and legible names have none either, so nothing that a line is put together from has any. -/

/-- A text without line ends. -/
def OneLine (text : String) : Prop :=
  '\n' ∉ text.toList

instance (text : String) : Decidable (OneLine text) :=
  inferInstanceAs (Decidable ('\n' ∉ text.toList))

/-- Two texts together have no line end if neither of them has one. -/
@[simp]
theorem oneLine_append {first second : String} :
    OneLine (first ++ second) ↔ OneLine first ∧ OneLine second := by
  rw [OneLine, String.toList_append, List.mem_append, not_or]
  rfl

/-- A legible name has no line end. -/
theorem oneLine_of_isName {name : String} (h : isName name = true) : OneLine name :=
  not_mem_of_isName h (by decide)

/-- A number is written with digits. -/
@[simp]
theorem oneLine_nat (n : Nat) : OneLine (toString n) := by
  rw [OneLine, Nat.toString_eq_ofList_toDigits, String.toList_ofList]
  intro hmem
  exact absurd (Nat.isDigit_of_mem_toDigits (by decide) (by decide) hmem) (by decide)

/-- So is a number with a sign. -/
@[simp]
theorem oneLine_int (n : Int) : OneLine (toString n) := by
  cases n with
  | ofNat n => exact oneLine_nat n
  | negSucc n => exact oneLine_append.mpr ⟨by decide, oneLine_nat (n + 1)⟩

/-- The name of a machine register is one of a few. -/
theorem oneLine_reg (reg : Reg) : OneLine reg.text := by
  cases reg <;> decide

/-- An operand shows a name if it is an address relative to one. -/
theorem oneLine_operand {o : Operand} (h : ∀ reference ∈ o.reference?.toList,
    isName reference.target = true) : OneLine o.text := by
  cases o with
  | globalAddress name =>
    have hname : OneLine name := oneLine_of_isName (h _ List.mem_cons_self)
    exact oneLine_append.mpr ⟨hname, by decide⟩
  | _ => simp +decide only [Operand.text, oneLine_append, oneLine_nat, oneLine_int, oneLine_reg]

/-- An instruction is put together from words, operands and names. -/
theorem oneLine_instr {i : Instr} (h : ∀ reference ∈ i.references, isName reference.target = true) :
    OneLine i.text := by
  cases i with
  | mov src dst =>
    obtain ⟨hsrc, hdst⟩ := List.forall_mem_append.mp h
    simp +decide only [Instr.text, oneLine_append, oneLine_operand hsrc, oneLine_operand hdst]
  | alu op src dst =>
    have hop : OneLine op.mnemonic := by cases op <;> decide
    simp +decide only [Instr.text, oneLine_append, oneLine_operand h, oneLine_reg, hop]
  | cmov op src dst =>
    have hop : OneLine (cmovMnemonic op) := by cases op <;> decide
    simp +decide only [Instr.text, oneLine_append, oneLine_reg, hop]
  | push src => simp +decide only [Instr.text, oneLine_append, oneLine_operand h]
  | call name =>
    have hname : OneLine name := oneLine_of_isName (h _ List.mem_cons_self)
    simp +decide only [Instr.text, oneLine_append, hname]
  | _ =>
    simp +decide only [Instr.text, labelText, oneLine_append, oneLine_reg, oneLine_nat, oneLine_int]

/-- A legible line is a single line. -/
theorem oneLine_text {line : Line} (h : line.Legible) : OneLine line.text := by
  cases line with
  | label number => simp +decide only [Line.text, labelText, oneLine_append, oneLine_nat]
  | instr i =>
    have hinstr : OneLine i.text := oneLine_instr (List.forall_mem_map.mp h)
    exact oneLine_append.mpr ⟨by decide, hinstr⟩
  | _ =>
    have hname := oneLine_of_isName (h _ List.mem_cons_self)
    simp +decide only [Line.text, oneLine_append, oneLine_nat, hname]

/-! ## Texts

What is found in a text is what is found in its lines. -/

section

variable {lines : List Line}

/-- The names that a text defines are those that its lines define. -/
theorem definitions_text (h : ∀ line ∈ lines, line.Legible) :
    definitions (lines.map Line.text) = lines.filterMap Line.definition? := by
  rw [definitions, List.filterMap_map]
  exact List.filterMap_congr fun line hline => definitionOf?_text (h line hline)

/-- The names of places inside of functions are those of labels. -/
theorem locals_text (h : ∀ line ∈ lines, line.Legible) :
    (definitions (lines.map Line.text)).filter isLocal = (labels lines).map labelText := by
  rw [definitions_text h, List.filter_filterMap, labels, List.map_filterMap]
  refine List.filterMap_congr fun line hline => ?_
  cases line with
  | entry name =>
    have hname := isLocal_of_isName (h _ hline name List.mem_cons_self)
    simp [Line.definition?, Line.label?, hname]
  | label number => simp [Line.definition?, Line.label?, isLocal_labelText]
  | _ => rfl

/-- A label is defined in a text exactly if a line of it is that label. -/
theorem labelText_mem_definitions (h : ∀ line ∈ lines, line.Legible) {number : Nat} :
    labelText number ∈ definitions (lines.map Line.text) ↔ number ∈ labels lines := by
  rw [← List.mem_map_of_injective labelText_injective, ← locals_text h, List.mem_filter]
  simp [isLocal_labelText]

/-- The other names that are defined are those of functions. -/
theorem functions_text (h : ∀ line ∈ lines, line.Legible) :
    (definitions (lines.map Line.text)).filter (! isLocal ·) = lines.filterMap Line.entry? := by
  rw [definitions_text h, List.filter_filterMap]
  refine List.filterMap_congr fun line hline => ?_
  cases line with
  | entry name =>
    have hname := isLocal_of_isName (h _ hline name List.mem_cons_self)
    simp [Line.definition?, Line.entry?, hname]
  | label number => simp [Line.definition?, Line.entry?, isLocal_labelText]
  | _ => rfl

/-- The names that a text reserves room for are those that its lines do. -/
theorem commons_text (h : ∀ line ∈ lines, line.Legible) :
    commons (lines.map Line.text) = lines.filterMap Line.common? := by
  rw [commons, List.filterMap_map]
  exact List.filterMap_congr fun line hline => commonOf?_text (h line hline)

/-- The names that a text branches to are those of the labels that its lines branch to. -/
theorem branches_text (h : ∀ line ∈ lines, line.Legible) :
    branches (lines.map Line.text) = (targets lines).map labelText := by
  rw [branches, List.filterMap_map, targets, List.map_filterMap]
  exact List.filterMap_congr fun line hline => branchOf?_text (h line hline)

variable {α β : Type} {opens : α → Bool}

/-- What opens no part and stands before the first one belongs to no part. -/
theorem parts_append_of_forall {front : List α} (h : ∀ a ∈ front, opens a = false) (rest : List α) :
    parts opens (front ++ rest) = parts opens rest := by
  induction front with
  | nil => rfl
  | cons a front ih =>
    rw [List.forall_mem_cons] at h
    rw [List.cons_append, parts, h.1, ih h.2]
    rfl

/-- What is put together from parts falls into these parts. -/
theorem parts_flatMap {rows : List β} {f : β → List α}
    (h : ∀ b ∈ rows, ∃ first rest, f b = first :: rest ∧ opens first = true ∧
      ∀ a ∈ rest, opens a = false) : parts opens (rows.flatMap f) = rows.map f := by
  induction rows with
  | nil => rfl
  | cons b rows ih =>
    rw [List.forall_mem_cons] at h
    obtain ⟨⟨first, rest, hfirst, hopens, hrest⟩, h⟩ := h
    -- what comes next opens the next part
    have hnext : (rows.flatMap f).takeWhile (! opens ·) = [] := by
      cases rows with
      | nil => rfl
      | cons next rows =>
        obtain ⟨first, rest, hfirst, hopens, -⟩ := h next List.mem_cons_self
        rw [List.flatMap_cons, hfirst, List.cons_append, List.takeWhile_cons_of_neg]
        rw [hopens]
        decide
    have htake : (rest ++ rows.flatMap f).takeWhile (! opens ·) = rest := by
      rw [List.takeWhile_append_of_pos (fun a ha => by rw [hrest a ha]; rfl), hnext,
        List.append_nil]
    rw [List.flatMap_cons, List.map_cons, hfirst, List.cons_append, parts, hopens,
      if_pos rfl, htake, parts_append_of_forall hrest, ih h]

end

end WordLang.Asm
