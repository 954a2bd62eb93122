import Mathlib.Data.List.Basic
import WordLang.Proofs.Typing.Equivalence
import WordLang.Typing

/-!
# Types are told apart by their texts

The text of a type can be read back, even when more text follows it: if two texts of types without
an `error`, each with something behind it, are the same, then the types are the same and so is what
is behind them (`Ty.text_append_inj`). So no such text is the beginning of another. What stands in
an `error` may be anything, and what has one in it is not told apart.

A message about two types that do not fit therefore never shows the same text for both.

The induction needs the stronger statement, with something behind the texts, because types are
nested and a text is followed by the rest of the text around it. Most kinds of types are told apart
by their first letters. Three things need a closer look:

* a number of elements is written in digits, and ends at the comma behind it;
* a list of types goes on if a comma comes next and ends if a bracket does, so it has to be known
  that neither of these begins the text of a type;
* a list without types and a list that begins with one are told apart by the bracket.

The texts are compared as lists of characters, for which these are equations that can be taken apart
from the left.
-/

namespace WordLang.Ty

/-- The characters of a type's text. -/
def chars (ty : Ty) : List Char :=
  ty.text.toList

/-- What stands between the brackets of a list of types. -/
def rowChars (types : List Ty) : List Char :=
  (Text.commaSeparated (texts types)).toList

section

variable {base ret ty next : Ty} {extent : UInt64} {params types rest : List Ty}

/-!
The texts of types as characters, one equation for each kind of type.
-/

@[simp]
theorem chars_int : Ty.int.chars = ['i', 'n', 't'] := rfl

@[simp]
theorem chars_bool : Ty.bool.chars = ['b', 'o', 'o', 'l'] := rfl

@[simp]
theorem chars_void : Ty.void.chars = ['v', 'o', 'i', 'd'] := rfl

@[simp]
theorem chars_array : (Ty.array base extent).chars =
    'a' :: 'r' :: 'r' :: 'a' :: 'y' :: '[' ::
      (Nat.toDigits 10 extent.toNat ++ ',' :: (base.chars ++ [']'])) := by
  simp [chars, text]

@[simp]
theorem chars_func : (Ty.func params ret).chars =
    'f' :: 'u' :: 'n' :: 'c' :: '(' :: (rowChars params ++ ')' :: ':' :: ret.chars) := by
  simp [chars, text, rowChars, Text.bracketed]

/-- The text of a list has brackets around it. -/
theorem toList_listText : (listText types).toList = '(' :: (rowChars types ++ [')']) := by
  simp [listText, rowChars, Text.bracketed]

/-- No types, no text. -/
@[simp]
theorem rowChars_nil : rowChars [] = [] := rfl

/-- A single type is written as such. -/
@[simp]
theorem rowChars_singleton : rowChars [ty] = ty.chars := rfl

/-- From the second one on, a comma and a blank stand before a type. -/
@[simp]
theorem rowChars_cons_cons :
    rowChars (ty :: next :: rest) = ty.chars ++ ',' :: ' ' :: rowChars (next :: rest) := by
  simp [chars, rowChars, Text.commaSeparated_cons_cons]

/-- A text of a type does not begin with a bracket that closes a list. -/
theorem chars_append_ne (hty : ty.errorFree = true) (rest rest' : List Char) :
    ty.chars ++ rest ≠ ')' :: rest' := by
  cases ty with
  | error message => cases hty
  | _ => simp

/-- Nor does that of a list which is not empty. -/
theorem rowChars_append_ne (hty : ty.errorFree = true) (rest' rest'' : List Char) :
    rowChars (ty :: rest) ++ rest' ≠ ')' :: rest'' := by
  cases rest with
  | nil => exact chars_append_ne hty rest' rest''
  | cons next rest =>
    rw [rowChars_cons_cons, List.append_assoc]
    exact chars_append_ne hty _ rest''

/-- What stands before the first comma, and what stands behind it. -/
theorem append_comma_inj : ∀ {first second rest rest' : List Char}, ',' ∉ first → ',' ∉ second →
    first ++ ',' :: rest = second ++ ',' :: rest' → first = second ∧ rest = rest'
  | [], [], _, _, _, _, h => ⟨rfl, (List.cons.inj h).2⟩
  | [], _ :: _, _, _, _, hsecond, h =>
    absurd ((List.cons.inj h).1 ▸ List.mem_cons_self) hsecond
  | _ :: _, [], _, _, hfirst, _, h =>
    absurd ((List.cons.inj h).1.symm ▸ List.mem_cons_self) hfirst
  | _ :: _, _ :: _, _, _, hfirst, hsecond, h => by
    obtain ⟨hhead, htail⟩ := List.cons.inj h
    obtain ⟨hsame, hrest⟩ := append_comma_inj (List.not_mem_of_not_mem_cons hfirst)
      (List.not_mem_of_not_mem_cons hsecond) htail
    exact ⟨by rw [hhead, hsame], hrest⟩

/-- A number ends where the comma is. -/
theorem toDigits_append_inj {first second : Nat} {rest rest' : List Char}
    (h : Nat.toDigits 10 first ++ ',' :: rest = Nat.toDigits 10 second ++ ',' :: rest') :
    first = second ∧ rest = rest' := by
  have hcomma : ∀ n : Nat, ',' ∉ Nat.toDigits 10 n := fun n hmem =>
    absurd (Nat.isDigit_of_mem_toDigits (by decide) (by decide) hmem) (by decide)
  obtain ⟨hdigits, hrest⟩ := append_comma_inj (hcomma first) (hcomma second) h
  have hvalue := congrArg (Nat.ofDigitChars 10 · 0) hdigits
  exact ⟨by simpa only [Nat.ofDigitChars_ten_toDigits] using hvalue, hrest⟩

end

mutual

/-- What is behind the text of a type can be told from it. -/
theorem chars_append_inj : ∀ {a b : Ty} {rest rest' : List Char}, a.errorFree = true →
    b.errorFree = true → a.chars ++ rest = b.chars ++ rest' → a = b ∧ rest = rest'
  | .int, b, rest, rest', _, hb, h => by
    cases b with
    -- the first character tells the constructors apart
    | error message => cases hb
    | _ => simp_all
  | .bool, b, rest, rest', _, hb, h => by
    cases b with
    | error message => cases hb
    | _ => simp_all
  | .void, b, rest, rest', _, hb, h => by
    cases b with
    | error message => cases hb
    | _ => simp_all
  | .error _, _, _, _, ha, _, _ => nomatch ha
  | .array base extent, b, rest, rest', ha, hb, h => by
    cases b with
    | error message => cases hb
    | array base' extent' =>
      rw [errorFree] at ha hb
      simp only [chars_array, List.cons_append, List.append_assoc, List.cons.injEq, true_and] at h
      obtain ⟨hextent, hbase⟩ := toDigits_append_inj h
      obtain ⟨rfl, hrest⟩ := chars_append_inj ha hb hbase
      obtain rfl := UInt64.toNat_inj.mp hextent
      exact ⟨rfl, (List.cons.inj hrest).2⟩
    | _ => simp at h
  | .func params ret, b, rest, rest', ha, hb, h => by
    cases b with
    | error message => cases hb
    | func params' ret' =>
      rw [errorFree, Bool.and_eq_true] at ha hb
      simp only [chars_func, List.cons_append, List.append_assoc, List.cons.injEq, true_and] at h
      obtain ⟨rfl, hrow⟩ := rowChars_append_inj ha.1 hb.1 h
      obtain ⟨rfl, hrest⟩ := chars_append_inj ha.2 hb.2 (List.cons.inj hrow).2
      exact ⟨rfl, hrest⟩
    | _ => simp at h

/-- A list ends where its bracket is closed. -/
theorem rowChars_append_inj : ∀ {as bs : List Ty} {rest rest' : List Char},
    errorFreeAll as = true → errorFreeAll bs = true →
    rowChars as ++ ')' :: rest = rowChars bs ++ ')' :: rest' → as = bs ∧ rest = rest'
  | [], [], rest, rest', _, _, h => ⟨rfl, (List.cons.inj h).2⟩
  | [], b :: bs, rest, rest', _, hb, h => by
    rw [errorFreeAll, Bool.and_eq_true] at hb
    exact absurd h.symm (rowChars_append_ne hb.1 _ _)
  | a :: as, [], rest, rest', ha, _, h => by
    rw [errorFreeAll, Bool.and_eq_true] at ha
    exact absurd h (rowChars_append_ne ha.1 _ _)
  | [a], [b], rest, rest', ha, hb, h => by
    rw [errorFreeAll, Bool.and_eq_true] at ha hb
    obtain ⟨rfl, hrest⟩ := chars_append_inj ha.1 hb.1 h
    exact ⟨rfl, (List.cons.inj hrest).2⟩
  | [a], b :: b' :: bs, rest, rest', ha, hb, h => by
    rw [errorFreeAll, Bool.and_eq_true] at ha hb
    rw [rowChars_cons_cons, List.append_assoc] at h
    -- one list goes on with a comma where the other one is closed
    have hrest := (chars_append_inj ha.1 hb.1 h).2
    simp at hrest
  | a :: a' :: as, [b], rest, rest', ha, hb, h => by
    rw [errorFreeAll, Bool.and_eq_true] at ha hb
    rw [rowChars_cons_cons, List.append_assoc] at h
    have hrest := (chars_append_inj ha.1 hb.1 h).2
    simp at hrest
  | a :: a' :: as, b :: b' :: bs, rest, rest', ha, hb, h => by
    rw [errorFreeAll, Bool.and_eq_true] at ha hb
    rw [rowChars_cons_cons, rowChars_cons_cons, List.append_assoc, List.append_assoc] at h
    obtain ⟨rfl, hrow⟩ := chars_append_inj ha.1 hb.1 h
    simp only [List.cons_append, List.cons.injEq, true_and] at hrow
    obtain ⟨htail, hrest⟩ := rowChars_append_inj ha.2 hb.2 hrow
    exact ⟨by rw [htail], hrest⟩

end

section

variable {a b : Ty} {as bs : List Ty} {rest rest' : String}

/-- The text of a type can be told from what is behind it, and the type from its text. -/
theorem text_append_inj (ha : a.errorFree = true) (hb : b.errorFree = true)
    (h : a.text ++ rest = b.text ++ rest') : a = b ∧ rest = rest' := by
  have hchars := congrArg String.toList h
  rw [String.toList_append, String.toList_append] at hchars
  obtain ⟨hsame, hrest⟩ := chars_append_inj ha hb hchars
  exact ⟨hsame, String.toList_inj.mp hrest⟩

/-- Types without an `error` have different texts unless they are equal. -/
theorem text_inj (ha : a.errorFree = true) (hb : b.errorFree = true) (h : a.text = b.text) :
    a = b := by
  have hchars : a.chars ++ [] = b.chars ++ [] := congrArg (·.toList ++ []) h
  exact (chars_append_inj ha hb hchars).1

/-- So have lists of such types. -/
theorem listText_inj (has : errorFreeAll as = true) (hbs : errorFreeAll bs = true)
    (h : listText as = listText bs) : as = bs := by
  have hchars := congrArg String.toList h
  rw [toList_listText, toList_listText] at hchars
  exact (rowChars_append_inj has hbs (List.cons.inj hchars).2).1

/-- The text of a list begins with a bracket, and that of a type does not. -/
theorem text_ne_listText (ha : a.errorFree = true) (bs : List Ty) : a.text ≠ listText bs := by
  intro h
  have hchars : a.chars = '(' :: (rowChars bs ++ [')']) :=
    (congrArg String.toList h).trans toList_listText
  cases a with
  | error message => cases ha
  | _ => simp at hchars

end

/-! ## Messages

The three messages that show two types, or a type and a list of types. Each consists of fixed words
with the texts in between, so the texts can be compared as soon as they are known to differ. -/

section

variable {pos : Position}

/-- What is said of an assignment of a value to a location of another type. -/
theorem reportAt_assign {location value : Ty} (hlocation : location.errorFree = true)
    (hvalue : value.errorFree = true) (hne : location ≠ value) :
    (location.assign value).reportAt pos [location, value] =
      [.illTyped pos ("cannot assign " ++ value.text ++ " to " ++ location.text)] := by
  have hclean := isError_of_errorFree hlocation
  have hclean' := isError_of_errorFree hvalue
  have hmisfit : ¬ location.equivalent value = true := fun h => hne (equivalent_iff.mp h).1
  rw [assign, propagate_eq_of_clean (by simp [hclean, hclean']), if_neg (by simp [hmisfit])]
  simp [reportAt, hclean, hclean']

/-- What is said of a call with arguments of other types than the parameters have. -/
theorem reportAt_call {params args : List Ty} {ret : Ty} (hargs : errorFreeAll args = true)
    (hne : params ≠ args) :
    ((Ty.func params ret).call args).reportAt pos (.func params ret :: args) =
      [.illTyped pos ("cannot call " ++ (Ty.func params ret).text ++ " using " ++
        listText args)] := by
  have hclean : ∀ arg ∈ args, arg.isError = false :=
    fun arg harg => isError_of_errorFree (errorFreeAll_iff.mp hargs arg harg)
  rw [call_func_of_clean hclean, if_neg fun h => hne h.1]
  have hnone : ¬ (Ty.func params ret :: args).any isError = true := by
    simpa [isError] using hclean
  rw [reportAt, if_neg hnone]

/-- What is said of a value that a function of another type returns. -/
theorem diagnoseReturn_of_ne {ret ty : Ty} (hty : ty.errorFree = true) (hne : ty ≠ ret) :
    diagnoseReturn pos ret ty =
      [.illTyped pos ("cannot return " ++ ty.text ++ " from a function returning " ++
        ret.text)] := by
  have hmisfit : ¬ ty.equivalent ret = true := fun h => hne (equivalent_iff.mp h).1
  rw [diagnoseReturn, if_neg (by simp [isError_of_errorFree hty, hmisfit])]

end

/-- Types without an `error` have different texts unless they are equal, none of the texts goes on
where another one ends, and lists of such types have different texts unless they are equal, and
never that of a type. So an assignment, a call or a return that is reported because two such types,
or two lists of them, are not the same is reported with different texts for the two. -/
theorem text_unambiguous :
    (∀ a b : Ty, a.errorFree = true → b.errorFree = true → a.text = b.text → a = b) ∧
    (∀ (a b : Ty) (rest : String), a.errorFree = true → b.errorFree = true →
      b.text = a.text ++ rest → rest = "") ∧
    (∀ as bs : List Ty, errorFreeAll as = true → errorFreeAll bs = true →
      listText as = listText bs → as = bs) ∧
    (∀ (callee : Ty) (args : List Ty), callee.errorFree = true → callee.text ≠ listText args) ∧
    (∀ (pos : Position) (location value : Ty), location.errorFree = true → value.errorFree = true →
      location ≠ value →
        (location.assign value).reportAt pos [location, value] =
          [.illTyped pos ("cannot assign " ++ value.text ++ " to " ++ location.text)] ∧
        value.text ≠ location.text) ∧
    (∀ (pos : Position) (params args : List Ty) (ret : Ty), errorFreeAll params = true →
      errorFreeAll args = true → params ≠ args →
        ((Ty.func params ret).call args).reportAt pos (.func params ret :: args) =
          [.illTyped pos ("cannot call " ++ ("func" ++ listText params ++ ":" ++ ret.text) ++
            " using " ++ listText args)] ∧
        listText params ≠ listText args) ∧
    ∀ (pos : Position) (ret ty : Ty), ret.errorFree = true → ty.errorFree = true → ty ≠ ret →
      diagnoseReturn pos ret ty =
        [.illTyped pos
          ("cannot return " ++ ty.text ++ " from a function returning " ++ ret.text)] ∧
      ty.text ≠ ret.text := by
  refine ⟨fun a b ha hb h => text_inj ha hb h, fun a b rest ha hb h => ?_,
    fun as bs has hbs h => listText_inj has hbs h,
    fun callee args hcallee => text_ne_listText hcallee args,
    fun pos location value hlocation hvalue hne =>
      ⟨reportAt_assign hlocation hvalue hne, fun h => ?_⟩,
    fun pos params args ret hparams hargs hne => ⟨reportAt_call hargs hne, fun h => ?_⟩,
    fun pos ret ty hret hty hne => ⟨diagnoseReturn_of_ne hty hne, fun h => ?_⟩⟩
  · have hrest : b.text ++ "" = a.text ++ rest := by rw [String.append_empty, h]
    exact (text_append_inj hb ha hrest).2.symm
  · exact hne (text_inj hlocation hvalue h.symm)
  · exact hne (listText_inj hparams hargs h)
  · exact hne (text_inj hty hret h)

/-- Functions of which one takes a row of three and the other a row of thirty-one, or in which one
parameter is a function that takes the other parameter. -/
theorem text_unambiguous_nested :
    let row (extent : UInt64) : Ty := .array (.func [] .bool) extent
    let visit (extent : UInt64) : Ty := .func [row extent, .int] .void
    (visit 3).text = "func(array[3,func():bool], int):void" ∧
      (visit 3).text ≠ (visit 31).text ∧
      ((visit 3).assign (visit 31)).reportAt {} [visit 3, visit 31] =
        [.illTyped {} ("cannot assign " ++ (visit 31).text ++ " to " ++ (visit 3).text)] ∧
      listText [.func [.int] .int, .bool] ≠ listText [.func [.int, .bool] .int] ∧
      ∀ rest, (visit 31).text = (visit 3).text ++ rest → rest = "" := by
  intro row visit
  obtain ⟨htext, hrest, hlist, -, hassign, -, -⟩ := text_unambiguous
  have hne : visit 3 ≠ visit 31 := by decide
  refine ⟨by decide +kernel, fun h => hne (htext _ _ rfl rfl h), (hassign {} _ _ rfl rfl hne).1,
    fun h => ?_, fun rest => hrest _ _ rest rfl rfl⟩
  exact absurd (hlist _ _ rfl rfl h) (by decide)

/-- What is in an `error` may look like the rest of a list. -/
example : (Ty.func [.error "a), error(b"] .void).text =
    (Ty.func [.error "a", .error "b"] .void).text := by decide +kernel

end WordLang.Ty
