import WordLang.Position

/-!
# Diagnostics

What is wrong with a program, and where. A diagnostic keeps its cause; `Diagnostic.text` is the
one place that words it.
-/

namespace WordLang

/-- A problem found before any code is made. -/
inductive Diagnostic where
  /-- the scope already declares this name -/
  | duplicate (pos : Position) (name : String)
  /-- no open scope declares this name -/
  | unresolved (pos : Position) (name : String)
  /-- a rule of the types is broken -/
  | illTyped (pos : Position) (message : String)
deriving DecidableEq

/-- Where the problem is. -/
def Diagnostic.pos : Diagnostic → Position
  | .duplicate pos _ => pos
  | .unresolved pos _ => pos
  | .illTyped pos _ => pos

/-- The line shown to the user. -/
def Diagnostic.text : Diagnostic → String
  | .duplicate pos name =>
    "DeclareSymbolError" ++ pos.text ++ "[Already defined in this scope " ++ name ++ ".]"
  | .unresolved pos name => "ResolveSymbolError" ++ pos.text ++ "[Could not find " ++ name ++ ".]"
  | .illTyped pos message => "TypeError" ++ pos.text ++ "[" ++ message ++ "]"

end WordLang
