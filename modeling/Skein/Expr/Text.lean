import Skein.Expr

/-!
# The text of expressions

Trees are written as forms.  A literal list or symbol is marked by a quote, so that it is
told apart from a call or a reference.
-/

namespace Skein.Expr

open Text (spaced)

/-- The text of a literal. -/
def literalText : Datum → String
  | d@(.list _) | d@(.scalar (.symbol _)) => "'" ++ d.text
  | d => d.text

/-- The text of a function that a tree holds. -/
def builtinText (b : Builtin) : String := "#<native " ++ b.name ++ ">"

/-- The text before the variable of a clause. -/
def selectorText : Selector → List String
  | .any => []
  | .kind name => [":" ++ name]

mutual

/-- The text of a tree. -/
def text : Expr → String
  | literal d => literalText d
  | builtin b => builtinText b
  | var x => x
  | call f args => "(" ++ spaced (text f :: texts args) ++ ")"
  | cond test yes no => "(" ++ spaced ["if", text test, text yes, text no] ++ ")"
  | seq es => "(" ++ spaced ("do" :: texts es) ++ ")"
  | bind bindings body => "(let [" ++ spaced (bindingTexts bindings) ++ "] " ++ text body ++ ")"
  | loop bindings body => "(loop [" ++ spaced (bindingTexts bindings) ++ "] " ++ text body ++ ")"
  | recur args => "(" ++ spaced ("recur" :: texts args) ++ ")"
  | protect body clauses cleanup =>
    "(" ++ spaced ("try" :: text body :: (clauseTexts clauses ++ cleanupTexts cleanup)) ++ ")"
  | define x e => "(" ++ spaced ["def", x, text e] ++ ")"
  | lambda name params body =>
    "(" ++ spaced ("fn" :: name.toList ++ ["[" ++ spaced params ++ "]", text body]) ++ ")"

/-- The texts of some trees. -/
def texts : List Expr → List String
  | [] => []
  | e :: es => text e :: texts es

/-- The texts of some bindings, each a name and an initial value. -/
def bindingTexts : List (Symbol × Expr) → List String
  | [] => []
  | (x, e) :: bs => spaced [x, text e] :: bindingTexts bs

/-- The texts of some clauses. -/
def clauseTexts : List (Clause Expr) → List String
  | [] => []
  | ⟨selector, x, e⟩ :: cs =>
    ("(" ++ spaced ("catch" :: selectorText selector ++ [x, text e]) ++ ")") :: clauseTexts cs

/-- The text of a cleanup, if there is one. -/
def cleanupTexts : Option Expr → List String
  | none => []
  | some e => ["(" ++ spaced ["finally", text e] ++ ")"]

end

end Skein.Expr
