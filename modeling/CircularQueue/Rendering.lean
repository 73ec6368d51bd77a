/-!
# Renderings

A value is shown for inspection either on one line, as in `Name { a: 1, b: 2 }`, or on
several, one field to a line, indented by four blanks and ended by a comma. A `Rendering` holds
both forms. They are built together by `atom` and `record`, so no form has to be taken apart again
when a record becomes a field of another one.
-/

namespace CircularQueue

/-- A value as it is shown for inspection: on one line, and as the list of its lines. -/
structure Rendering where
  inline : String
  lines : List String
deriving DecidableEq

namespace Rendering

/-- A value shown the same way in both forms. -/
def atom (text : String) : Rendering := ⟨text, [text]⟩

/-- The form on several lines. -/
def pretty (r : Rendering) : String := "\n".intercalate r.lines

/-- The lines with a text before the first one and a text after the last one. -/
def framed (before after : String) : List String → List String
  | [] => []
  | [l] => [before ++ l ++ after]
  | l :: ls => (before ++ l) :: framed "" after ls

/-- The lines moved in by one step. -/
def indented (ls : List String) : List String := ls.map ("    " ++ ·)

/-- A record shown with its name and its fields. Two dots stand for fields that are not shown. -/
def record (name : String) (fields : List (String × Rendering)) (hidden : Bool) : Rendering where
  inline :=
    let shown := fields.map fun (field, value) => field ++ ": " ++ value.inline
    name ++ " \x7b " ++ ", ".intercalate (if hidden then shown ++ [".."] else shown) ++ " \x7d"
  lines :=
    let shown := fields.flatMap fun (field, value) => framed (field ++ ": ") "," value.lines
    (name ++ " \x7b") :: indented (if hidden then shown ++ [".."] else shown) ++ ["\x7d"]

def nat (n : Nat) : Rendering := atom (toString n)

def int (n : Int) : Rendering := atom (toString n)

def bool (b : Bool) : Rendering := atom (if b then "true" else "false")

end Rendering

end CircularQueue
