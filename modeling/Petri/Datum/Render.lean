import Petri.Datum.Fault
import Petri.Datum.Meaning
import Petri.Decimal.Layout
import Petri.Table
import Petri.Text.Numeral
import Petri.Text.Quoted

/-!
# Values as text

`render?` writes a value so that its kind shows: text in quotes, collections in their brackets. `label?` is
the same but for text, which stands as it is. A marking shows each place once, with its last count, an arc
its ends from source to target. A value has no text if it shows a number that has no numeral; where the text
is needed all the same, that is a fault (`label`).
-/

namespace Petri.Datum

/-- The texts with `, ` between them. -/
def commaSeparated (texts : List String) : String :=
  ", ".intercalate texts

/-- The text of a count per name, given the label of each: `-` if there is none. -/
def summary (labels : List (String × String)) : String :=
  if labels.isEmpty then "-" else commaSeparated (labels.map fun e => e.1 ++ ":" ++ e.2)

/-- The labels of entries whose keys may be repeated. A repeated key is shown once, where it first
stands, with its last value; the others are not written. -/
def mergedLabels? (entries : List (Datum × Option String × Option String)) :
    Option (List (String × String)) :=
  let merged : Table Datum (Option String × Option String) :=
    entries.foldl (fun t e => t.upsert e.1 e.2 fun old => (old.1, e.2.2)) ⟨[]⟩
  merged.entries.mapM fun e => do return (← e.2.1, ← e.2.2)

/-- A text stands for itself; of any other value the given text is the label. -/
def labelOr (x : Datum) (rendered : Option String) : Option String :=
  match x with
  | str s => some s
  | _ => rendered

/-- The text of an arc, given those of its ends and its label. -/
def arcText (d : Direction) (place transition label : String) : String :=
  let (source, target) :=
    match d with
    | .pre => (place, transition)
    | .post => (transition, place)
  d.name ++ "(" ++ source ++ " -> " ++ target ++ ", " ++ label ++ ")"

mutual

/-- The value as text that shows its kind. -/
def render? : Datum → Option String
  | null => some "None"
  | bool true => some "True"
  | bool false => some "False"
  | int n => Text.numeral? n
  | float x _ => some (Decimal.Layout.standard.text (.ofFloat x))
  | str s => some (Text.quoted s)
  | list xs => do return "[" ++ commaSeparated (← renderAll? xs) ++ "]"
  | tuple [x] => do return "(" ++ (← x.render?) ++ ",)"
  | tuple xs => do return "(" ++ commaSeparated (← renderAll? xs) ++ ")"
  | dict es => do return "\x7b" ++ commaSeparated (← renderEntries? es) ++ "\x7d"
  | set [] => some "set()"
  | set xs => do return "\x7b" ++ commaSeparated (← renderAll? xs) ++ "\x7d"
  | frozenset [] => some "frozenset()"
  | frozenset xs => do return "frozenset(\x7b" ++ commaSeparated (← renderAll? xs) ++ "\x7d)"
  | stream .. => some "<stream>"
  | marking es => do return "Marking(" ++ summary (← mergedLabels? (labelEntries es)) ++ ")"
  | arc d p t label => do return arcText d (← p.render?) (← t.render?) (← Text.numeral? label)
  | entity _ text => text
  | graph _ text _ => some text

/-- The texts of the items. -/
def renderAll? : List Datum → Option (List String)
  | [] => some []
  | x :: xs => do return (← x.render?) :: (← renderAll? xs)

/-- The texts of the entries, a colon between key and value. -/
def renderEntries? : List (Datum × Datum) → Option (List String)
  | [] => some []
  | (k, v) :: es => do return ((← k.render?) ++ ": " ++ (← v.render?)) :: (← renderEntries? es)

/-- The entries with the labels of key and value. -/
def labelEntries : List (Datum × Datum) → List (Datum × Option String × Option String)
  | [] => []
  | (k, v) :: es => (k, labelOr k k.render?, labelOr v v.render?) :: labelEntries es

end

/-- The value as text, a text as it is. -/
def label? (x : Datum) : Option String :=
  labelOr x x.render?

/-- The value as text where one is needed. -/
def label (x : Datum) : Except Fault String :=
  match x.label? with
  | some s => .ok s
  | none => .error .noNumeral

/-- The values as the text of a list. -/
def renderList? (xs : List Datum) : Option String :=
  (list xs).render?

end Petri.Datum
