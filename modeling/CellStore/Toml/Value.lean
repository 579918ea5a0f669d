/-! # TOML values

A table remembers how it came to be, because that decides who may still add to
it: headers may go through any table but one in braces, dotted keys through the
tables that dotted keys made. No table is defined twice and no key is given
twice.
-/
namespace CellStore.Toml

/-- How a table came to be. -/
inductive Origin where
  /-- By its own header; the root table counts as one. -/
  | header
  /-- By the header of a table inside it. -/
  | implied
  /-- By a dotted key in the section of a header. -/
  | dotted
  /-- By braces. -/
  | braces
  /-- By a dotted key inside braces. -/
  | bracesDotted
deriving DecidableEq, Repr

inductive Value where
  | string (s : String)
  | integer (n : Int)
  /-- A float, as it is written. -/
  | float (text : String)
  | boolean (b : Bool)
  /-- A date or a time, as it is written. -/
  | moment (text : String)
  | array (items : List Value)
  | table (origin : Origin) (entries : List (String × Value))
  /-- An array of the tables under one header, each with its entries; the last one is open. -/
  | tables (items : List (List (String × Value)))

/-- Why a text is not a document. -/
inductive Fault where
  | malformed
  | tooDeep
  | duplicateKey (key : String)
  | notATable (key : String)
deriving DecidableEq, Repr

namespace Fault

def message : Fault → String
  | malformed => "the text is not a document"
  | tooDeep => "values or keys nest too deeply"
  | duplicateKey key => "duplicate key " ++ key
  | notATable key => "not a table: " ++ key

end Fault

abbrev Entries := List (String × Value)

namespace Entries

/-- Give an entry its new value. -/
def replace (key : String) (v : Value) : Entries → Entries
  | [] => []
  | (k, old) :: es => if k = key then (k, v) :: es else (k, old) :: replace key v es

/-- Add an entry whose key is new. -/
def add (key : String) (v : Value) (es : Entries) : Except Fault Entries :=
  if (es.lookup key).isSome then .error (.duplicateKey key) else .ok (es ++ [(key, v)])

/-- Change the table at the end of a path. Tables that are missing are made with the origin `made`;
the path may go through tables of the origins `through` and into the last of an array of tables. -/
def within (made : Origin) (through : Origin → Bool) (change : Origin → Entries → Except Fault Entries) :
    List String → Origin → Entries → Except Fault Entries
  | [], origin, es => change origin es
  | key :: path, _, es =>
    match es.lookup key with
    | none => do return es ++ [(key, .table made (← within made through change path made []))]
    | some (.table origin inner) =>
      if through origin then do
        return replace key (.table origin (← within made through change path origin inner)) es
      else .error (.duplicateKey key)
    | some (.tables items) =>
      match items.getLast? with
      | some last => do
        let last ← within made through change path .header last
        return replace key (.tables (items.dropLast ++ [last])) es
      | none => .error (.notATable key)
    | some _ => .error (.notATable key)

/-- Change the table of a header. -/
def atHeader (change : Entries → Except Fault Entries) (path : List String) (es : Entries) :
    Except Fault Entries :=
  within .implied (fun o => o == .header || o == .implied || o == .dotted) (fun _ => change) path .header es

/-- Give the value of a dotted key in a section: tables that a header made are closed to it. -/
def addDotted (path : List String) (key : String) (v : Value) (es : Entries) : Except Fault Entries :=
  within .dotted (fun o => o == .implied || o == .dotted)
    (fun origin es =>
      if !path.isEmpty && origin != .dotted then .error (.duplicateKey key) else add key v es)
    path .header es

/-- Give the value of a dotted key inside braces. -/
def addInBraces (path : List String) (key : String) (v : Value) (es : Entries) : Except Fault Entries :=
  within .bracesDotted (· == .bracesDotted) (fun _ => add key v) path .braces es

/-- Open a table under its header, which may come only once. -/
def openTable (key : String) (es : Entries) : Except Fault Entries :=
  match es.lookup key with
  | none => .ok (es ++ [(key, .table .header [])])
  | some (.table .implied inner) => .ok (replace key (.table .header inner) es)
  | some _ => .error (.duplicateKey key)

/-- Open one more table of an array of tables. -/
def openItem (key : String) (es : Entries) : Except Fault Entries :=
  match es.lookup key with
  | none => .ok (es ++ [(key, .tables [[]])])
  | some (.tables items) => .ok (replace key (.tables (items ++ [[]])) es)
  | some _ => .error (.duplicateKey key)

end Entries

end CellStore.Toml
