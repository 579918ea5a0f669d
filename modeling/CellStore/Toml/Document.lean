import CellStore.Toml.Scalar
import CellStore.Toml.Value

/-! # TOML documents

A document is read as a list of statements, a key with its value or a header
each, and the statements build its root table in turn.
-/
namespace CellStore.Toml

/-- Values nest, and dotted keys have parts, fewer than this. -/
def depthLimit : Nat := 80

/-- Text that does not fit is no part of a document. -/
def expect {α : Type} : Option α → Except Fault α
  | some a => .ok a
  | none => .error .malformed

/-- A dotted key, and the text after it. -/
def readPath (cs : List Char) : Except Fault (List String × List Char) := do
  let (path, cs) ← expect (keyPath (cs.length + 1) cs)
  if path.length < depthLimit then return (path, cs) else .error .tooDeep

/-- The items of an array behind its bracket. -/
def readItems (value : List Char → Except Fault (Value × List Char)) :
    (fuel : Nat) → List Char → Except Fault (List Value × List Char)
  | 0, _ => .error .malformed
  | n + 1, cs =>
    match skipLines false cs with
    | ']' :: cs => .ok ([], cs)
    | cs => do
      let (v, cs) ← value cs
      match skipLines false cs with
      | ',' :: cs =>
        let (vs, cs) ← readItems value n cs
        return (v :: vs, cs)
      | ']' :: cs => return ([v], cs)
      | _ => .error .malformed

/-- The keys of a table in braces with their values, at least one of them. -/
def readPairs (value : List Char → Except Fault (Value × List Char)) :
    (fuel : Nat) → List Char → Except Fault (List (List String × Value) × List Char)
  | 0, _ => .error .malformed
  | n + 1, cs => do
    let (path, cs) ← readPath cs
    let (v, cs) ← value (skipBlanks (← expect (after? '=' cs)))
    match skipBlanks cs with
    | ',' :: cs =>
      let (pairs, cs) ← readPairs value n cs
      return ((path, v) :: pairs, cs)
    | '\x7d' :: cs => return ([(path, v)], cs)
    | _ => .error .malformed

/-- The table of the pairs in braces. -/
def tableOfPairs (pairs : List (List String × Value)) : Except Fault Value := do
  let entries ← pairs.foldlM
    (fun es p => Entries.addInBraces p.1.dropLast (p.1.getLast?.getD "") p.2 es) []
  return .table .braces entries

def readScalar (cs : List Char) : Except Fault (Value × List Char) :=
  match cs with
  | 't' :: 'r' :: 'u' :: 'e' :: cs => .ok (.boolean true, cs)
  | 'f' :: 'a' :: 'l' :: 's' :: 'e' :: cs => .ok (.boolean false, cs)
  | '\x22' :: _ | '\x27' :: _ => do
    let (s, cs) ← expect (string? cs)
    return (.string s, cs)
  | _ =>
    match moment? cs with
    | some rest => .ok (.moment (String.ofList (cs.take (cs.length - rest.length))), rest)
    | none => do
      match ← expect (number? cs) with
      | (.integer n, cs) => return (.integer n, cs)
      | (.float text, cs) => return (.float text, cs)

/-- A value, and the text after it. -/
def readValue : (depth : Nat) → List Char → Except Fault (Value × List Char)
  | 0, _ => .error .tooDeep
  | depth + 1, '[' :: cs => do
    if depth = 0 then .error .tooDeep
    let (items, cs) ← readItems (readValue depth) (cs.length + 1) cs
    return (.array items, cs)
  | depth + 1, '\x7b' :: cs => do
    if depth = 0 then .error .tooDeep
    match skipBlanks cs with
    | '\x7d' :: cs => return (.table .braces [], cs)
    | cs =>
      let (pairs, cs) ← readPairs (readValue depth) (cs.length + 1) cs
      return (← tableOfPairs pairs, cs)
  | _ + 1, cs => readScalar cs

inductive Statement where
  | pair (path : List String) (v : Value)
  | header (path : List String)
  | itemHeader (path : List String)

/-- The statements of a text. -/
def readStatements : (fuel : Nat) → List Char → Except Fault (List Statement)
  | 0, _ => .error .malformed
  | n + 1, cs =>
    match skipLines false cs with
    | [] => .ok []
    | '[' :: '[' :: cs => do
      let (path, cs) ← readPath cs
      let cs ← expect (lineEnd? (← expect (after? ']' (← expect (after? ']' cs)))))
      return .itemHeader path :: (← readStatements n cs)
    | '[' :: cs => do
      let (path, cs) ← readPath cs
      let cs ← expect (lineEnd? (← expect (after? ']' cs)))
      return .header path :: (← readStatements n cs)
    | cs => do
      let (path, cs) ← readPath cs
      let (v, cs) ← readValue depthLimit (skipBlanks (← expect (after? '=' cs)))
      let cs ← expect (lineEnd? cs)
      return .pair path v :: (← readStatements n cs)

/-- The root table while a document is built, and the path of the header in force. -/
structure Building where
  root : Entries := []
  header : List String := []

namespace Building

def add (b : Building) : Statement → Except Fault Building
  | .pair path v => do
    let key := path.getLast?.getD ""
    return { b with root := ← Entries.atHeader (Entries.addDotted path.dropLast key v) b.header b.root }
  | .header path => do
    let key := path.getLast?.getD ""
    return ⟨← Entries.atHeader (Entries.openTable key) path.dropLast b.root, path⟩
  | .itemHeader path => do
    let key := path.getLast?.getD ""
    return ⟨← Entries.atHeader (Entries.openItem key) path.dropLast b.root, path⟩

end Building

/-- The root table of a text. A byte order mark in front is passed over. -/
def parse (text : String) : Except Fault Entries := do
  let cs := match text.toList with
    | '\ufeff' :: cs => cs
    | cs => cs
  let statements ← readStatements (cs.length + 1) cs
  return (← statements.foldlM Building.add {}).root

end CellStore.Toml
