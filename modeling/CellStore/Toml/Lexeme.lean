/-! # TOML blanks, strings and keys

Readers take the text that is left and give what they read with the text after
it, or nothing where the text does not fit. Blanks are spaces and tabs, lines end
with a line feed that a carriage return may precede, and of the control
characters only the tab may stand in strings and comments.
-/
namespace CellStore.Toml

def isBlank (c : Char) : Bool := c == ' ' || c == '\t'

def skipBlanks (cs : List Char) : List Char := cs.dropWhile isBlank

/-- The text after the end of a line. -/
def newline? : List Char → Option (List Char)
  | '\n' :: cs => some cs
  | '\r' :: '\n' :: cs => some cs
  | _ => none

/-- The characters that may stand in comments and, apart from delimiters, in strings. -/
def isPlain (c : Char) : Bool := c == '\t' || (0x20 ≤ c.toNat && c.toNat != 0x7f)

/-- The text after what may end a line: blanks, a comment, and a line end or the end of the text. -/
def lineEnd? (cs : List Char) : Option (List Char) :=
  let rest := match skipBlanks cs with
    | '#' :: cs => cs.dropWhile isPlain
    | cs => cs
  if rest.isEmpty then some [] else newline? rest

/-- Skip blanks, line ends and comments. -/
def skipLines : (inComment : Bool) → List Char → List Char
  | false, ' ' :: cs | false, '\t' :: cs => skipLines false cs
  | false, '#' :: cs => skipLines true cs
  | _, '\n' :: cs => skipLines false cs
  | _, '\r' :: '\n' :: cs => skipLines false cs
  | true, c :: cs => if isPlain c then skipLines true cs else c :: cs
  | _, cs => cs

/-! ## Strings -/

def hexDigit? (c : Char) : Option Nat :=
  if '0' ≤ c ∧ c ≤ '9' then some (c.toNat - '0'.toNat)
  else if 'a' ≤ c ∧ c ≤ 'f' then some (c.toNat - 'a'.toNat + 10)
  else if 'A' ≤ c ∧ c ≤ 'F' then some (c.toNat - 'A'.toNat + 10)
  else none

/-- So many hexadecimal digits after a number read before. -/
def hex : Nat → Nat → List Char → Option (Nat × List Char)
  | 0, value, cs => some (value, cs)
  | _ + 1, _, [] => none
  | n + 1, value, c :: cs => do hex n (value * 16 + (← hexDigit? c)) cs

/-- A character given by its number. -/
def codePoint (digits : Nat) (cs : List Char) : Option (Char × List Char) := do
  let (value, cs) ← hex digits 0 cs
  if value.isValidChar then some (Char.ofNat value, cs) else none

/-- The character that an escape stands for; the text starts behind the backslash. -/
def escape : List Char → Option (Char × List Char)
  | 'b' :: cs => some ('\x08', cs)
  | 't' :: cs => some ('\t', cs)
  | 'n' :: cs => some ('\n', cs)
  | 'f' :: cs => some ('\x0c', cs)
  | 'r' :: cs => some ('\r', cs)
  | '\x22' :: cs => some ('\x22', cs)
  | '\x5c' :: cs => some ('\x5c', cs)
  | 'u' :: cs => codePoint 4 cs
  | 'U' :: cs => codePoint 8 cs
  | _ => none

/-- The rest of a basic string on one line. -/
def basic : (fuel : Nat) → List Char → Option (List Char × List Char)
  | 0, _ => none
  | _ + 1, '\x22' :: cs => some ([], cs)
  | n + 1, '\x5c' :: cs => do
    let (c, cs) ← escape cs
    let (text, cs) ← basic n cs
    some (c :: text, cs)
  | n + 1, c :: cs =>
    if isPlain c then (basic n cs).map fun (text, cs) => (c :: text, cs) else none
  | _ + 1, [] => none

/-- The rest of a literal string on one line. -/
def literal (cs : List Char) : Option (List Char × List Char) :=
  let text := cs.takeWhile fun c => isPlain c && c != '\x27'
  match cs.drop text.length with
  | '\x27' :: cs => some (text, cs)
  | _ => none

/-- How many of the next quotes belong to the text of a string over several lines, and whether it
ends with them: three quotes end it, and up to two may stand right before them. -/
def closing (quotes : Nat) : Nat × Bool :=
  if quotes < 3 then (quotes, false) else (min (quotes - 3) 2, true)

/-- The rest of a string over several lines between the given quotes; only basic strings have
escapes. A backslash at the end of a line joins the text before it and the next text after it. -/
def lines (quote : Char) (escapes : Bool) : (fuel : Nat) → List Char → Option (List Char × List Char)
  | 0, _ => none
  | _ + 1, [] => none
  | n + 1, c :: cs =>
    if c = quote then
      let (kept, ends) := closing ((c :: cs).takeWhile (· == quote)).length
      if ends then some (List.replicate kept quote, (c :: cs).drop (kept + 3))
      else (lines quote escapes n ((c :: cs).drop kept)).map fun (text, cs) =>
        (List.replicate kept quote ++ text, cs)
    else if escapes && c = '\x5c' then
      match newline? (skipBlanks cs) with
      | some cs => lines quote escapes n (joined cs)
      | none => do
        let (c, cs) ← escape cs
        let (text, cs) ← lines quote escapes n cs
        some (c :: text, cs)
    else match newline? (c :: cs) with
      | some cs => (lines quote escapes n cs).map fun (text, cs) => ('\n' :: text, cs)
      | none =>
        if isPlain c then (lines quote escapes n cs).map fun (text, cs) => (c :: text, cs) else none
where
  /-- The text without the blanks and line ends it begins with. -/
  joined : List Char → List Char
    | ' ' :: cs | '\t' :: cs | '\n' :: cs => joined cs
    | '\r' :: '\n' :: cs => joined cs
    | cs => cs

/-- A line end right behind the opening quotes is not part of the text. -/
def dropFirstNewline (cs : List Char) : List Char := (newline? cs).getD cs

/-- A string of any of the four kinds. -/
def string? : List Char → Option (String × List Char)
  | '\x22' :: '\x22' :: '\x22' :: cs =>
    let cs := dropFirstNewline cs
    (lines '\x22' true (cs.length + 1) cs).map fun (text, cs) => (String.ofList text, cs)
  | '\x27' :: '\x27' :: '\x27' :: cs =>
    let cs := dropFirstNewline cs
    (lines '\x27' false (cs.length + 1) cs).map fun (text, cs) => (String.ofList text, cs)
  | '\x22' :: cs => (basic (cs.length + 1) cs).map fun (text, cs) => (String.ofList text, cs)
  | '\x27' :: cs => (literal cs).map fun (text, cs) => (String.ofList text, cs)
  | _ => none

/-! ## Keys -/

def isBareKey (c : Char) : Bool := c.isAlphanum || c == '_' || c == '-'

/-- One key: a string on one line, or letters, digits, dashes and underscores of ASCII. -/
def key? : List Char → Option (String × List Char)
  | '\x22' :: cs => (basic (cs.length + 1) cs).map fun (text, cs) => (String.ofList text, cs)
  | '\x27' :: cs => (literal cs).map fun (text, cs) => (String.ofList text, cs)
  | cs =>
    let text := cs.takeWhile isBareKey
    if text.isEmpty then none else some (String.ofList text, cs.drop text.length)

/-- Keys joined by dots, with blanks around each. -/
def keyPath : (fuel : Nat) → List Char → Option (List String × List Char)
  | 0, _ => none
  | n + 1, cs => do
    let (key, cs) ← key? (skipBlanks cs)
    match skipBlanks cs with
    | '.' :: cs => (keyPath n cs).map fun (path, cs) => (key :: path, cs)
    | cs => some ([key], cs)

end CellStore.Toml
