import SeededChoice.Text.Blank

/-!
# Environment files

The text of an environment file is a list of bindings `NAME=value`, one to a line unless a quoted
value goes on. Bindings come in order; a line that is no binding is skipped, and so is a byte order
mark at the start. References `${NAME}` inside values are resolved by earlier bindings and the
environment.
-/

namespace SeededChoice.EnvFile

/-- The text behind a byte order mark, if it opens with one. -/
def dropOrderMark : List Char → List Char
  | '\uFEFF' :: rest => rest
  | cs => cs

/-- Every line end as a line feed. -/
def unifyLines : List Char → List Char
  | '\r' :: '\n' :: rest => '\n' :: unifyLines rest
  | '\r' :: rest => '\n' :: unifyLines rest
  | c :: rest => c :: unifyLines rest
  | [] => []

/-- A blank that does not end the line. -/
def isInlineBlank (c : Char) : Bool := Text.isSeparator c && c != '\n'

def dropInline (cs : List Char) : List Char := cs.dropWhile isInlineBlank

/-- What follows the current line. -/
def nextLine (cs : List Char) : List Char := (cs.dropWhile (· != '\n')).drop 1

/-! ### Parts of a binding -/

/-- Drops the word `export` where a blank follows it. -/
def dropExport (cs : List Char) : List Char :=
  let word := "export".toList
  let rest := cs.drop word.length
  if cs.take word.length == word && (rest.head?.map isInlineBlank).getD false then dropInline rest
  else cs

/-- The name of a binding, none before a comment, and what follows it. -/
def readName? : List Char → Option (Option String × List Char)
  | '#' :: rest => some (none, '#' :: rest)
  | '\'' :: rest =>
    let name := rest.takeWhile (· != '\'')
    match rest.dropWhile (· != '\'') with
    | _ :: after => if name.isEmpty then none else some (some (String.ofList name), after)
    | [] => none
  | cs =>
    let inName (c : Char) : Bool := c != '=' && c != '#' && !Text.isSeparator c
    let name := cs.takeWhile inName
    if name.isEmpty then none else some (some (String.ofList name), cs.dropWhile inName)

/-- Splits off a quoted text, up to its closing quote. The character after a backslash closes
nothing. -/
def readQuoted? (quote : Char) : List Char → Option (List Char × List Char)
  | '\\' :: c :: rest =>
    (readQuoted? quote rest).map fun (text, after) => ('\\' :: c :: text, after)
  | c :: rest =>
    if c = quote then some ([], rest)
    else (readQuoted? quote rest).map fun (text, after) => (c :: text, after)
  | [] => none

/-- Replaces the escapes that `meaning` knows; other backslashes stay. -/
def unescape (meaning : Char → Option Char) : List Char → List Char
  | '\\' :: c :: rest =>
    match meaning c with
    | some d => d :: unescape meaning rest
    | none => '\\' :: unescape meaning (c :: rest)
  | c :: rest => c :: unescape meaning rest
  | [] => []

def literalEscape (c : Char) : Option Char := if c = '\\' || c = '\'' then some c else none

def fullEscape (c : Char) : Option Char :=
  if c = '\\' || c = '\'' || c = '"' then some c
  else match c with
    | 'a' => some '\x07'
    | 'b' => some '\x08'
    | 'f' => some '\x0c'
    | 'n' => some '\n'
    | 'r' => some '\r'
    | 't' => some '\t'
    | 'v' => some '\x0b'
    | _ => none

/-- Cuts off a comment: a `#` after blanks, and all that follows. -/
def cutComment : List Char → List Char
  | [] => []
  | c :: rest =>
    if Text.isSeparator c && (rest.dropWhile Text.isSeparator).head? == some '#' then []
    else c :: cutComment rest

/-- The value after an equals sign: a quoted text, or else the line without its comment. -/
def readValue? (cs : List Char) : Option (List Char × List Char) :=
  match dropInline cs with
  | '\'' :: rest =>
    (readQuoted? '\'' rest).map fun (text, after) => (unescape literalEscape text, after)
  | '"' :: rest =>
    (readQuoted? '"' rest).map fun (text, after) => (unescape fullEscape text, after)
  | _ =>
    let line := cs.takeWhile (· != '\n')
    some (Text.trim Text.isSeparator (cutComment line), cs.dropWhile (· != '\n'))

/-- What follows an optional comment and the end of the line, if nothing else is on the line. -/
def endLine? (cs : List Char) : Option (List Char) :=
  match dropInline cs with
  | '#' :: rest => some (nextLine rest)
  | '\n' :: rest => some rest
  | [] => some []
  | _ => none

/-! ### Bindings -/

/-- A name with its value; a name alone has none. -/
abbrev Binding := String × Option String

/-- Reads one binding, or skips a line that is none. -/
def readBinding (cs : List Char) : Option Binding × List Char :=
  let cs := dropExport (cs.dropWhile Text.isSeparator)
  match readName? cs with
  | none => (none, nextLine cs)
  | some (name, rest) =>
    let named (value : Option String) : Option Binding := name.map (·, value)
    match dropInline rest with
    | '=' :: more =>
      match readValue? more with
      | none => (none, nextLine more)
      | some (value, rest) =>
        match endLine? rest with
        | some rest => (named (some (String.ofList value)), rest)
        | none => (none, nextLine rest)
    | rest =>
      match endLine? rest with
      | some rest => (named none, rest)
      | none => (none, nextLine rest)

/-- Reads bindings to the end of the text. Each one takes at least a character, so the length of the
text bounds their number. -/
def readBindings : Nat → List Char → List Binding
  | 0, _ => []
  | _, [] => []
  | n + 1, cs =>
    let (binding, rest) := readBinding cs
    binding.toList ++ readBindings n rest

/-! ### References -/

/-- Splits off a reference after `${`: its name, its default, and what follows. -/
def readReference? (cs : List Char) : Option (String × String × List Char) :=
  let inName (c : Char) : Bool := c != '}' && c != ':'
  let name := String.ofList (cs.takeWhile inName)
  match cs.dropWhile inName with
  | '}' :: rest => some (name, "", rest)
  | ':' :: '-' :: rest =>
    match rest.dropWhile (· != '}') with
    | _ :: after => some (name, String.ofList (rest.takeWhile (· != '}')), after)
    | [] => none
  | _ => none

/-- Replaces references by what `lookup` says of the name, given the default. The first argument
bounds the number of steps; the length of the text is always enough. -/
def substitute (lookup : String → String → String) : Nat → List Char → List Char
  | n + 1, '$' :: '{' :: rest =>
    match readReference? rest with
    | some (name, default, after) => (lookup name default).toList ++ substitute lookup n after
    | none => '$' :: substitute lookup n ('{' :: rest)
  | n + 1, c :: rest => c :: substitute lookup n rest
  | _, cs => cs

/-- Sets a name, in its old place if it has one. -/
def put (bindings : List Binding) (name : String) (value : Option String) : List Binding :=
  if bindings.any (·.1 == name) then
    bindings.map fun b => if b.1 == name then (name, value) else b
  else bindings ++ [(name, value)]

/-- The text that a name stands for: an earlier binding, then the environment, then the default. -/
def valueOf (environment : List (String × String)) (bindings : List Binding)
    (name default : String) : String :=
  match bindings.lookup name with
  | some value => value.getD ""
  | none => (environment.lookup name).getD default

/-- Resolves the references of each binding in turn. -/
def resolve (environment : List (String × String)) (bindings : List Binding) : List Binding :=
  bindings.foldl
    (fun done (name, value) =>
      put done name (value.map fun text =>
        String.ofList
          (substitute (valueOf environment done) text.toList.length text.toList)))
    []

/-- The bindings of a file, each name once, in the order of first mention. -/
def read (environment : List (String × String)) (text : String) : List Binding :=
  let cs := unifyLines (dropOrderMark text.toList)
  resolve environment (readBindings cs.length cs)

end SeededChoice.EnvFile
