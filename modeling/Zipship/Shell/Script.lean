/-!
# Shell scripts

A script is a command: a simple one with words and redirections, or commands put together. A word is
a row of pieces, each of them text or a parameter, inside quotes or not.
-/

namespace Zipship.Shell

/-- What a `$` can stand for. -/
inductive Param where
  | variable (name : String)
  /-- One of the arguments of the script; its name is number zero. -/
  | position (n : Nat)
  /-- All arguments of the script. -/
  | all
  | count
  /-- How the last command ended. -/
  | status
  | processId
  deriving DecidableEq, Repr

/-- A part of a word. -/
inductive Piece where
  | text (s : String)
  | param (p : Param) (quoted : Bool)
  deriving DecidableEq, Repr

/-- A word of a command. -/
abbrev Word := List Piece

/-- Where a redirection leads. -/
inductive Target where
  | file (w : Word)
  /-- The end of a file. -/
  | append (w : Word)
  | input (w : Word)
  /-- Where another output leads. -/
  | output (number : Nat)
  deriving DecidableEq, Repr

/-- A redirection of one of the numbered streams. -/
structure Redirect where
  stream : Nat
  target : Target
  deriving DecidableEq, Repr

/-- A command. -/
inductive Script where
  | nothing
  /-- A simple command, which starts in a line of the text. -/
  | simple (line : Nat) (assignments : List (String × Word)) (words : List Word)
      (redirects : List Redirect)
  /-- The second after the first. -/
  | sequence (first second : Script)
  /-- The second only if the first succeeded. -/
  | both (first second : Script)
  /-- The second only if the first did not succeed. -/
  | either (first second : Script)
  | negate (body : Script)
  /-- The body once for each word. -/
  | forEach (name : String) (words : List Word) (body : Script)
  | ifThen (condition body otherwise : Script)
  deriving Repr, Inhabited

/-- A unit of the text of a script. -/
inductive Token where
  /-- A word, which starts in a line of the text. -/
  | word (line : Nat) (w : Word)
  | mark (s : String)
  /-- A redirection without the word that it leads to. -/
  | redirect (stream : Nat) (mark : String)
  deriving DecidableEq, Repr

/-! ## Tokens -/

/-- A character that ends a word. -/
def endsWord (c : Char) : Bool := " \t\n;&|<>()".toList.contains c

/-- A character that the name of a variable can have. -/
def isNameChar (c : Char) : Bool := c.isAlphanum || c = '_'

/-- What stands behind a `$`, and the rest; `none` if the `$` stands for itself. -/
def readParam : List Char → Option (Param × List Char)
  | '@' :: cs | '*' :: cs => some (.all, cs)
  | '#' :: cs => some (.count, cs)
  | '?' :: cs => some (.status, cs)
  | '$' :: cs => some (.processId, cs)
  | '\x7b' :: cs =>
    let name := cs.takeWhile isNameChar
    match cs.dropWhile isNameChar with
    | '\x7d' :: rest =>
      if name.all Char.isDigit then (String.ofList name).toNat?.map fun n => (.position n, rest)
      else some (.variable (String.ofList name), rest)
    | _ => none
  | c :: cs =>
    if c.isDigit then some (.position (c.toNat - '0'.toNat), cs)
    else if isNameChar c then
      some (.variable (String.ofList ((c :: cs).takeWhile isNameChar)),
        (c :: cs).dropWhile isNameChar)
    else none
  | [] => none

/-- Add a character to the end of a word. -/
def pushChar (w : Word) (c : Char) : Word :=
  match w.getLast? with
  | some (.text s) => w.dropLast ++ [.text (s.push c)]
  | _ => w ++ [.text (String.singleton c)]

/-- The rest of a text between double quotes; `fuel` bounds its length. -/
def readQuoted : Nat → Word → List Char → Option (Word × List Char)
  | 0, _, _ | _, _, [] => none
  | fuel + 1, w, c :: cs =>
    if c = '"' then some (w, cs)
    else if c = '\\' then
      match cs with
      | d :: rest =>
        if d = '\n' then readQuoted fuel w rest
        else if "$\x60\"\\".toList.contains d then readQuoted fuel (pushChar w d) rest
        else readQuoted fuel (pushChar w c) cs
      | [] => none
    else if c = '\x60' then none
    else if c = '$' then
      match readParam cs with
      | some (p, rest) => readQuoted fuel (w ++ [.param p true]) rest
      | none => readQuoted fuel (pushChar w c) cs
    else readQuoted fuel (pushChar w c) cs

/-- The rest of a word; `fuel` bounds its length. -/
def readWord : Nat → Word → List Char → Option (Word × List Char)
  | 0, _, _ => none
  | _, w, [] => some (w, [])
  | fuel + 1, w, c :: cs =>
    if endsWord c then some (w, c :: cs)
    else if c = '\'' then
      match cs.dropWhile (· ≠ '\'') with
      | _ :: rest => readWord fuel (w ++ [.text (String.ofList (cs.takeWhile (· ≠ '\'')))]) rest
      | [] => none
    else if c = '"' then do
      let (quoted, rest) ← readQuoted (cs.length + 1) w cs
      -- nothing between quotes is an empty text, which is a word
      readWord fuel (if quoted = w then w ++ [.text ""] else quoted) rest
    else if c = '\\' then
      match cs with
      | '\n' :: rest => readWord fuel w rest
      | d :: rest => readWord fuel (pushChar w d) rest
      | [] => some (pushChar w c, [])
    else if c = '\x60' then none
    else if c = '$' then
      match cs, readParam cs with
      | '(' :: _, _ => none
      | _, some (p, rest) => readWord fuel (w ++ [.param p false]) rest
      | _, none => readWord fuel (pushChar w c) cs
    else readWord fuel (pushChar w c) cs

/-- The mark that comes first, of those that scripts have. -/
def readMark (cs : List Char) : Option (String × List Char) :=
  ["&&", "||", ">>", ">&", ">", "<", ";", "\n"].findSome? fun m =>
    if m.toList.isPrefixOf cs then some (m, cs.drop m.length) else none

/-- A mark that redirects a stream. -/
def isRedirect (mark : String) : Bool := [">>", ">&", ">", "<"].contains mark

/-- How many lines end in the part of a text that a rest leaves out. -/
def linesBefore (rest text : List Char) : Nat :=
  (text.take (text.length - rest.length)).count '\n'

/-- The tokens of a text that starts in a line; `fuel` bounds their number. -/
def tokens : Nat → Nat → List Char → Option (List Token)
  | 0, _, _ => none
  | _, _, [] => some []
  | fuel + 1, line, c :: cs =>
    if c = ' ' || c = '\t' then tokens fuel line cs
    else if c = '#' then tokens fuel line (cs.dropWhile (· ≠ '\n'))
    else
      match c, cs, readMark (c :: cs) with
      | '\\', '\n' :: rest, _ => tokens fuel (line + 1) rest
      | _, _, some (m, rest) =>
        if isRedirect m then
          (tokens fuel line rest).map (.redirect (if m = "<" then 0 else 1) m :: ·)
        else (tokens fuel (line + linesBefore rest (c :: cs)) rest).map (.mark m :: ·)
      | _, _, none => do
        let digits := (c :: cs).takeWhile Char.isDigit
        let behind := (c :: cs).dropWhile Char.isDigit
        match (String.ofList digits).toNat?, (readMark behind).filter (isRedirect ·.1) with
        | some n, some (m, rest) => return .redirect n m :: (← tokens fuel line rest)
        | _, _ =>
          let (w, rest) ← readWord (cs.length + 2) [] (c :: cs)
          if w = [] && rest.length = cs.length + 1 then none
          return .word line w :: (← tokens fuel (line + linesBefore rest (c :: cs)) rest)

/-! ## Commands -/

/-- The text of a word that is nothing but unquoted text. -/
def plain? : Token → Option String
  | .word _ [.text s] => some s
  | _ => none

/-- The words that end a list of commands. -/
def closing : List String := ["do", "done", "then", "else", "elif", "fi"]

/-- Skip the ends of lines. -/
def skipLines : List Token → List Token
  | .mark "\n" :: ts => skipLines ts
  | ts => ts

/-- Skip the ends of commands. -/
def skipEnds : List Token → List Token
  | .mark "\n" :: ts | .mark ";" :: ts => skipEnds ts
  | ts => ts

/-- Take the word that has to come next. -/
def expectWord (s : String) : List Token → Option (List Token)
  | t :: ts => if plain? t = some s then some ts else none
  | [] => none

/-- The name and the value of a word that is an assignment. -/
def assignment? : Word → Option (String × Word)
  | .text s :: rest =>
    let name := s.toList.takeWhile isNameChar
    match name, s.toList.dropWhile isNameChar with
    | c :: _, '=' :: value =>
      if c.isDigit then none
      else
        let first := if value = [] then [] else [Piece.text (String.ofList value)]
        some (String.ofList name, first ++ rest)
    | _, _ => none
  | _ => none

/-- What a redirection leads to. -/
def target? (mark : String) (w : Word) : Option Target :=
  match mark, w with
  | ">", w => some (.file w)
  | ">>", w => some (.append w)
  | "<", w => some (.input w)
  | _, [.text s] => s.toNat?.map .output
  | _, _ => none

/-- The line in which the first word of some tokens starts. -/
def firstLine (ts : List Token) : Nat :=
  (ts.findSome? fun t =>
    match t with
    | .word line _ => some line
    | _ => none).getD 0

/-- The rest of a simple command that starts in a line. -/
def parseSimple (line : Nat) (as : List (String × Word)) (ws : List Word) (rs : List Redirect) :
    List Token → Option (Script × List Token)
  | .redirect n m :: .word _ w :: ts => do
    parseSimple line as ws (rs ++ [⟨n, ← target? m w⟩]) ts
  | .redirect _ _ :: _ => none
  | .word _ w :: ts =>
    match if ws = [] then assignment? w else none with
    | some a => parseSimple line (as ++ [a]) ws rs ts
    | none => parseSimple line as (ws ++ [w]) rs ts
  | ts => some (.simple line as ws rs, ts)

/-- The words up to the end of a command. -/
def takeWords : List Token → List Word × List Token
  | .word _ w :: ts =>
    let (ws, rest) := takeWords ts
    (w :: ws, rest)
  | ts => ([], ts)

mutual

/-- A list of commands up to a closing word; `fuel` bounds how many commands there are. -/
def parseList : Nat → List Token → Option (Script × List Token)
  | 0, _ => none
  | fuel + 1, ts =>
    let ts := skipEnds ts
    match ts with
    | [] => some (.nothing, [])
    | t :: _ =>
      if (plain? t).any closing.contains then some (.nothing, ts)
      else do
        let (first, rest) ← parseCommand fuel ts
        let (first, rest) ← parseChain fuel first rest
        match rest with
        | [] => some (first, [])
        | t :: _ =>
          if t = .mark ";" || t = .mark "\n" then do
            let (second, rest) ← parseList fuel rest
            return (.sequence first second, rest)
          else if (plain? t).any closing.contains then some (first, rest)
          else none

/-- What follows a command on the condition of its success or failure. -/
def parseChain : Nat → Script → List Token → Option (Script × List Token)
  | 0, _, _ => none
  | fuel + 1, first, .mark "&&" :: ts => do
    let (second, rest) ← parseCommand fuel (skipLines ts)
    parseChain fuel (.both first second) rest
  | fuel + 1, first, .mark "||" :: ts => do
    let (second, rest) ← parseCommand fuel (skipLines ts)
    parseChain fuel (.either first second) rest
  | _, first, ts => some (first, ts)

/-- The branches of a condition, behind the word that starts it. -/
def parseBranches : Nat → List Token → Option (Script × List Token)
  | 0, _ => none
  | fuel + 1, ts => do
    let (condition, ts) ← parseList fuel ts
    let ts ← expectWord "then" ts
    let (body, ts) ← parseList fuel ts
    match ts with
    | t :: ts =>
      match plain? t with
      | some "fi" => return (.ifThen condition body .nothing, ts)
      | some "elif" =>
        let (otherwise, ts) ← parseBranches fuel ts
        return (.ifThen condition body otherwise, ts)
      | some "else" =>
        let (otherwise, ts) ← parseList fuel ts
        return (.ifThen condition body otherwise, ← expectWord "fi" ts)
      | _ => none
    | [] => none

/-- One command. -/
def parseCommand : Nat → List Token → Option (Script × List Token)
  | 0, _ => none
  | fuel + 1, ts =>
    match ts with
    | [] => none
    | t :: rest =>
      match plain? t with
      | some "for" =>
        match rest with
        | .word _ [.text name] :: rest => do
          let (words, rest) ← match rest with
            | t :: more =>
              if plain? t = some "in" then some (takeWords more)
              else some ([[.param .all true]], rest)
            | [] => none
          let rest ← expectWord "do" (skipEnds rest)
          let (body, rest) ← parseList fuel rest
          return (.forEach name words body, ← expectWord "done" rest)
        | _ => none
      | some "if" => parseBranches fuel rest
      | some "!" => do
        let (body, rest) ← parseCommand fuel rest
        return (.negate body, rest)
      | _ => parseSimple (firstLine ts) [] [] [] ts

end

/-- The script that a text holds; `none` if it is none. -/
def Script.parse? (text : String) : Option Script := do
  let cs := text.toList
  let ts ← tokens (cs.length + 1) 1 cs
  match ← parseList (3 * ts.length + 3) ts with
  | (script, []) => some script
  | _ => none

end Zipship.Shell
