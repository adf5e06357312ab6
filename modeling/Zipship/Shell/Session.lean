import Zipship.Config.Layers
import Zipship.Shell.Encoding
import Zipship.Shell.Script
import Zipship.Testing.WaitStatus

/-!
# Shell sessions

A session is a shell at work: the tree it works on, where it is, its variables and arguments, and
what it wrote. Words are expanded in a session: parameters are replaced by their values, and those
outside quotes are cut at blanks, or at the characters of the variable `IFS`.
-/

namespace Zipship.Shell

/-- A shell at work. -/
structure Session where
  tree : Tree
  cwd : Loc
  vars : Environment
  /-- The name of the script, and its arguments. -/
  name : String
  args : List String
  /-- The line of the script that is being run. -/
  line : Nat
  /-- What commands read. -/
  input : Bytes
  out : Bytes
  err : Bytes
  /-- How the last command ended. -/
  status : Nat
  /-- How the shell itself ended, if it did. -/
  ended : Option WaitStatus

namespace Session

/-- The number that the shell has among all processes. -/
def processId : Nat := 4096

/-- The session in which a command ended with a code. -/
def done (s : Session) (status : Nat) : Session := { s with status }

/-- The session that wrote to its first output. -/
def say (s : Session) (text : String) : Session := { s with out := s.out ++ toBytes text }

/-- The session that wrote a line to its second output. -/
def complain (s : Session) (text : String) : Session :=
  { s with err := s.err ++ toBytes (text ++ "\n") }

/-- The session that wrote what is wrong with the line that is being run. -/
def complainHere (s : Session) (text : String) : Session :=
  s.complain s!"{s.name}: {s.line}: {text}"

/-- The value of a variable. -/
def get? (s : Session) (name : String) : Option String := (s.vars.get? (toBytes name)).map ofBytes

/-- The session in which a variable was set. -/
def set (s : Session) (name value : String) : Session :=
  { s with vars := s.vars.set (toBytes name) (toBytes value) }

/-- The values of a parameter. Only all arguments together are more or fewer than one. -/
def values (s : Session) : Param → List String
  | .variable name => [(s.get? name).getD ""]
  | .position 0 => [s.name]
  | .position (n + 1) => [(s.args[n]?).getD ""]
  | .all => s.args
  | .count => [toString s.args.length]
  | .status => [toString s.status]
  | .processId => [toString processId]

end Session

/-- Words being made: those that are complete, and the one that is not. -/
structure Fields where
  complete : List String
  pending : Option String

namespace Fields

/-- Continue the open word, or open one. -/
def push (f : Fields) (s : String) : Fields := { f with pending := some (f.pending.getD "" ++ s) }

/-- Complete the open word. -/
def close (f : Fields) : Fields := ⟨f.complete ++ f.pending.toList, none⟩

/-- Continue the open word with the first of some values and open a new one for each other. -/
def pushAll (f : Fields) : List String → Fields
  | [] => f
  | [v] => f.push v
  | v :: rest => ((f.push v).close).pushAll rest

/-- The characters that cut words outside quotes when nothing else is said. -/
def blanks : List Char := [' ', '\t', '\n']

/-- Continue the open word with a text that is cut at separators. Blanks around words say nothing;
every other separator ends a word, even an empty one. `ended` tells that blanks ended a word that a
separator behind them would end. -/
def pushCut (f : Fields) (separators : List Char) (ended : Bool) : List Char → Fields
  | [] => f
  | c :: text =>
    if c ∉ separators then (f.push (String.singleton c)).pushCut separators false text
    else if c ∈ blanks then f.close.pushCut separators (ended || f.pending.isSome) text
    else ((if ended then f else f.push "").close).pushCut separators false text

end Fields

namespace Session

/-- The characters that cut words outside quotes. -/
def separators (s : Session) : List Char :=
  ((s.get? "IFS").map String.toList).getD Fields.blanks

/-- Add a piece of a word. -/
def expandPiece (s : Session) (f : Fields) : Piece → Fields
  | .text t => f.push t
  | .param p true => f.pushAll (s.values p)
  | .param p false =>
    let values := s.values p
    values.foldl (fun (acc : Fields × Bool) v =>
      ((if acc.2 then acc.1 else acc.1.close).pushCut s.separators false v.toList, false)) (f, true)
    |>.1

/-- The words that a word stands for. -/
def expand (s : Session) (w : Word) : List String :=
  (w.foldl s.expandPiece ⟨[], none⟩).close.complete

/-- The text that a word stands for where it is not cut. -/
def expandText (s : Session) (w : Word) : String :=
  String.join (w.map fun piece =>
    match piece with
    | .text t => t
    | .param p _ => String.intercalate " " (s.values p))

end Session

end Zipship.Shell
