import Zipship.Text.Bytes

/-!
# Formatted output of scripts

`printf` writes a format again and again until its arguments are used up. Escapes stand for single
characters; `%s`, `%d` and `%b` take an argument, and `%%` is a percent sign.
-/

namespace Zipship.Shell

/-- What an escape stands for, behind its backslash, and the rest. -/
def readEscape : List Char → List Char × List Char
  | 'n' :: cs => (['\n'], cs)
  | 't' :: cs => (['\t'], cs)
  | 'r' :: cs => (['\r'], cs)
  | 'a' :: cs => (['\x07'], cs)
  | 'b' :: cs => (['\x08'], cs)
  | 'f' :: cs => (['\x0c'], cs)
  | 'v' :: cs => (['\x0b'], cs)
  | '\\' :: cs => (['\\'], cs)
  | '"' :: cs => (['"'], cs)
  | c :: cs =>
    let digits := (c :: cs).take 3 |>.takeWhile fun d => '0' ≤ d && d ≤ '7'
    if digits = [] then (['\\', c], cs)
    else
      let n := digits.foldl (fun n d => 8 * n + (d.toNat - '0'.toNat)) 0
      ([Char.ofNat n], (c :: cs).drop digits.length)
  | [] => (['\\'], [])

/-- A text with its escapes replaced; `fuel` bounds its length. -/
def unescape : Nat → List Char → List Char
  | 0, cs => cs
  | _, [] => []
  | fuel + 1, '\\' :: cs =>
    let (c, rest) := readEscape cs
    c ++ unescape fuel rest
  | fuel + 1, c :: cs => c :: unescape fuel cs

/-- One pass through a format: what is written, and the arguments that are left. -/
def formatOnce : Nat → List Char → List String → List Char × List String
  | 0, _, args => ([], args)
  | _, [], args => ([], args)
  | fuel + 1, '%' :: '%' :: cs, args =>
    let (out, args) := formatOnce fuel cs args
    ('%' :: out, args)
  | fuel + 1, '%' :: kind :: cs, args =>
    let arg := args.head?.getD ""
    let shown := if kind = 'd' && arg.isEmpty then ['0']
      else if kind = 'b' then unescape (arg.length + 1) arg.toList
      else arg.toList
    let (out, args) := formatOnce fuel cs args.tail
    (shown ++ out, args)
  | fuel + 1, '\\' :: cs, args =>
    let (c, rest) := readEscape cs
    let (out, args) := formatOnce fuel rest args
    (c ++ out, args)
  | fuel + 1, c :: cs, args =>
    let (out, args) := formatOnce fuel cs args
    (c :: out, args)

/-- Pass through a format until no argument is left, or a pass takes none; `fuel` bounds the
passes. -/
def formatAll (format : List Char) : Nat → List String → List Char
  | 0, _ => []
  | fuel + 1, args =>
    let (out, left) := formatOnce (format.length + 1) format args
    if left = [] ∨ left.length = args.length then out else out ++ formatAll format fuel left

/-- What a format and its arguments write. -/
def formatted (format : String) (args : List String) : String :=
  String.ofList (formatAll format.toList (args.length + 1) args)

end Zipship.Shell
