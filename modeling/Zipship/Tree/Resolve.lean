import Zipship.Tree.Basic
import Zipship.Tree.OsError

/-!
# Looking up paths

`follow` goes from a directory along the pieces of a path, through every symbolic link it meets,
and keeps count of the links that may still be followed. `resolve` starts it at the root or at the
working directory, `locate` does the same but takes the last piece as it is, link or not.

`follow_append`: a route may be cut anywhere, the second part starting where the first one ends with
the links the first one left over. So looking up `a/b` is looking up `a` and then `b` from there.
-/

namespace Zipship

/-- The pieces to go along; a slash at the end asks for a directory, as a last `.` does. -/
def Path.route (p : Path) : List Name :=
  if p.endsWithSlash && p.pieces ≠ [] then p.pieces ++ [Name.here] else p.pieces

/-- Where a path starts for somebody in the directory `cwd`. -/
def Path.start (p : Path) (cwd : Loc) : Loc := if p.isAbsolute then [] else cwd

namespace Tree

/-- How many links one look-up follows. -/
def maxLinks : Nat := 40

/-- Where a look-up ends, and how many more links it could have followed. -/
structure Position where
  loc : Loc
  links : Nat
  deriving DecidableEq, Repr

/-- Why there is nothing to look up at a location that is not a directory. Nothing stands there
when it is a working directory that has been removed. -/
def impasse (t : Tree) (l : Loc) : OsError :=
  if (t.get? l).isSome then .notDirectory else .notFound

/-- Go along the pieces until they end or a link is met, which is left to `jump`. -/
def travel (t : Tree) (links : Nat)
    (jump : Loc → Path → List Name → Except OsError Position) :
    Loc → List Name → Except OsError Position
  | cur, [] => .ok ⟨cur, links⟩
  | cur, piece :: rest =>
    if t.get? cur ≠ some .dir then .error (t.impasse cur)
    else if piece = Name.here then travel t links jump cur rest
    else if piece = Name.up then travel t links jump cur.dropLast rest
    else if maxNameBytes < piece.length then .error .nameTooLong
    else match t.get? (cur ++ [piece]) with
      | none => .error .notFound
      | some (.link target) => jump cur target rest
      | some _ => travel t links jump (cur ++ [piece]) rest

/-- Go along the pieces and through every link on the way; `links` of them at most. -/
def follow (t : Tree) : Nat → Loc → List Name → Except OsError Position
  | 0 => travel t 0 fun _ _ _ => .error .tooManyLinks
  | links + 1 => travel t (links + 1) fun dir target rest =>
    follow t links (target.start dir) (target.route ++ rest)

/-- What the operating system refuses before it looks at any directory. -/
def checkPath (p : Path) : Except OsError Unit :=
  if p.hasNul then .error .nulInPath
  else if p.bytes.isEmpty then .error .notFound
  else if maxPathBytes < p.bytes.length then .error .nameTooLong
  else .ok ⟨⟩

/-- Where a path leads through all its links. -/
def resolve (t : Tree) (cwd : Loc) (p : Path) : Except OsError Position := do
  checkPath p
  t.follow maxLinks (p.start cwd) p.route

/-- The directory of the last piece, with that piece; `none` when the path names a place only by
going back or staying. -/
def resolveLast (t : Tree) (links : Nat) (start : Loc) (route : List Name) :
    Except OsError (Position × Option Name) :=
  match route.getLast? with
  | none => .ok (⟨start, links⟩, none)
  | some last =>
    if last = Name.here ∨ last = Name.up then do
      let pos ← t.follow links start route
      return (pos, none)
    else do
      let pos ← t.follow links start route.dropLast
      if t.get? pos.loc ≠ some .dir then .error (t.impasse pos.loc)
      else if maxNameBytes < last.length then .error .nameTooLong
      else return (pos, some last)

/-- Where a path leads when its last piece is not followed if it is a link. -/
def locate (t : Tree) (cwd : Loc) (p : Path) : Except OsError Loc := do
  checkPath p
  match ← t.resolveLast maxLinks (p.start cwd) p.route with
  | (pos, none) => return pos.loc
  | (pos, some last) =>
    if (t.get? (pos.loc ++ [last])).isSome then return pos.loc ++ [last] else .error .notFound

/-- What a path leads to through all its links. -/
def stat (t : Tree) (cwd : Loc) (p : Path) : Except OsError Node := do
  let pos ← t.resolve cwd p
  match t.get? pos.loc with
  | some node => return node
  | none => .error .notFound

/-- A path leads to something. -/
def exists? (t : Tree) (cwd : Loc) (p : Path) : Bool := (t.stat cwd p).isOk

/-- A path leads to a directory. -/
def isDir (t : Tree) (cwd : Loc) (p : Path) : Bool :=
  match t.stat cwd p with
  | .ok .dir => true
  | _ => false

/-- A path leads to a regular file. -/
def isFile (t : Tree) (cwd : Loc) (p : Path) : Bool :=
  match t.stat cwd p with
  | .ok (.file _ _) => true
  | _ => false

/-! ## Cutting a route -/

theorem travel_append (t : Tree) (links : Nat)
    {jump : Loc → Path → List Name → Except OsError Position}
    {r : Position → List Name → Except OsError Position}
    (hstop : ∀ cur rest, r ⟨cur, links⟩ rest = travel t links jump cur rest)
    (hjump : ∀ dir target a b, jump dir target (a ++ b) =
      (jump dir target a).bind fun pos => r pos b) :
    ∀ (a : List Name) (cur : Loc) (b : List Name), travel t links jump cur (a ++ b) =
      (travel t links jump cur a).bind fun pos => r pos b
  | [], cur, b => (hstop cur b).symm
  | piece :: a, cur, b => by
    simp only [List.cons_append, travel]
    split
    · rfl
    · split
      · exact travel_append t links hstop hjump a cur b
      · split
        · exact travel_append t links hstop hjump a cur.dropLast b
        · split
          · rfl
          · split
            · rfl
            · exact hjump _ _ _ _
            · exact travel_append t links hstop hjump a (cur ++ [piece]) b

/-- A route may be cut anywhere: the second part starts where the first one ends. -/
theorem follow_append (t : Tree) : ∀ (links : Nat) (a : List Name) (cur : Loc) (b : List Name),
    t.follow links cur (a ++ b) =
      (t.follow links cur a).bind fun pos => t.follow pos.links pos.loc b
  | 0, a, cur, b => by
    refine travel_append t 0 (r := fun pos rest => t.follow pos.links pos.loc rest)
      (fun _ _ => rfl) ?_ a cur b
    intro _ _ _ _
    rfl
  | links + 1, a, cur, b => by
    refine travel_append t (links + 1) (r := fun pos rest => t.follow pos.links pos.loc rest)
      (fun _ _ => rfl) ?_ a cur b
    intro dir target a b
    rw [← List.append_assoc]
    exact follow_append t links _ _ b

end Tree

end Zipship
