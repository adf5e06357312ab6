import Zipship.Deflate.Token

/-!
# Finding repetitions

The matcher turns data into tokens. Positions with equal hashes of their next four bytes are
chained, newest first, and the longest repetition found along a chain is taken. Before a match is
written the one behind it is looked for already: if that one can be moved back over all but one byte
of the current match, the current match is given up for it.

Data arrives in portions, and a match is only looked for while enough data lies ahead or no more
will come. What was found behind the last match of a portion is forgotten with it.
-/

namespace Zipship.Deflate.Matcher

/-- The shortest repetition that is written as a copy. -/
def minLength : Nat := 4

/-- As much data has to lie ahead before a match is looked for, unless no more will come. -/
def minAhead : Nat := maxCopy + 4

/-- How far back a copy may reach. -/
def maxDistance : Nat := maxReach - minAhead

/-- How many positions of a chain are tried. -/
def maxTries : Nat := 128

/-- A match of this length is good enough to stop looking. -/
def goodLength : Nat := 128

/-- How long a match may be for all its positions to be chained. -/
def maxChainedLength : Nat := 256

/-- How many bytes a portion of data has. -/
def portionSize : Nat := 8192

/-- How many bytes the window holds in which data is looked at. -/
def windowSize : Nat := 65536

/-- The positions of equal hash: the newest one for each hash, and for each position the one before
it. Zero stands for none, so that the very first position is never found. -/
structure Chains where
  newest : Array Nat
  before : Array Nat

namespace Chains

/-- No position is chained yet. -/
def empty (size : Nat) : Chains := ⟨Array.replicate 65536 0, Array.replicate (size + 1) 0⟩

/-- The hash of the four bytes at a position. -/
def hash (data : Array UInt8) (pos : Nat) : Nat :=
  let byte (i : Nat) : UInt32 := (data.getD (pos + i) 0).toUInt32
  let word := byte 0 ||| (byte 1 <<< 8) ||| (byte 2 <<< 16) ||| (byte 3 <<< 24)
  ((word * 2654435761) >>> 16).toNat

/-- Chain a position, and give the one that was the newest of its hash. -/
def insert (c : Chains) (data : Array UInt8) (pos : Nat) : Nat × Chains :=
  let h := hash data pos
  let old := c.newest.getD h 0
  if old = pos then (old, c)
  else
    let ⟨newest, before⟩ := c
    (old, ⟨newest.setIfInBounds h pos, before.setIfInBounds pos old⟩)

/-- Chain some positions in a row. -/
def insertRange (c : Chains) (data : Array UInt8) (first : Nat) : Nat → Chains
  | 0 => c
  | count + 1 => ((c.insert data first).2).insertRange data (first + 1) count

end Chains

/-- A repetition of what stands at `source`, or with length one a single byte. -/
structure Match where
  source : Nat
  length : Nat
  start : Nat
  /-- The first position of the match that was chained when it was looked for. -/
  origin : Nat
  deriving Inhabited

/-- No repetition, just the byte at a position. -/
def Match.single (pos : Nat) : Match := ⟨0, 1, pos, pos⟩

/-- How many bytes are equal from two positions on; `fuel` bounds it. -/
def commonLength (data : Array UInt8) (a b : Nat) : Nat → Nat → Nat
  | 0, n => n
  | fuel + 1, n =>
    if data.getD (a + n) 0 = data.getD (b + n) 0 then commonLength data a b fuel (n + 1) else n

/-- Follow a chain for the longest repetition: where it starts and how long it is. The best one so
far is `best` bytes at `source`; `fuel` bounds the tries. -/
def longestFrom (data : Array UInt8) (c : Chains) (pos ahead : Nat) :
    Nat → Nat → Nat → Nat → Nat × Nat
  | 0, _, source, best => (source, min best ahead)
  | fuel + 1, candidate, source, best =>
    let n := commonLength data candidate pos (min maxCopy (data.size - pos)) 0
    if best < n ∧ ahead < n then (candidate, ahead)
    else if best < n ∧ goodLength ≤ n then (candidate, n)
    else
      let (source, best) := if best < n then (candidate, n) else (source, best)
      let older := c.before.getD candidate 0
      if older ≤ pos - maxDistance then (source, min best ahead)
      else longestFrom data c pos ahead fuel older source best

/-- The match at a position, given the newest position of its hash before it was chained. -/
def matchAt (data : Array UInt8) (c : Chains) (pos ahead newest : Nat) : Match :=
  if newest = 0 ∨ pos ≤ newest ∨ maxDistance < pos - newest then .single pos
  else
    let (source, length) := longestFrom data c pos ahead maxTries newest 0 2
    if length < minLength ∨ pos ≤ source then .single pos else ⟨source, length, pos, pos⟩

/-- Chain the positions inside a match that were not chained when it was looked for. -/
def chainMatch (data : Array UInt8) (c : Chains) (m : Match) (ahead : Nat) : Chains :=
  if ahead ≤ m.length + minLength then c
  else if m.length < minLength ∨ (m.length ≤ maxChainedLength ∧ minLength ≤ ahead) then
    let start := m.start + 1
    let length := m.length - 1
    if length = 0 then c
    else if m.origin ≤ start then
      if m.origin ≤ start + length - 1 then c.insertRange data start length
      else c.insertRange data start (m.origin - start + 1)
    else if m.length < minLength then c
    else if m.origin < start + length then
      c.insertRange data m.origin (start + length - m.origin)
    else c
  else (c.insert data (m.start + m.length - 1)).2

/-- Move a match back byte by byte over the one in front of it, as long as that repeats too. -/
def moveBack (data : Array UInt8) (limit : Nat) : Nat → Match → Match → Match × Match
  | 0, front, back => (front, back)
  | fuel + 1, front, back =>
    if data.getD (back.source - 1) 0 ≠ data.getD (back.start - 1) 0 ∨ front.length < 1 ∨
      back.start ≤ limit ∨ 256 ≤ back.length ∨ back.source ≤ 1 then (front, back)
    else moveBack data limit fuel { front with length := front.length - 1 }
      { back with
        source := back.source - 1
        start := back.start - 1
        length := back.length + 1 }

/-- Give up a match for the one behind it, if that can be moved back over all but one byte of it. -/
def preferBack (data : Array UInt8) (front back : Match) : Match × Match :=
  if front.length ≤ 1 ∨ 1 + back.source < front.length ∨ 1 + back.start < front.length ∨
    data.getD (back.source + 1 - front.length) 0 ≠ data.getD (back.start + 1 - front.length) 0
  then (front, back)
  else
    let (front', back') :=
      moveBack data (back.start - maxDistance) (front.length + 1) front back
    if back'.length = back.length then (front, back)
    else if front'.length ≤ 1 ∧ back'.length ≠ 2 then
      (front', { back' with origin := back'.origin + 1 })
    else (front, back)

/-- How far the matcher has come. -/
structure State where
  chains : Chains
  /-- Where the window starts. -/
  window : Nat
  pos : Nat
  /-- How much of the data that has arrived lies ahead. -/
  ahead : Nat
  /-- The match behind the current one, if it was looked for already. -/
  next : Option Match
  tokens : Array Token

/-- The single bytes of some positions in a row. -/
def pushLiterals (data : Array UInt8) (tokens : Array Token) (first : Nat) : Nat → Array Token
  | 0 => tokens
  | count + 1 =>
    pushLiterals data (tokens.push (.literal (data.getD first 0))) (first + 1) count

/-- Write a match: a short one byte by byte. -/
def pushMatch (data : Array UInt8) (tokens : Array Token) (m : Match) : Array Token :=
  if m.length < minLength then pushLiterals data tokens m.start m.length
  else tokens.push (.copy m.length (m.start - m.source))

/-- The match at the current position. -/
def current (data : Array UInt8) (c : Chains) (pos ahead : Nat) (next : Option Match) :
    Match × Chains :=
  match next with
  | some m => (m, c)
  | none =>
    if minLength ≤ ahead then
      let (newest, c) := c.insert data pos
      (matchAt data c pos ahead newest, c)
    else (.single pos, c)

/-- Write the match at the current position, after looking for the one behind it. -/
def step (data : Array UInt8) (s : State) : State :=
  let ⟨chains, window, pos, ahead, next, tokens⟩ := s
  let (m, chains) := current data chains pos ahead (if ahead < minAhead then none else next)
  let chains := chainMatch data chains m ahead
  if minAhead < ahead ∧ m.start + m.length < window + windowSize - minAhead then
    let behind := m.start + m.length
    let (newest, chains) := chains.insert data behind
    let back := matchAt data chains behind ahead newest
    let (m, back) := if minLength ≤ back.length then preferBack data m back else (m, back)
    ⟨chains, window, m.start + m.length, ahead - m.length, some back, pushMatch data tokens m⟩
  else ⟨chains, window, m.start + m.length, ahead - m.length, none, pushMatch data tokens m⟩

/-- Write matches while enough data lies ahead, or to the end of the data if no more will come;
`fuel` bounds their number. -/
def run (data : Array UInt8) (final : Bool) : Nat → State → State
  | 0, s => s
  | fuel + 1, s =>
    if s.ahead < (if final then 1 else minAhead) then { s with next := none }
    else run data final fuel (step data s)

/-- Take in portions of the given sizes, then finish. Before a portion the window moves on by half
its size if the position is near its end. -/
def runPortions (data : Array UInt8) (fuel : Nat) : List Nat → State → State
  | [], s => run data true fuel s
  | size :: sizes, s =>
    let ⟨chains, window, pos, ahead, next, tokens⟩ := s
    let window := if window + windowSize - minAhead ≤ pos then window + windowSize / 2 else window
    runPortions data fuel sizes
      (run data false fuel ⟨chains, window, pos, ahead + size, next, tokens⟩)

/-- The sizes of the portions in which some bytes arrive. -/
def portions (size : Nat) : List Nat :=
  List.replicate (size / portionSize) portionSize ++
    (if size % portionSize = 0 then [] else [size % portionSize])

/-- The tokens of some data. -/
def tokens (data : Array UInt8) : Array Token :=
  (runPortions data (2 * data.size + 8) (portions data.size)
    ⟨.empty data.size, 0, 0, 0, none, #[]⟩).tokens

end Zipship.Deflate.Matcher
