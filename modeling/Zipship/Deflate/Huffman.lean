/-!
# Lengths of codes

`codeLengths` gives each symbol a length in bits, shorter for more frequent symbols, by joining the
two lightest trees until one is left; trees of equal weight are ordered by depth. Lengths over the
limit are cut, and the tree is balanced again. What comes out decides how short the data gets; that
it is a prefix code is for its user to check.
-/

namespace Zipship.Deflate.Huffman

/-- The trees that are not joined yet, in a heap whose first slot is unused; the weight and the
depth of every tree; and the tree that each one was joined into. -/
structure Forest where
  heap : Array Nat
  /-- How many trees there are in the heap. -/
  size : Nat
  weight : Array Nat
  depth : Array Nat
  parent : Array Nat

namespace Forest

/-- One tree is lighter than another, or as heavy and not deeper. -/
def lighter (f : Forest) (a b : Nat) : Bool :=
  let wa := f.weight.getD a 0
  let wb := f.weight.getD b 0
  wa < wb || (wa = wb && f.depth.getD a 0 ≤ f.depth.getD b 0)

/-- Move a tree down from slot `k` until no lighter one is below it; `fuel` bounds the way. -/
def siftAux (f : Forest) (tree : Nat) : Nat → Nat → Array Nat → Array Nat
  | 0, k, heap => heap.setIfInBounds k tree
  | fuel + 1, k, heap =>
    let left := 2 * k
    if f.size < left then heap.setIfInBounds k tree
    else
      let child :=
        if left < f.size && f.lighter (heap.getD (left + 1) 0) (heap.getD left 0) then left + 1
        else left
      if f.lighter tree (heap.getD child 0) then heap.setIfInBounds k tree
      else siftAux f tree fuel child (heap.setIfInBounds k (heap.getD child 0))

/-- Restore the order of the heap below slot `k`. -/
def sift (f : Forest) (k : Nat) : Forest :=
  { f with heap := siftAux f (f.heap.getD k 0) f.size k f.heap }

/-- Restore the order of the heap below the slots `k`, `k - 1`, … , 1. -/
def siftAll (f : Forest) : Nat → Forest
  | 0 => f
  | k + 1 => siftAll (f.sift (k + 1)) k

/-- The symbols that occur, each a tree of its own. At least two are needed: symbols that do not
occur are added from the front. -/
def ofFrequencies (frequencies : Array Nat) : Forest :=
  let count := frequencies.size
  let used := (List.range count).filter fun n => frequencies.getD n 0 ≠ 0
  let greatest := used.getLast?
  let added : List Nat :=
    match used, greatest with
    | [], _ => [0, 1]
    | [_], some n => if n < 2 then [n + 1] else [0]
    | _, _ => []
  let weight := added.foldl (fun w n => w.setIfInBounds n 1)
    (frequencies ++ Array.replicate (count + 1) 0)
  let heap := used ++ added
  let zeros := Array.replicate (2 * count + 1) 0
  ⟨(0 :: heap).toArray, heap.length, weight, zeros, zeros⟩

/-- Join the two lightest trees until one is left. The trees are returned with the last one first;
`fuel` bounds how often. -/
def join : Nat → Nat → Forest → List Nat → Forest × List Nat
  | 0, _, f, order => (f, order)
  | fuel + 1, node, f, order =>
    let a := f.heap.getD 1 0
    let f := { f with heap := f.heap.setIfInBounds 1 (f.heap.getD f.size 0), size := f.size - 1 }
    let f := f.sift 1
    let b := f.heap.getD 1 0
    let f :=
      { f with
        weight := f.weight.setIfInBounds node (f.weight.getD a 0 + f.weight.getD b 0)
        depth := f.depth.setIfInBounds node (max (f.depth.getD a 0) (f.depth.getD b 0) + 1)
        parent := (f.parent.setIfInBounds a node).setIfInBounds b node
        heap := f.heap.setIfInBounds 1 node }
    let f := f.sift 1
    let order := b :: a :: order
    if f.size < 2 then (f, f.heap.getD 1 0 :: order) else join fuel (node + 1) f order

end Forest

/-- Lengths being given out: of every tree, and how many symbols have each length. -/
structure Lengths where
  length : Array Nat
  count : Array Nat
  /-- How many lengths had to be cut. -/
  overflow : Nat

/-- Give a tree one bit more than the one it was joined into. -/
def Lengths.assign (symbols limit : Nat) (f : Forest) (l : Lengths) (tree : Nat) : Lengths :=
  let wanted := l.length.getD (f.parent.getD tree 0) 0 + 1
  let bits := min wanted limit
  { length := l.length.setIfInBounds tree bits
    count := if tree < symbols then l.count.modify bits (· + 1) else l.count
    overflow := if limit < wanted then l.overflow + 1 else l.overflow }

/-- The greatest length below `bits` that some symbol has. -/
def longestBelow (count : Array Nat) : Nat → Nat
  | 0 => 0
  | bits + 1 => if count.getD bits 0 = 0 then longestBelow count bits else bits

/-- Make room for the lengths that were cut: a symbol of a shorter length gets a sibling. -/
def balance (limit : Nat) : Nat → Nat → Array Nat → Array Nat
  | 0, _, count => count
  | fuel + 1, overflow, count =>
    if overflow = 0 then count
    else
      let bits := longestBelow count limit
      let count := ((count.modify bits (· - 1)).modify (bits + 1) (· + 2)).modify limit (· - 1)
      balance limit fuel (overflow - 2) count

/-- Give out the lengths again, longest first, to the symbols in the order of their weight. -/
def reassign (count : Array Nat) (symbols : List Nat) : Nat → Array Nat → Array Nat
  | 0, length => length
  | bits + 1, length =>
    let n := count.getD (bits + 1) 0
    let length := (symbols.take n).foldl (fun l s => l.setIfInBounds s (bits + 1)) length
    reassign count (symbols.drop n) bits length

/-- A length in bits for every symbol, zero for those that do not occur. No length is over
`limit`. -/
def codeLengths (frequencies : Array Nat) (limit : Nat) : Array Nat :=
  let symbols := frequencies.size
  let start := Forest.ofFrequencies frequencies
  let (f, order) := (start.siftAll (start.size / 2)).join (symbols + 1) symbols []
  let zero : Lengths := ⟨Array.replicate (2 * symbols + 1) 0, Array.replicate (limit + 2) 0, 0⟩
  let l := order.tail.foldl (Lengths.assign symbols limit f) zero
  let length :=
    if l.overflow = 0 then l.length
    else reassign (balance limit l.overflow l.overflow l.count)
      (order.reverse.filter (· < symbols)) limit l.length
  length.extract 0 symbols

end Zipship.Deflate.Huffman
