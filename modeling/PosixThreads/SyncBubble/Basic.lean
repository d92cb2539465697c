import PosixThreads.Collections.Dlist.Basic
import PosixThreads.Collections.String.Compare

/-!
# Sorting the list

This is `bubble_sort`, which exchanges nodes and leaves their strings in them. The node at which
the sorted part of the list starts is `NULL` in the first pass. Both loops are run for at most a
given number of turns.
-/

namespace PosixThreads

namespace Dlist

variable {α : Type}

/-- `next` or `next_mut`. -/
def nextMut (h : Heap (DlistNode α)) (node : Option ℕ) : Option (Option ℕ) :=
  match node with
  | none => some none
  | some p => do return (← h.get p).next

/-- `prev` or `prev_mut`. -/
def prevMut (h : Heap (DlistNode α)) (node : Option ℕ) : Option (Option ℕ) :=
  match node with
  | none => some none
  | some p => do return (← h.get p).prev

end Dlist

namespace SyncBubble

/-- The body of the loop over the nodes: whether the node had to be exchanged with the previous
one. There is no string behind `NULL`. -/
def compareWithPrev (h : Heap (DlistNode StringT)) (list : Dlist) (node : ℕ) :
    Option (Heap (DlistNode StringT) × Dlist × Bool) := do
  let prev ← (← Dlist.prevMut h (some node))
  let currentStr ← Dlist.get h node
  let prevStr ← Dlist.get h prev
  if (← StringT.cmp prevStr currentStr) > 0 then
    let (h, list) ← Dlist.swap h list prev node
    return (h, list, true)
  else return (h, list, false)

/-- The loop over the nodes. -/
def sortPass (sortedStart : Option ℕ) : ℕ → Heap (DlistNode StringT) → Dlist → Option ℕ → Bool →
    Option (Heap (DlistNode StringT) × Dlist × Bool)
  | 0, _, _, _, _ => none
  | _ + 1, h, list, none, swapped => some (h, list, swapped)
  | fuel + 1, h, list, some node, swapped =>
      if some node = sortedStart then some (h, list, swapped)
      else do
        let (h, list, exchanged) ← compareWithPrev h list node
        sortPass sortedStart fuel h list (← Dlist.nextMut h (some node)) (swapped || exchanged)

def nextSortedStart (h : Heap (DlistNode StringT)) (list : Dlist) (sortedStart : Option ℕ) :
    Option (Option ℕ) :=
  match sortedStart with
  | none => some list.endNode
  | some node => Dlist.prevMut h (some node)

/-- The loop over the passes. -/
def bubbleSortFrom (fuel : ℕ) : ℕ → Heap (DlistNode StringT) → Dlist → Option ℕ →
    Option (Heap (DlistNode StringT) × Dlist)
  | 0, _, _, _ => none
  | turns + 1, h, list, sortedStart => do
      let first ← Dlist.nextMut h list.head
      let (h, list, swapped) ← sortPass sortedStart fuel h list first false
      let sortedStart ← nextSortedStart h list sortedStart
      if swapped then bubbleSortFrom fuel turns h list sortedStart
      else return (h, list)

def bubbleSort (fuel : ℕ) (h : Heap (DlistNode StringT)) (list : Dlist) :
    Option (Heap (DlistNode StringT) × Dlist) :=
  bubbleSortFrom fuel fuel h list none

end SyncBubble

end PosixThreads
