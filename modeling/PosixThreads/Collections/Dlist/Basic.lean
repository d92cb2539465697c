import PosixThreads.Common.Error
import PosixThreads.Library.Heap

/-!
# The doubly linked list

The nodes of `dlist.h` live on a heap and are known by their addresses, `none` being
`NULL`. A list is a pair of such addresses and a counter. Every function follows the
source assignment by assignment, in the order of the source: a call that fails an
assertion or reads a freed node is `none`, as is one of a loop over nodes that never
ends. The loops are run for as many turns as there have been nodes, which suffices
unless the nodes form a cycle.
-/

namespace PosixThreads

structure DlistNode (α : Type) where
  value : α
  prev : Option ℕ
  next : Option ℕ
  deriving DecidableEq, Repr

structure Dlist where
  head : Option ℕ
  endNode : Option ℕ
  len : ℕ
  deriving DecidableEq, Repr

namespace Dlist

variable {α : Type}

def new : Dlist := ⟨none, none, 0⟩

/-- The loop of `contains`, from a given node on. -/
def containsFrom (h : Heap (DlistNode α)) (node : ℕ) : ℕ → Option ℕ → Option Bool
  | 0, _ => none
  | _ + 1, none => some false
  | fuel + 1, some n =>
      if n = node then some true else do containsFrom h node fuel (← h.get n).next

def contains (h : Heap (DlistNode α)) (self : Dlist) (node : ℕ) : Option Bool :=
  containsFrom h node (h.next + 1) self.head

/-- `if (p != NULL) p->next = next`. -/
def setNext (h : Heap (DlistNode α)) (p next : Option ℕ) : Option (Heap (DlistNode α)) :=
  match p with
  | none => some h
  | some p => do
      let node ← h.get p
      return h.set p { node with next := next }

/-- `if (p != NULL) p->prev = prev`. -/
def setPrev (h : Heap (DlistNode α)) (p prev : Option ℕ) : Option (Heap (DlistNode α)) :=
  match p with
  | none => some h
  | some p => do
      let node ← h.get p
      return h.set p { node with prev := prev }

def link (h : Heap (DlistNode α)) (prev next : Option ℕ) : Option (Heap (DlistNode α)) := do
  assertThat (prev.isSome || next.isSome)
  let h ← setNext h prev next
  setPrev h next prev

def unlinkPrev (h : Heap (DlistNode α)) (next : ℕ) : Option (Heap (DlistNode α)) := do
  let node ← h.get next
  assertThat (node.next ≠ some next)
  let h ← match node.prev with
    | none => some h
    | some prev => do
        let prevNode ← h.get prev
        assertThat (prevNode.next = some next)
        pure (h.set prev { prevNode with next := node.next })
  setPrev h (some next) none

def unlinkBoth (h : Heap (DlistNode α)) (node : ℕ) : Option (Heap (DlistNode α)) := do
  let ⟨_, prev, next⟩ ← h.get node
  let h ← setNext h prev next
  let h ← setPrev h next prev
  let ⟨value, _, _⟩ ← h.get node
  return h.set node ⟨value, none, none⟩

/-- The successor that `insert_after` finds for a new node. -/
def nextAfter (h : Heap (DlistNode α)) (self : Dlist) (prev : Option ℕ) : Option (Option ℕ) :=
  match prev with
  | some p => do
      assertThat (← contains h self p)
      return (← h.get p).next
  | none => some self.head

/-- `if (next != NULL) unlink_prev(next)`. -/
def unlinkNext (h : Heap (DlistNode α)) (next : Option ℕ) : Option (Heap (DlistNode α)) :=
  match next with
  | some next => unlinkPrev h next
  | none => some h

/-- `insert_after`. The answer of the allocator is `ok`; the last component is the
`*result`, which a failed call leaves alone. -/
def insertAfter (ok : Bool) (h : Heap (DlistNode α)) (self : Dlist) (value : α)
    (prev : Option ℕ) :
    Option (Option CommonErrorCode × Heap (DlistNode α) × Dlist × Option ℕ) :=
  if ok then do
    let node := h.next
    let h := h.alloc ⟨value, none, none⟩
    let next ← nextAfter h self prev
    let h ← unlinkNext h next
    let h ← link h prev (some node)
    let h ← link h (some node) next
    return (none, h, {
      head := if prev = none then some node else self.head
      endNode := if next = none then some node else self.endNode
      len := self.len + 1 }, some node)
  else return (some .memoryAllocationFailure, h, self, none)

def append (ok : Bool) (h : Heap (DlistNode α)) (self : Dlist) (value : α) :
    Option (Option CommonErrorCode × Heap (DlistNode α) × Dlist × Option ℕ) :=
  insertAfter ok h self value self.endNode

def insertBefore (ok : Bool) (h : Heap (DlistNode α)) (self : Dlist) (value : α)
    (next : Option ℕ) :
    Option (Option CommonErrorCode × Heap (DlistNode α) × Dlist × Option ℕ) :=
  match next with
  | none => append ok h self value
  | some next => do insertAfter ok h self value (← h.get next).prev

/-- The list of one node that `pluck` returns. -/
def plucked (node : ℕ) : Dlist := ⟨some node, some node, 1⟩

/-- `pluck`, without the list that it returns. -/
def pluck (h : Heap (DlistNode α)) (self : Dlist) (node : ℕ) :
    Option (Heap (DlistNode α) × Dlist) := do
  assertThat (← contains h self node)
  let n ← h.get node
  let head := if self.head = some node then n.next else self.head
  let endNode := if self.endNode = some node then n.prev else self.endNode
  let h ← unlinkBoth h node
  let self := ⟨head, endNode, self.len - 1⟩
  assertThat !(← contains h self node)
  return (h, self)

def remove (h : Heap (DlistNode α)) (self : Dlist) (node : ℕ) :
    Option (α × Heap (DlistNode α) × Dlist) := do
  assertThat (← contains h self node)
  let (h, self) ← pluck h self node
  let n ← h.get node
  return (n.value, h.free node, self)

def concat (h : Heap (DlistNode α)) (self other : Dlist) :
    Option (Heap (DlistNode α) × Dlist) :=
  if other.len = 0 then some (h, self)
  else if self.len = 0 then some (h, other)
  else do
    let h ← link h self.endNode other.head
    return (h, { self with
      len := self.len + other.len
      endNode := other.endNode })

/-- The links that `swap` makes, from the neighbours that the two nodes had before it. -/
def swapLinks (h : Heap (DlistNode α)) (lhs rhs : ℕ) (lhsPrev lhsNext rhsPrev rhsNext : Option ℕ) :
    Option (Heap (DlistNode α)) := do
  let h ← link h lhsPrev (some rhs)
  let h ← link h (some lhs) rhsNext
  if lhsNext = some rhs then link h (some rhs) (some lhs)
  else do
    let h ← link h (some rhs) lhsNext
    link h rhsPrev (some lhs)

def swapEnds (self : Dlist) (lhs rhs : ℕ) : Dlist :=
  { self with
    head :=
      if self.head = some lhs then some rhs
      else if self.head = some rhs then some lhs
      else self.head
    endNode :=
      if self.endNode = some lhs then some rhs
      else if self.endNode = some rhs then some lhs
      else self.endNode }

def swap (h : Heap (DlistNode α)) (self : Dlist) (lhs rhs : ℕ) :
    Option (Heap (DlistNode α) × Dlist) := do
  assertThat (← contains h self lhs)
  assertThat (← contains h self rhs)
  if lhs = rhs then return (h, self)
  else do
    let l ← h.get lhs
    let r ← h.get rhs
    -- the arguments are exchanged here, their neighbours are not
    let (lhs, rhs) := if r.next = some lhs then (rhs, lhs) else (lhs, rhs)
    let h ← swapLinks h lhs rhs l.prev l.next r.prev r.next
    return (h, swapEnds self lhs rhs)

def get (h : Heap (DlistNode α)) (node : ℕ) : Option α := do return (← h.get node).value

/-- `node->next == NULL || node->next->prev == node`. -/
def nextLinksBack (h : Heap (DlistNode α)) (node : ℕ) (next : Option ℕ) : Option Bool :=
  match next with
  | none => some true
  | some next => do return (← h.get next).prev = some node

/-- `node->prev == NULL || node->prev->next == node`. -/
def prevLinksBack (h : Heap (DlistNode α)) (node : ℕ) (prev : Option ℕ) : Option Bool :=
  match prev with
  | none => some true
  | some prev => do return (← h.get prev).next = some node

/-- The loop of `is_valid`, with `actual_len` and `actual_end`. -/
def isValidFrom (h : Heap (DlistNode α)) : ℕ → Option ℕ → ℕ → Option ℕ → Option (ℕ × Option ℕ)
  | 0, _, _, _ => none
  | _ + 1, none, actualLen, actualEnd => some (actualLen, actualEnd)
  | fuel + 1, some node, actualLen, _ => do
      let n ← h.get node
      assertThat (← nextLinksBack h node n.next)
      assertThat (← prevLinksBack h node n.prev)
      isValidFrom h fuel n.next (actualLen + 1) (some node)

/-- `is_valid`, which returns or fails an assertion. -/
def isValid (h : Heap (DlistNode α)) (self : Dlist) : Option Unit := do
  let (actualLen, actualEnd) ← isValidFrom h (h.next + 1) self.head 0 none
  assertThat (self.len = actualLen)
  assertThat (self.endNode = actualEnd)

/-- `target == NULL || contains(self, target)`. -/
def nullOrContains (h : Heap (DlistNode α)) (self : Dlist) (target : Option ℕ) : Option Bool :=
  match target with
  | none => some true
  | some target => contains h self target

/-- The assertions that `move_before` and `move_after` begin with. -/
def moveChecks (h : Heap (DlistNode α)) (self : Dlist) (node : ℕ) (target : Option ℕ) :
    Option Unit := do
  assertThat (← contains h self node)
  assertThat (← nullOrContains h self target)
  isValid h self

/-- The last part of `move_after`, for a node that has to be moved. -/
def relinkAfter (h : Heap (DlistNode α)) (self : Dlist) (node after : ℕ) :
    Option (Heap (DlistNode α) × Dlist) := do
  let n ← h.get node
  let afterNext := (← h.get after).next
  let h ← unlinkBoth h node
  let h ← link h (some after) (some node)
  let h ← link h (some node) afterNext
  let self := { self with
    head := if self.head = some node then n.next else self.head
    endNode :=
      if self.endNode = some node then n.prev
      else if self.endNode = some after then some node
      else self.endNode }
  isValid h self
  return (h, self)

/-- `move_after` with a target that is not `NULL`. -/
def moveAfterNode (h : Heap (DlistNode α)) (self : Dlist) (node after : ℕ) :
    Option (Heap (DlistNode α) × Dlist) := do
  moveChecks h self node (some after)
  let n ← h.get node
  if after = node ∨ n.prev = some after then return (h, self)
  else relinkAfter h self node after

/-- `move_after`. Without a target it calls itself with the head of the list. -/
def moveAfter (h : Heap (DlistNode α)) (self : Dlist) (node : ℕ) (after : Option ℕ) :
    Option (Heap (DlistNode α) × Dlist) :=
  match after with
  | some after => moveAfterNode h self node after
  | none => do
      moveChecks h self node none
      let n ← h.get node
      if n.prev = none then return (h, self)
      else moveAfterNode h self node (← self.head)

/-- The last part of `move_before`, for a node that has to be moved. -/
def relinkBefore (h : Heap (DlistNode α)) (self : Dlist) (node before : ℕ) :
    Option (Heap (DlistNode α) × Dlist) := do
  let n ← h.get node
  let beforePrev := (← h.get before).prev
  let h ← unlinkBoth h node
  let h ← link h beforePrev (some node)
  let h ← link h (some node) (some before)
  let self := { self with
    head :=
      if self.head = some node then n.next
      else if self.head = some before then some node
      else self.head
    endNode := if self.endNode = some node then n.prev else self.endNode }
  isValid h self
  return (h, self)

/-- `move_before`. Without a target it is `move_after` the end of the list. -/
def moveBefore (h : Heap (DlistNode α)) (self : Dlist) (node : ℕ) (before : Option ℕ) :
    Option (Heap (DlistNode α) × Dlist) := do
  moveChecks h self node before
  let n ← h.get node
  if before = some node ∨ before = n.next then return (h, self)
  else
    match before with
    | none => moveAfter h self node self.endNode
    | some before => relinkBefore h self node before

end Dlist

end PosixThreads
