/-
**Containers in a memory with other addresses.**

A container is moved in memory by renaming the addresses in its nodes and in its data members. The foreign
cells of `St.spread` lie between its nodes: before the gap, addresses stay as they are, and after it they
grow by its width. `St.Closed` says that every pointer is to an address that has been allocated, and
`SameUpTo` that two containers differ by a permutation of the addresses allocated last.
-/

import CppArt.Lib.Tracking
import CppArt.Model.Failure

namespace CppArt

variable {H K V : Type} {n : ℕ}

/-! ### Renaming addresses -/

/-- The child pointers of a node are renamed. -/
def SortedNode.rename {cap : ℕ} (g : Addr → Addr) (nd : SortedNode cap) : SortedNode cap :=
  { nd with children := nd.children.map (Option.map g) }

def Node48.rename (g : Addr → Addr) (nd : Node48) : Node48 :=
  { nd with children := nd.children.map (Option.map g) }

def Node256.rename (g : Addr → Addr) (nd : Node256) : Node256 :=
  { nd with children := nd.children.map (Option.map g) }

def Layout.rename (g : Addr → Addr) : Layout → Layout
  | .node4 nd => .node4 (nd.rename g)
  | .node16 nd => .node16 (nd.rename g)
  | .node48 nd => .node48 (nd.rename g)
  | .node256 nd => .node256 (nd.rename g)

def Body.rename (g : Addr → Addr) : Body H V → Body H V
  | .leaf value => .leaf value
  | .baseLeaf => .baseLeaf
  | .dummy root endLeaf => .dummy (root.map g) (g endLeaf)
  | .inner header layout => .inner header (layout.rename g)

/-- **The pointers of a node** are renamed. -/
def Cell.rename (g : Addr → Addr) (cell : Cell H V) : Cell H V := ⟨cell.parent.map g, cell.body.rename g⟩

/-- **The pointers of a container** are renamed. -/
def Tree.rename (g : Addr → Addr) (tree : Tree K n) : Tree K n :=
  { tree with dummyNode := g tree.dummyNode, root := tree.root.map g }

/-- **The container among foreign cells.** -/
def St.spread (ρ : Shift) (foreign : Addr → Option (Cell H V)) (s : St H K V n) : St H K V n :=
  ⟨s.mem.spread ρ foreign (Cell.rename ρ.move), s.tree.rename ρ.move⟩

/-- **Two states are the same up to the addresses from `start` on.** -/
structure SameUpTo (start : Addr) (g : Equiv.Perm Addr) (s s' : St H K V n) : Prop where
  old : ∀ a < start, g a = a
  cells : ∀ a, s'.mem.get (g a) = (s.mem.get a).map (Cell.rename g)
  tree : s'.tree = s.tree.rename g

/-! ### Pointers -/

/-- The child pointers in the arrays of a node, also those that are not in use any more. -/
def Layout.pointers : Layout → List Addr
  | .node4 nd => nd.children.toList.reduceOption
  | .node16 nd => nd.children.toList.reduceOption
  | .node48 nd => nd.children.toList.reduceOption
  | .node256 nd => nd.children.toList.reduceOption

def Body.pointers : Body H V → List Addr
  | .leaf _ => []
  | .baseLeaf => []
  | .dummy root endLeaf => root.toList ++ [endLeaf]
  | .inner _ layout => layout.pointers

def Cell.pointers (cell : Cell H V) : List Addr := cell.parent.toList ++ cell.body.pointers

def Tree.pointers (tree : Tree K n) : List Addr := tree.dummyNode :: tree.root.toList

/-- Every pointer in a node is to an address that has been allocated. -/
def ClosedCells (mem : Memory (Cell H V)) : Prop :=
  ∀ a cell, mem.get a = some cell → ∀ p ∈ cell.pointers, p < mem.next

/-- **Every pointer is to an address that has been allocated.** -/
structure St.Closed (s : St H K V n) : Prop where
  cells : ClosedCells s.mem
  tree : ∀ p ∈ s.tree.pointers, p < s.mem.next

/-! ### Calls and lookups -/

/-- The iterator of a call is renamed. -/
def Call.rename (g : Addr → Addr) : Call K V → Call K V
  | .eraseAt it => .eraseAt (g it)
  | other => other

/-- The iterator that a call returns is renamed. -/
def Answer.rename (g : Addr → Addr) : Answer → Answer
  | .inserted it fresh => .inserted (g it) fresh
  | .next it => .next (g it)
  | other => other

def Call.pointers : Call K V → List Addr
  | .eraseAt it => [it]
  | _ => []

def Answer.pointers : Answer → List Addr
  | .inserted it _ => [it]
  | .next it => [it]
  | _ => []

/-- The member functions that return an iterator and change nothing: `find`, `lower_bound` and
`upper_bound` (by what they accept), `begin`, `end`, `++` and `--`. -/
inductive Lookup (K : Type)
  | find (k : K)
  | bound (accept : Ordering → Bool) (k : K)
  | first
  | last
  | advance (dir : Dir) (it : Addr)

/-- A lookup is executed. -/
def look [Variant H] (tr : Traits K V n) : Lookup K → Run H K V n Addr
  | .find k => find tr k
  | .bound accept k => bound tr accept k
  | .first => beginIt
  | .last => endIt
  | .advance dir it => advance tr dir it

def Lookup.rename (g : Addr → Addr) : Lookup K → Lookup K
  | .advance dir it => .advance dir (g it)
  | other => other

def Lookup.pointers : Lookup K → List Addr
  | .advance _ it => [it]
  | _ => []

/-- **Calls and lookups among foreign cells** do what they do without them. -/
structure Relocates [Variant H] (tr : Traits K V n) (ρ : Shift) (foreign : Addr → Option (Cell H V))
    (s : St H K V n) : Prop where
  calls : ∀ cs : List (Call K V),
    (cs.map (Call.rename ρ.move)).mapM (perform tr) (s.spread ρ foreign)
      = Exec.mapResult (St.spread ρ foreign) (List.map (Answer.rename ρ.move)) (cs.mapM (perform tr) s)
  lookups : ∀ query : Lookup K, look tr (query.rename ρ.move) (s.spread ρ foreign)
    = Exec.mapResult (St.spread ρ foreign) ρ.move (look tr query s)

/-- **A run of calls** with iterators that have been allocated. A call returns, or it throws an exception
and the run goes on behind it, whichever allocation it was that failed. A call that stops with any other
fault has no defined behaviour, and ends the run. -/
inductive Ran [Variant H] (tr : Traits K V n) (s : St H K V n) : St H K V n → Prop
  | start : Ran tr s s
  | returned {s' t : St H K V n} {call : Call K V} {answer : Answer} (ran : Ran tr s s')
      (within : ∀ p ∈ call.pointers, p < s'.mem.next) (run : perform tr call s' = .ok answer t) : Ran tr s t
  | thrown {s' t : St H K V n} {call : Call K V} (ran : Ran tr s s') (a : Addr)
      (within : ∀ p ∈ call.pointers, p < s'.mem.next)
      (run : perform tr call (s'.arm a) = .error .badAlloc t) : Ran tr s t

/-- **No address is made up** by the next call or lookup. -/
structure KeepsClosed [Variant H] (tr : Traits K V n) (s : St H K V n) : Prop where
  closed : s.Closed
  calls : ∀ (call : Call K V) (answer : Answer) (t : St H K V n), (∀ p ∈ call.pointers, p < s.mem.next) →
    perform tr call s = .ok answer t → ∀ p ∈ answer.pointers, p < t.mem.next
  lookups : ∀ (query : Lookup K) (it : Addr) (t : St H K V n), (∀ p ∈ query.pointers, p < s.mem.next) →
    look tr query s = .ok it t → it < t.mem.next

/-- **The two insertions of a value agree**: the same flag, the same element, and the same container up to
the addresses of the new nodes. -/
def InsertsAlike [Variant H] (tr : Traits K V n) (s : St H K V n) (x : V) : Prop :=
  ∃ (it : Addr) (fresh : Bool) (g : Equiv.Perm Addr) (s₁ s₂ : St H K V n),
    insertUnique tr x s = .ok (it, fresh) s₁ ∧ emplaceUnique tr x s = .ok (g it, fresh) s₂ ∧
      SameUpTo s.mem.next g s₁ s₂

end CppArt
