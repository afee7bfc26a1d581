/-
**Two containers in one memory, and copies.**

A container and its copy are two containers in one memory, and so are the two sides of an assignment.
`Interleaved` are the runs of calls on either of two containers, `Coexist` the pairs that such a run
reaches from two constructed ones. `SameTree` and `SameAnswer` say what a copy has in common with its
source: the nodes from the roots down but for their addresses, and the answers to queries.
-/

import CppArt.Model.Copy
import CppArt.Model.Shape

namespace CppArt

variable {H K V : Type} {n : ℕ}

/-- Two containers in one memory. -/
structure Duo (H K V : Type) (n : ℕ) where
  mem : Memory (Cell H V)
  left : Tree K n
  right : Tree K n

/-- The memory and the first container. -/
def Duo.first (d : Duo H K V n) : St H K V n := ⟨d.mem, d.left⟩

/-- The memory and the second container. -/
def Duo.second (d : Duo H K V n) : St H K V n := ⟨d.mem, d.right⟩

/-! ### Runs of calls on either container -/

/-- **Calls on either of two containers**, with the reference map of each. -/
inductive Interleaved [Variant H] (tr : Traits K V n) (d₀ : Duo H K V n) (m₀ m₀' : Table Byte n V) :
    Duo H K V n → Table Byte n V → Table Byte n V → Prop
  | refl : Interleaved tr d₀ m₀ m₀' d₀ m₀ m₀'
  | first {d : Duo H K V n} {m m' m₁ : Table Byte n V} {call : Call K V} {answer : Answer}
      {s : St H K V n} (before : Interleaved tr d₀ m₀ m₀' d m m') (effect : call.Effect tr d.first m m₁)
      (run : perform tr call d.first = .ok answer s) :
      Interleaved tr d₀ m₀ m₀' ⟨s.mem, s.tree, d.right⟩ m₁ m'
  | second {d : Duo H K V n} {m m' m₁ : Table Byte n V} {call : Call K V} {answer : Answer}
      {s : St H K V n} (before : Interleaved tr d₀ m₀ m₀' d m m') (effect : call.Effect tr d.second m' m₁)
      (run : perform tr call d.second = .ok answer s) :
      Interleaved tr d₀ m₀ m₀' ⟨s.mem, d.left, s.tree⟩ m m₁

/-- **Two containers that have been constructed** in some memory and used since. Either is the older one,
and that one may have been used before the other is constructed. -/
def Coexist [Variant H] (tr : Traits K V n) (d : Duo H K V n) (m m' : Table Byte n V) : Prop :=
  ∃ (s s' : St H K V n) (m₀ : Table Byte n V), History tr s m₀ ∧
    init ⟨s.mem, Tree.uninitialised tr.defaultTransform⟩ = .ok ⟨⟩ s' ∧
    (Interleaved tr ⟨s'.mem, s.tree, s'.tree⟩ m₀ Table.empty d m m' ∨
      Interleaved tr ⟨s'.mem, s'.tree, s.tree⟩ Table.empty m₀ d m m')

/-! ### Copies -/

/-- **The trees below two nodes are the same**: headers, types, counts, branch bytes and values; and in
the second tree every child has the node that holds it as its `_parent`. -/
inductive SameTree (fields : H → H) (mem : Memory (Cell H V)) : Addr → Addr → Prop
  | leaf {a a' : Addr} {p p' : Option Addr} {v : V} (cell : mem.get a = some ⟨p, .leaf v⟩)
      (cell' : mem.get a' = some ⟨p', .leaf v⟩) : SameTree fields mem a a'
  | inner {a a' : Addr} {p p' : Option Addr} {h h' : H} {l l' : Layout}
      (cell : mem.get a = some ⟨p, .inner h l⟩) (cell' : mem.get a' = some ⟨p', .inner h' l'⟩)
      (header : fields h' = fields h) (type : l'.getType = l.getType) (count : l'.count = l.count)
      (bytes : l'.branchBytes = l.branchBytes)
      (parents : ∀ b c', l'.find b = .ok (some c') → ∃ body, mem.get c' = some ⟨some a', body⟩)
      (kids : ∀ b c c', l.find b = .ok (some c) → l'.find b = .ok (some c') →
        SameTree fields mem c c') : SameTree fields mem a a'

/-- Two containers are both empty, or their trees are the same. -/
def SameRoots (fields : H → H) (d : Duo H K V n) : Prop :=
  (d.left.root = none ∧ d.right.root = none) ∨ ∃ r r', d.left.root = some r ∧
    d.right.root = some r' ∧ SameTree fields d.mem r r'

/-- **A query has the same answer on both containers**: iterators to elements with the same value, the
end, or the same fault. -/
inductive SameAnswer (d : Duo H K V n) (query : Run H K V n Addr) : Prop
  | element (it it' : Addr) (v : V) (run : query d.first = .ok it d.first)
      (run' : query d.second = .ok it' d.second) (stored : Stored d.first it v)
      (stored' : Stored d.second it' v)
  | ended (it it' : Addr) (run : query d.first = .ok it d.first)
      (run' : query d.second = .ok it' d.second) (ends : IsEnd d.first it) (ends' : IsEnd d.second it')
  | failed (fault : Fault) (s s' : St H K V n) (run : query d.first = .error fault s)
      (run' : query d.second = .error fault s')

/-! ### What the copy constructors rely on -/

/-- **The child of each byte is in the slot with the number of the byte**, if the node is a
`_Node_48`. -/
def Layout.Aligned : Layout → Prop
  | .node48 nd => ∀ b, nd.used b → nd.childIndex.read b = b
  | _ => True

end CppArt
