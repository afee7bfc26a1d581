/-
**Calls, iterators and histories.**

What a user of a container sees: the member functions that change it (`Call`, `perform`), the elements
its iterators point to (`Stored`), and the histories of calls on a container that starts empty
(`History`). Beside every state a history carries the reference map: a table from transformed keys to
values whose insertions never overwrite. A call is legal when it has an `Effect` on the reference map;
the only illegal ones are erasures through an iterator that points to no element.
-/

import CppArt.Lib.Tables
import CppArt.Model.ArPrefixTree
import CppArt.Model.ArTree

namespace CppArt

variable {H K V : Type} {n : ℕ}

/-- The transformed key of a value. -/
def Traits.keyOf (tr : Traits K V n) (x : V) : Key n := tr.defaultTransform (tr.keyOfValue x)

/-! ### Elements -/

/-- A node is reached from another through child pointers. -/
inductive Below (mem : Memory (Cell H V)) : Addr → Addr → Prop
  | refl (a : Addr) : Below mem a a
  | child {a c x : Addr} {p : Option Addr} {h : H} {l : Layout} {b : Byte}
      (cell : mem.get a = some ⟨p, .inner h l⟩) (slot : l.find b = .ok (some c))
      (rest : Below mem c x) : Below mem a x

/-- **The iterator points to an element with this value**: a leaf of the tree. -/
def Stored (s : St H K V n) (it : Addr) (v : V) : Prop :=
  ∃ r p, s.tree.root = some r ∧ Below s.mem r it ∧ s.mem.get it = some ⟨p, .leaf v⟩

/-- The iterator is `end()`. -/
def IsEnd (s : St H K V n) (it : Addr) : Prop := endIt s = .ok it s

/-- `_M_dummy_node->_root == _M_root`. -/
def Tethered (s : St H K V n) : Prop :=
  ∃ p e, s.mem.get s.tree.dummyNode = some ⟨p, .dummy s.tree.root e⟩

/-- **The iterator points to the least of a set of keys**, and is `end()` when the set is empty. -/
def PointsTo (tr : Traits K V n) (s : St H K V n) (keys : Set (Key n)) (it : Addr) : Prop :=
  (∃ v, Stored s it v ∧ IsLeast keys (tr.keyOf v)) ∨ (keys = ∅ ∧ IsEnd s it)

/-- `++` (upwards) or `--` (downwards), repeated: the iterators that are reached. -/
def walk [Header H] (tr : Traits K V n) (dir : Dir) : ℕ → Addr → Run H K V n (List Addr)
  | 0, _ => pure []
  | steps + 1, it => do
      let next ← advance tr dir it
      let rest ← walk tr dir steps next
      pure (next :: rest)

/-- **The iterators `its` are those of the range from `first` to `last`.** -/
def Spans [Header H] (tr : Traits K V n) (s : St H K V n) (first last : Addr) (its : List Addr) : Prop :=
  ∃ rest, walk tr .up its.length first s = .ok rest s ∧ first :: rest = its ++ [last]

/-- **The elements of the tree are the entries of a map**, one for each key. -/
structure Represents (tr : Traits K V n) (s : St H K V n) (m : Table Byte n V) : Prop where
  entries : ∀ w v, m w = some v ↔ ∃ it, Stored s it v ∧ tr.keyOf v = w
  unique : ∀ it it' v v', Stored s it v → Stored s it' v' → tr.keyOf v = tr.keyOf v' → it = it'

/-! ### Calls -/

/-- The member functions that change a container. -/
inductive Call (K V : Type)
  | insert (x : V)
  | emplace (x : V)
  | erase (k : K)
  | eraseAt (it : Addr)
  | clear

/-- What they return. -/
inductive Answer
  | inserted (it : Addr) (fresh : Bool)
  | erased (count : ℕ)
  | next (it : Addr)
  | cleared
deriving DecidableEq, Repr

/-- A call is executed. -/
def perform [Variant H] (tr : Traits K V n) : Call K V → Run H K V n Answer
  | .insert x => do
      let (it, fresh) ← insertUnique tr x
      pure (.inserted it fresh)
  | .emplace x => do
      let (it, fresh) ← emplaceUnique tr x
      pure (.inserted it fresh)
  | .erase k => do
      let count ← eraseUnique tr k
      pure (.erased count)
  | .eraseAt it => do
      let next ← eraseAt tr it
      pure (.next next)
  | .clear => do
      clear
      pure .cleared

/-! ### The reference map -/

/-- An insertion that never overwrites. -/
def Table.putNew (m : Table Byte n V) (w : Key n) (x : V) : Table Byte n V :=
  if m w = none then Table.put m w x else m

/-- **What a call does to the reference map.** -/
inductive Call.Effect (tr : Traits K V n) (s : St H K V n) (m : Table Byte n V) :
    Call K V → Table Byte n V → Prop
  | insert (x : V) : Effect tr s m (.insert x) (m.putNew (tr.keyOf x) x)
  | emplace (x : V) : Effect tr s m (.emplace x) (m.putNew (tr.keyOf x) x)
  | erase (k : K) : Effect tr s m (.erase k) (m.drop (tr.defaultTransform k))
  | eraseAt (it : Addr) (v : V) (stored : Stored s it v) :
      Effect tr s m (.eraseAt it) (m.drop (tr.keyOf v))
  | clear : Effect tr s m .clear Table.empty

/-- **What the reference map returns**, for iterators of the state `s'` after the call. -/
inductive Call.Answered (tr : Traits K V n) (s s' : St H K V n) (m : Table Byte n V) :
    Call K V → Answer → Prop
  | insert (x v : V) (it : Addr) (fresh : Bool) (stored : Stored s' it v)
      (key : tr.keyOf v = tr.keyOf x) (new : fresh = true ↔ m (tr.keyOf x) = none) :
      Answered tr s s' m (.insert x) (.inserted it fresh)
  | emplace (x v : V) (it : Addr) (fresh : Bool) (stored : Stored s' it v)
      (key : tr.keyOf v = tr.keyOf x) (new : fresh = true ↔ m (tr.keyOf x) = none) :
      Answered tr s s' m (.emplace x) (.inserted it fresh)
  | erase (k : K) : Answered tr s s' m (.erase k)
      (.erased (if m (tr.defaultTransform k) = none then 0 else 1))
  | eraseAt (it next : Addr) (v : V) (stored : Stored s it v)
      (points : PointsTo tr s' {u | u ∈ Table.dom m ∧ tr.keyOf v < u} next) :
      Answered tr s s' m (.eraseAt it) (.next next)
  | clear : Answered tr s s' m .clear .cleared

/-! ### Histories -/

/-- **A history of calls** on a container that has been constructed in some memory, with the reference
map. No allocation fails. -/
inductive History [Variant H] (tr : Traits K V n) : St H K V n → Table Byte n V → Prop
  | start {mem : Memory (Cell H V)} {s : St H K V n} (calm : mem.failAt = none)
      (run : init ⟨mem, Tree.uninitialised tr.defaultTransform⟩ = .ok ⟨⟩ s) :
      History tr s Table.empty
  | call {s s' : St H K V n} {m m' : Table Byte n V} {call : Call K V} {answer : Answer}
      (history : History tr s m) (effect : call.Effect tr s m m')
      (run : perform tr call s = .ok answer s') : History tr s' m'

/-! ### Containers made of given values -/

/-- A container is constructed and the values of a list are inserted. -/
def insertAll [Variant H] (tr : Traits K V n) (xs : List V) : Run H K V n Unit := do
  init
  xs.forM fun x => do
    let _ ← insertUnique tr x

/-- The reference map after that. -/
def Table.ofList (tr : Traits K V n) (xs : List V) : Table Byte n V :=
  xs.foldl (fun m x => m.putNew (tr.keyOf x) x) Table.empty

/-- No object, and a container that has not been constructed. -/
def blankState (H : Type) (tr : Traits K V n) : St H K V n :=
  ⟨Memory.blank, Tree.uninitialised tr.defaultTransform⟩

/-- The traits of a set of transformed keys. -/
def Traits.identity (n : ℕ) : Traits (Key n) (Key n) n := ⟨id, ⟨Vector.replicate n 0⟩, id⟩

end CppArt
