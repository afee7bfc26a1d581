/-
**Insertions in which an allocation fails.**

`new` throws at the address that `failAt` names, for want of memory or because the constructor of the
value throws. A call is attempted in a memory in which its allocation number `k` is set to fail; the
allocation clears that setting when it throws.

`insert_unique` restructures the tree first and allocates the leaf last, `emplace_unique` allocates the
leaf first; neither undoes its restructuring. The allocation that may fail without harm is the one before
any restructuring (`Spared`).
-/

import CppArt.Model.Shape

namespace CppArt

variable {H K V : Type} {n : ℕ}

/-- The memory in which the allocation at an address is set to fail. -/
def Memory.arm {C : Type} (m : Memory C) (a : Addr) : Memory C := { m with failAt := some a }

/-- The state in which the allocation at an address is set to fail. -/
def St.arm (s : St H K V n) (a : Addr) : St H K V n := { s with mem := s.mem.arm a }

/-- **The allocation of a call that may fail**: the first one of `insert_unique`, and of `emplace_unique`
the first one after its leaf. -/
inductive Call.Spared : Call K V → ℕ → Prop
  | insert (x : V) : Spared (.insert x) 0
  | emplace (x : V) : Spared (.emplace x) 1

/-- **A history of calls some of which throw**, with the reference map. A call that throws leaves the
reference map as it was. -/
inductive FailingHistory [Variant H] (tr : Traits K V n) : St H K V n → Table Byte n V → Prop
  | start {mem : Memory (Cell H V)} {s : St H K V n} (calm : mem.failAt = none)
      (run : init ⟨mem, Tree.uninitialised tr.defaultTransform⟩ = .ok ⟨⟩ s) :
      FailingHistory tr s Table.empty
  | call {s s' : St H K V n} {m m' : Table Byte n V} {call : Call K V} {answer : Answer}
      (history : FailingHistory tr s m) (effect : call.Effect tr s m m')
      (run : perform tr call s = .ok answer s') : FailingHistory tr s' m'
  | thrown {s s' : St H K V n} {m : Table Byte n V} {call : Call K V} {k : ℕ}
      (history : FailingHistory tr s m) (spared : call.Spared k)
      (run : perform tr call (s.arm (s.mem.next + k)) = .error .badAlloc s') : FailingHistory tr s' m

/-- **No inner node has a leaf as its only child.** -/
def NoLoneLeaf (s : St H K V n) : Prop :=
  ∀ a h l b c p v, IsInner s a h l → l.count = 1 → l.find b = .ok (some c) →
    s.mem.get c ≠ some ⟨p, .leaf v⟩

/-- **Every inner node has two children or more.** -/
def Branching (s : St H K V n) : Prop := ∀ a h l, IsInner s a h l → 2 ≤ l.count

end CppArt
