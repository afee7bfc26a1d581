/-
**Elements written through iterators.**

`*it` is a reference to the value in the leaf, and the iterators of a `radix_set` are not constant: the
key of an element can be overwritten where it is. The tree above the leaf is not told. `InPlace` says when
it need not be; `OverwriteHistory` are the runs with such writes.
-/

import CppArt.Model.History

namespace CppArt

variable {H K V : Type} {n : ℕ}

/-- `*it = x;` -/
def overwrite (it : Addr) (x : V) : Run H K V n Unit := do
  let cell ← load it
  match cell.body with
  | .leaf _ => store it { cell with body := .leaf x }
  | _ => throw .badCast

/-- An element of the reference map gets another key and value. -/
def Table.rekey (m : Table Byte n V) (w w' : Key n) (x : V) : Table Byte n V :=
  Table.put (Table.drop m w) w' x

/-- **The new key may stand in the place of the old one**: it has the bytes of the old one down to the
first byte at which that differs from any other key. -/
def InPlace (keys : Set (Key n)) (w w' : Key n) : Prop :=
  ∀ u ∈ keys, u ≠ w → ∀ j, Word.Agree j w u → Word.Agree (j + 1) w w'

/-- **A history of calls and of writes in place**, with the reference map. No allocation fails. -/
inductive OverwriteHistory [Variant H] (tr : Traits K V n) : St H K V n → Table Byte n V → Prop
  | start {mem : Memory (Cell H V)} {s : St H K V n} (calm : mem.failAt = none)
      (run : init ⟨mem, Tree.uninitialised tr.defaultTransform⟩ = .ok ⟨⟩ s) :
      OverwriteHistory tr s Table.empty
  | call {s s' : St H K V n} {m m' : Table Byte n V} {call : Call K V} {answer : Answer}
      (history : OverwriteHistory tr s m) (effect : call.Effect tr s m m')
      (run : perform tr call s = .ok answer s') : OverwriteHistory tr s' m'
  | overwrite {s s' : St H K V n} {m : Table Byte n V} {it : Addr} {x x' : V}
      (history : OverwriteHistory tr s m) (stored : Stored s it x)
      (fitting : InPlace (Table.dom m) (tr.keyOf x) (tr.keyOf x'))
      (run : CppArt.overwrite it x' s = .ok ⟨⟩ s') :
      OverwriteHistory tr s' (m.rekey (tr.keyOf x) (tr.keyOf x') x')

end CppArt
