/-
**A container with a transformer of its own.**

The constructor from a list takes a transformer, which the container stores. Most member functions use
that one; `++`, `--` and the `_min_key` of a long prefix use a default-constructed one. The model of a
class has the default one in its traits: `Traits.storing` are the traits of a class whose default
transformer is the stored one. `StoredHistory` are the runs of a container that stores a transformer.
-/

import CppArt.Model.World

namespace CppArt

variable {H K V : Type} {n : ℕ}

/-- The traits of a class whose default transformer is `t`. -/
def Traits.storing (tr : Traits K V n) (t : K → Key n) : Traits K V n :=
  { tr with defaultTransform := t }

/-- The two transformers agree on the key of a value. -/
def Traits.SameFor (tr : Traits K V n) (t : K → Key n) (x : V) : Prop :=
  tr.defaultTransform (tr.keyOfValue x) = t (tr.keyOfValue x)

/-- **What a call has to respect**: the values it inserts are of some kind, and the transformers agree on
the element at an iterator. -/
def Call.Respects (tr : Traits K V n) (t : K → Key n) (kind : V → Prop) (s : St H K V n) :
    Call K V → Prop
  | .insert x => kind x
  | .emplace x => kind x
  | .eraseAt it => ∀ v, Stored s it v → tr.SameFor t v
  | _ => True

/-- **A history of calls on a container that stores a transformer**, with the reference map, whose keys
are those of the stored transformer. -/
inductive StoredHistory [Variant H] (tr : Traits K V n) (t : K → Key n) (kind : V → Prop) :
    St H K V n → Table Byte n V → Prop
  | start {mem : Memory (Cell H V)} {s : St H K V n} (calm : mem.failAt = none)
      (run : init ⟨mem, Tree.uninitialised t⟩ = .ok ⟨⟩ s) : StoredHistory tr t kind s Table.empty
  | call {s s' : St H K V n} {m m' : Table Byte n V} {call : Call K V} {answer : Answer}
      (history : StoredHistory tr t kind s m) (effect : call.Effect (tr.storing t) s m m')
      (respects : call.Respects tr t kind s) (run : perform tr call s = .ok answer s') :
      StoredHistory tr t kind s' m'

/-- **The stored transformer is the one used.** The container does what one of the class with that
default transformer does: in every call that respects the transformers, in `find`, `lower_bound` and
`upper_bound`, and in `++` and `--` at the end and at elements on which the transformers agree. Where they
agree on all elements, an iteration visits these in the order of the stored one. -/
structure UsesStored [Variant H] (tr : Traits K V n) (t : K → Key n) (kind : V → Prop)
    (s : St H K V n) : Prop where
  perform : ∀ call : Call K V, call.Legal s → call.Respects tr t kind s →
    perform tr call s = perform (tr.storing t) call s
  find : ∀ k, find tr k s = find (tr.storing t) k s
  bound : ∀ accept k, bound tr accept k s = bound (tr.storing t) accept k s
  ended : ∀ dir it, IsEnd s it → advance tr dir it s = advance (tr.storing t) dir it s
  advance : ∀ dir it v, Stored s it v → tr.SameFor t v →
    advance tr dir it s = advance (tr.storing t) dir it s
  visits : (∀ it v, Stored s it v → tr.SameFor t v) → ∃ first last its, beginIt s = .ok first s ∧
    IsEnd s last ∧ Spans tr s first last its ∧ (∀ it, it ∈ its ↔ ∃ v, Stored s it v) ∧
    its.Pairwise fun it it' => ∀ v v', Stored s it v → Stored s it' v' →
      t (tr.keyOfValue v) < t (tr.keyOfValue v')

end CppArt
