/-
**What a user sees of the two trees.**

`Lockstep` are the states after the same calls on an `ar_tree` and an `ar_prefix_tree`. Here are the
answers that count as the same: equal flags and counts, and iterators at the same place.
-/

import CppArt.Model.Compression
import CppArt.Model.Relocation

namespace CppArt

variable {K V : Type} {n : ℕ}

/-- **Iterators at the same place**: elements with the same value, or the end. -/
inductive SamePlace (s : ArTree.State K V n) (s' : ArPrefixTree.State K V n) (it it' : Addr) : Prop
  | element (v : V) (stored : Stored s it v) (stored' : Stored s' it' v)
  | last (ends : IsEnd s it) (ends' : IsEnd s' it')

/-- **The same answers** of a call, for iterators of the states after it. -/
inductive SameReply (s : ArTree.State K V n) (s' : ArPrefixTree.State K V n) : Answer → Answer → Prop
  | inserted (it it' : Addr) (fresh : Bool) (place : SamePlace s s' it it') :
      SameReply s s' (.inserted it fresh) (.inserted it' fresh)
  | erased (count : ℕ) : SameReply s s' (.erased count) (.erased count)
  | next (it it' : Addr) (place : SamePlace s s' it it') : SameReply s s' (.next it) (.next it')
  | cleared : SameReply s s' .cleared .cleared

/-- **The same lookup** on both trees: `find`, `begin`, `end`, and a step of an iterator. A step back is
from the end of a container that is not empty, or from an element that is not the first. -/
inductive SameLookup (tr : Traits K V n) (s : ArTree.State K V n) (s' : ArPrefixTree.State K V n) :
    Lookup K → Lookup K → Prop
  | find (k : K) : SameLookup tr s s' (.find k) (.find k)
  | first : SameLookup tr s s' .first .first
  | last : SameLookup tr s s' .last .last
  | next (it it' : Addr) (place : SamePlace s s' it it') :
      SameLookup tr s s' (.advance .up it) (.advance .up it')
  | back (it it' it₀ : Addr) (v v₀ : V) (stored : Stored s it v) (stored' : Stored s' it' v)
      (before : Stored s it₀ v₀) (less : tr.keyOf v₀ < tr.keyOf v) :
      SameLookup tr s s' (.advance .down it) (.advance .down it')
  | final (it it' it₀ : Addr) (v₀ : V) (ends : IsEnd s it) (ends' : IsEnd s' it') (some : Stored s it₀ v₀) :
      SameLookup tr s s' (.advance .down it) (.advance .down it')

/-- The keys of the elements of a container. -/
def storedKeys {H : Type} (tr : Traits K V n) (s : St H K V n) : Set (Key n) :=
  {w | ∃ it v, Stored s it v ∧ tr.keyOf v = w}

/-- **The same bound**, or one of the two ways in which bounds go wrong: with a single element both trees
may dereference a null pointer, and the `ar_prefix_tree` may return the end for a key that is `gone`. -/
inductive SameBound (tr : Traits K V n) (accept : Ordering → Bool) (k : K) (s : ArTree.State K V n)
    (s' : ArPrefixTree.State K V n) (gone : Prop) : Prop
  | place (it it' : Addr) (run : bound tr accept k s = .ok it s) (run' : bound tr accept k s' = .ok it' s')
      (place : SamePlace s s' it it')
  | failed (run : bound tr accept k s = .error .nullPointer s)
      (run' : bound tr accept k s' = .error .nullPointer s') (single : ∃ w, storedKeys tr s = {w})
  | ended (it it' : Addr) (run : bound tr accept k s = .ok it s)
      (run' : bound tr accept k s' = .ok it' s') (ends' : IsEnd s' it') (gone : gone)

end CppArt
