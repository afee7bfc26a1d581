/-
**How many rounds the loops take.**

The loops over `depth` end after `sizeof(transformed_key) + 1` rounds at the latest. `EndsWithin` says
that they end earlier: with that number of rounds they do what they do with all of them.
-/

import CppArt.Model.History

namespace CppArt

variable {H K V : Type} {n : ℕ}

/-- **The loops of a container end within a number of rounds**, for every key. The loop of `erase_unique`
does not visit the leaf, and takes one round less. -/
structure EndsWithin [Variant H] (tr : Traits K V n) (s : St H K V n) (rounds : ℕ) : Prop where
  find : ∀ r k steps, s.tree.root = some r → rounds ≤ steps →
    findLoop tr (s.tree.keyTransform k) steps 0 (some r) s = find tr k s
  bound : ∀ r accept k steps, s.tree.root = some r → rounds ≤ steps →
    boundLoop tr accept (s.tree.keyTransform k) steps 0 (some r) none s = bound tr accept k s
  erase : ∀ r k steps, s.tree.root = some r → isLeaf r s = .ok false s → rounds ≤ steps + 1 →
    eraseLoop tr (s.tree.keyTransform k) steps 0 r s = eraseUnique tr k s
  insert : ∀ r x steps, s.tree.root = some r → rounds ≤ steps → ∀ {α : Type} (limit : ℕ)
    (duplicate : Addr → Run H K V n α) (place : Addr → ℤ → Run H K V n α) (previous : Addr),
    insertLoop tr limit (s.tree.keyTransform (tr.keyOfValue x)) duplicate place steps 0 (some r) previous s
      = insertLoop tr limit (s.tree.keyTransform (tr.keyOfValue x)) duplicate place (n + 1) 0 (some r)
          previous s

end CppArt
