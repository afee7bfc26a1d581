/-
**A `radix_set` as a sorted set of its keys.**

A value of a `radix_set` is a key, and `detail::Identity` is its key. `SetCall` are the calls of a user;
`SetCall.Does` and `SetCall.Says` say what a call does to a set of keys and what it returns, without the
bytes. The range of `erase(first, last)` is given by two positions, of which the first is not behind the
second.
-/

import CppArt.Model.SortedMap

namespace CppArt

variable {H K : Type} {n : ℕ}

/-- The traits of a `radix_set`: a value is its key. -/
def Traits.set (keyTransform : K → Key n) (defaultKey : K) : Traits K K n where
  defaultTransform := keyTransform
  defaultKey := defaultKey
  keyOfValue := id

/-! ### Calls of a user -/

/-- What a user of a set calls. -/
inductive SetCall (K : Type)
  /-- a member function that forwards to the tree -/
  | tree (call : Call K K)
  /-- `insert(first, last)` and `insert(list)` -/
  | insertRange (xs : List K)
  /-- `set = list` -/
  | assignList (xs : List K)
  /-- `erase(first, last)` -/
  | eraseRange (first last : Addr)
  /-- `count(k)` -/
  | count (k : K)

/-- What these return. -/
inductive SetAnswer
  | tree (answer : Answer)
  | done
  | next (it : Addr)
  | count (count : ℕ)
deriving DecidableEq, Repr

/-- A call of a user is executed. A range has no more than `size()` elements. -/
def performSet [Variant H] (tr : Traits K K n) : SetCall K → Run H K K n SetAnswer
  | .tree c => do
      let answer ← perform tr c
      pure (.tree answer)
  | .insertRange xs => do
      insertEach tr xs
      pure .done
  | .assignList xs => do
      assignUnique tr xs
      pure .done
  | .eraseRange first last => do
      let tree ← this
      let it ← CppArt.eraseRange tr (tree.count + 1) first last
      pure (.next it)
  | .count k => do
      let count ← countOf tr k
      pure (.count count)

/-! ### The reference set -/

/-- **The position of an iterator**: at a key, or at the end. -/
inductive Position (s : St H K K n) (it : Addr) : Option K → Prop
  | element (k : K) (stored : Stored s it k) : Position s it (some k)
  | ended (isEnd : IsEnd s it) : Position s it none

/-- The first position is not behind the second. -/
def NotBehind (less : K → K → Prop) (first last : Option K) : Prop :=
  ∀ b, last = some b → ∃ a, first = some a ∧ ¬ less b a

/-- The keys from a position on. -/
def From (less : K → K → Prop) (first : Option K) : Set K := {k | ∃ a, first = some a ∧ ¬ less k a}

/-- **What a call does to a set of keys.** -/
inductive SetCall.Does (less : K → K → Prop) (s : St H K K n) (σ : Set K) : SetCall K → Set K → Prop
  | insert (k : K) : Does less s σ (.tree (.insert k)) (insert k σ)
  | emplace (k : K) : Does less s σ (.tree (.emplace k)) (insert k σ)
  | erase (k : K) : Does less s σ (.tree (.erase k)) (σ \ {k})
  | eraseAt (it : Addr) (k : K) (stored : Stored s it k) : Does less s σ (.tree (.eraseAt it)) (σ \ {k})
  | clear : Does less s σ (.tree .clear) ∅
  | insertRange (xs : List K) : Does less s σ (.insertRange xs) (σ ∪ {k | k ∈ xs})
  | assignList (xs : List K) : Does less s σ (.assignList xs) {k | k ∈ xs}
  | eraseRange (first last : Addr) (lower upper : Option K) (starts : Position s first lower)
      (ends : Position s last upper) (ordered : NotBehind less lower upper) :
      Does less s σ (.eraseRange first last) (σ \ (From less lower \ From less upper))
  | count (k : K) : Does less s σ (.count k) σ

/-- **What a call returns**, for iterators of the state `s'` after it. -/
inductive SetCall.Says (less : K → K → Prop) (s s' : St H K K n) (σ : Set K) :
    SetCall K → SetAnswer → Prop
  | insert (k : K) (it : Addr) (fresh : Bool) (stored : Stored s' it k) (new : fresh = true ↔ k ∉ σ) :
      Says less s s' σ (.tree (.insert k)) (.tree (.inserted it fresh))
  | emplace (k : K) (it : Addr) (fresh : Bool) (stored : Stored s' it k) (new : fresh = true ↔ k ∉ σ) :
      Says less s s' σ (.tree (.emplace k)) (.tree (.inserted it fresh))
  | erase (k : K) (count : ℕ) (erased : (k ∈ σ ∧ count = 1) ∨ (k ∉ σ ∧ count = 0)) :
      Says less s s' σ (.tree (.erase k)) (.tree (.erased count))
  | eraseAt (it next : Addr) (k : K) (stored : Stored s it k) (upper : Option K)
      (position : Position s' next upper) (follows : σ ∩ {u | less k u} = σ ∩ From less upper) :
      Says less s s' σ (.tree (.eraseAt it)) (.tree (.next next))
  | clear : Says less s s' σ (.tree .clear) (.tree .cleared)
  | insertRange (xs : List K) : Says less s s' σ (.insertRange xs) .done
  | assignList (xs : List K) : Says less s s' σ (.assignList xs) .done
  | eraseRange (first last : Addr) (same : ∀ upper, Position s last upper → Position s' last upper) :
      Says less s s' σ (.eraseRange first last) (.next last)
  | count (k : K) (count : ℕ) (found : (k ∈ σ ∧ count = 1) ∨ (k ∉ σ ∧ count = 0)) :
      Says less s s' σ (.count k) (.count count)

/-- **A history of calls of a user**, with the set of keys. No allocation fails. -/
inductive SetHistory [Variant H] (tr : Traits K K n) (less : K → K → Prop) :
    St H K K n → Set K → Prop
  | start {mem : Memory (Cell H K)} {s : St H K K n} (calm : mem.failAt = none)
      (run : init ⟨mem, Tree.uninitialised tr.defaultTransform⟩ = .ok ⟨⟩ s) : SetHistory tr less s ∅
  | call {s s' : St H K K n} {σ σ' : Set K} {c : SetCall K} {answer : SetAnswer}
      (history : SetHistory tr less s σ) (does : c.Does less s σ σ')
      (run : performSet tr c s = .ok answer s') : SetHistory tr less s' σ'

end CppArt
