/-
**The interface of `radix_map`**, beyond the member functions that forward to the tree.

`operator[]` and `at` return a reference to the mapped value of an element, which is the leaf here; it is
read and overwritten in place. `insert` and the assignment of a list insert the values one after the
other. `MapCall` are the calls of a user, with the reads and writes through references and iterators, and
`MapCall.Effect` and `MapCall.Answered` say what they do to a map and return.
-/

import CppArt.Model.RadixMap

namespace CppArt

variable {H K T V : Type} {n : ℕ} [Variant H]

/-! ### Ranges of values -/

/-- `insert_unique(first, last)`: `for (; first != last; ++first) insert_unique(*first);`. -/
def insertEach (tr : Traits K V n) (xs : List V) : Run H K V n Unit :=
  xs.forM fun x => do
    let _ ← insertUnique tr x

/-- `assign_unique(first, last)`: `clear()`, and then the same loop. -/
def assignUnique (tr : Traits K V n) (xs : List V) : Run H K V n Unit := do
  clear
  insertEach tr xs

/-! ### References to mapped values -/

/-- `it->second`, read. -/
def mappedAt (it : Addr) : Run H K (K × T) n T := do
  let value ← leafValue it
  pure value.2

/-- `it->second = t;` -/
def setMapped (it : Addr) (t : T) : Run H K (K × T) n Unit := do
  let cell ← load it
  match cell.body with
  | .leaf value => store it { cell with body := .leaf (value.1, t) }
  | _ => throw .badCast

/-- `operator[]`, where `mapped` is `mapped_type()`. -/
def subscript (tr : Traits K (K × T) n) (mapped : T) (k : K) : Run H K (K × T) n Addr := do
  let it ← find tr k
  let last ← endIt
  if it ≠ last then pure it
  else do
    let (it, _) ← emplaceUnique tr (k, mapped)
    pure it

/-- `at`, which may throw `std::out_of_range` with a text. -/
def mapAt (tr : Traits K (K × T) n) (k : K) : Run H K (K × T) n (Except String Addr) := do
  let res ← find tr k
  let last ← endIt
  if res = last then pure (.error "radix_map::at") else pure (.ok res)

/-- `count`: `find(k) == end() ? 0 : 1`. It is a `const` member function, so it compiles only for
transformers with a `const` call operator, as those of integers and strings are, but not those of pairs. -/
def countOf (tr : Traits K V n) (k : K) : Run H K V n ℕ := do
  let it ← find tr k
  let last ← endIt
  pure (if it = last then 0 else 1)

/-! ### Calls of a user -/

/-- What a user of a map calls. -/
inductive MapCall (K T : Type)
  /-- a member function that forwards to the tree -/
  | tree (call : Call K (K × T))
  /-- `insert(first, last)` and `insert(list)` -/
  | insertRange (xs : List (K × T))
  /-- `map = list` -/
  | assignList (xs : List (K × T))
  /-- `map[k]`, read -/
  | subscript (k : K)
  /-- `map[k] = t` -/
  | assign (k : K) (t : T)
  /-- `map.at(k)`, read -/
  | readAt (k : K)
  /-- `map.at(k) = t` -/
  | writeAt (k : K) (t : T)
  /-- `it->second = t` -/
  | setMapped (it : Addr) (t : T)
  /-- `map.count(k)` -/
  | count (k : K)

/-- What these return, or the text of the exception. -/
inductive MapAnswer (T : Type)
  | tree (answer : Answer)
  | done
  | mapped (t : T)
  | outOfRange (what : String)
  | count (count : ℕ)
deriving DecidableEq, Repr

/-- A call of a user is executed. -/
def performMap (tr : Traits K (K × T) n) (mapped : T) : MapCall K T → Run H K (K × T) n (MapAnswer T)
  | .tree c => do
      let answer ← perform tr c
      pure (.tree answer)
  | .insertRange xs => do
      insertEach tr xs
      pure .done
  | .assignList xs => do
      assignUnique tr xs
      pure .done
  | .subscript k => do
      let it ← CppArt.subscript tr mapped k
      let t ← mappedAt it
      pure (.mapped t)
  | .assign k t => do
      let it ← CppArt.subscript tr mapped k
      CppArt.setMapped it t
      pure .done
  | .readAt k => do
      match ← mapAt tr k with
      | .error what => pure (.outOfRange what)
      | .ok it => do
          let t ← mappedAt it
          pure (.mapped t)
  | .writeAt k t => do
      match ← mapAt tr k with
      | .error what => pure (.outOfRange what)
      | .ok it => do
          CppArt.setMapped it t
          pure .done
  | .setMapped it t => do
      CppArt.setMapped it t
      pure .done
  | .count k => do
      let count ← countOf tr k
      pure (.count count)

/-! ### The reference map -/

/-- The mapped value of a key is set: an element that is there keeps its key, another one gets `k`. -/
def Table.assignMapped (m : Table Byte n (K × T)) (w : Key n) (k : K) (t : T) : Table Byte n (K × T) :=
  Table.put m w ((m w).elim k Prod.fst, t)

/-- **What a call does to the reference map.** -/
inductive MapCall.Effect (tr : Traits K (K × T) n) (mapped : T) (s : St H K (K × T) n)
    (m : Table Byte n (K × T)) : MapCall K T → Table Byte n (K × T) → Prop
  | tree {c : Call K (K × T)} {m' : Table Byte n (K × T)} (effect : c.Effect tr s m m') :
      Effect tr mapped s m (.tree c) m'
  | insertRange (xs : List (K × T)) : Effect tr mapped s m (.insertRange xs)
      (xs.foldl (fun m x => m.putNew (tr.keyOf x) x) m)
  | assignList (xs : List (K × T)) : Effect tr mapped s m (.assignList xs) (Table.ofList tr xs)
  | subscript (k : K) :
      Effect tr mapped s m (.subscript k) (m.putNew (tr.defaultTransform k) (k, mapped))
  | assign (k : K) (t : T) :
      Effect tr mapped s m (.assign k t) (m.assignMapped (tr.defaultTransform k) k t)
  | readAt (k : K) : Effect tr mapped s m (.readAt k) m
  | writeAt (k : K) (t : T) : Effect tr mapped s m (.writeAt k t)
      ((m (tr.defaultTransform k)).elim m fun _ => m.assignMapped (tr.defaultTransform k) k t)
  | setMapped (it : Addr) (t : T) (v : K × T) (stored : Stored s it v) :
      Effect tr mapped s m (.setMapped it t) (Table.put m (tr.keyOf v) (v.1, t))
  | count (k : K) : Effect tr mapped s m (.count k) m

/-- **What the reference map returns.** -/
inductive MapCall.Answered (tr : Traits K (K × T) n) (mapped : T) (s s' : St H K (K × T) n)
    (m : Table Byte n (K × T)) : MapCall K T → MapAnswer T → Prop
  | tree {c : Call K (K × T)} {answer : Answer} (answered : c.Answered tr s s' m answer) :
      Answered tr mapped s s' m (.tree c) (.tree answer)
  | insertRange (xs : List (K × T)) : Answered tr mapped s s' m (.insertRange xs) .done
  | assignList (xs : List (K × T)) : Answered tr mapped s s' m (.assignList xs) .done
  | subscript (k : K) : Answered tr mapped s s' m (.subscript k)
      (.mapped ((m (tr.defaultTransform k)).elim mapped Prod.snd))
  | assign (k : K) (t : T) : Answered tr mapped s s' m (.assign k t) .done
  | readAt (k : K) : Answered tr mapped s s' m (.readAt k)
      ((m (tr.defaultTransform k)).elim (.outOfRange "radix_map::at") fun x => .mapped x.2)
  | writeAt (k : K) (t : T) : Answered tr mapped s s' m (.writeAt k t)
      ((m (tr.defaultTransform k)).elim (.outOfRange "radix_map::at") fun _ => .done)
  | setMapped (it : Addr) (t : T) : Answered tr mapped s s' m (.setMapped it t) .done
  | count (k : K) : Answered tr mapped s s' m (.count k)
      (.count (if m (tr.defaultTransform k) = none then 0 else 1))

/-- **A history of calls of a user** on a map that starts empty, with the reference map. No allocation
fails. -/
inductive MapHistory (tr : Traits K (K × T) n) (mapped : T) :
    St H K (K × T) n → Table Byte n (K × T) → Prop
  | start {mem : Memory (Cell H (K × T))} {s : St H K (K × T) n} (calm : mem.failAt = none)
      (run : init ⟨mem, Tree.uninitialised tr.defaultTransform⟩ = .ok ⟨⟩ s) :
      MapHistory tr mapped s Table.empty
  | call {s s' : St H K (K × T) n} {m m' : Table Byte n (K × T)} {c : MapCall K T}
      {answer : MapAnswer T} (history : MapHistory tr mapped s m) (effect : c.Effect tr mapped s m m')
      (run : performMap tr mapped c s = .ok answer s') : MapHistory tr mapped s' m'

end CppArt
