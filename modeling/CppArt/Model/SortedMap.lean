/-
**A `radix_map` as a sorted map of its keys.**

The keys are those of the user: integers, pairs of them, or strings, in their own order. `MapCall.Does` and
`MapCall.Says` say what a call does to a map of these keys and what it returns, without the bytes.
-/

import CppArt.Lib.Spelling
import CppArt.Model.Interface
import CppArt.Model.KeyTransform

namespace CppArt

variable {H K T : Type} {n : ℕ}

/-! ### Keys -/

/-- Keys can be compared. -/
def KeyType.decidableEq : (t : KeyType) → DecidableEq t.Value
  | .int t => inferInstanceAs (DecidableEq (BitVec t.bits))
  | .pair first second =>
      have := first.decidableEq
      have := second.decidableEq
      inferInstanceAs (DecidableEq (first.Value × second.Value))

instance (t : KeyType) : DecidableEq t.Value := t.decidableEq

/-- The traits of a `radix_map` over a key type with its default transformer. -/
def Traits.keyed (host : Host) (t : KeyType) (T : Type) (defaultKey : t.Value) :
    Traits t.Value (t.Value × T) t.size :=
  Traits.map (fun key => ⟨t.keyBytes host key⟩) defaultKey

/-- A string that `key_transform` of strings is made for: shorter than the array, and with no NUL. -/
structure StringKey.CString (maxSize : ℕ) where
  bytes : List Byte
  short : bytes.length < maxSize
  plain : 0 ∉ bytes
deriving DecidableEq

/-- The transformed string. It is an array, since the string is short. -/
def StringKey.CString.transformed {maxSize : ℕ} (key : CString maxSize) : Vector Byte maxSize :=
  (keyTransform maxSize key.bytes).toOption.getD (Vector.replicate maxSize 0)

/-- The traits of a `radix_map` over such strings. -/
def Traits.strings (maxSize : ℕ) (T : Type) (defaultKey : StringKey.CString maxSize) :
    Traits (StringKey.CString maxSize) (StringKey.CString maxSize × T) maxSize :=
  Traits.map (fun key => ⟨key.transformed⟩) defaultKey

/-! ### Calls -/

/-- Whether the call operator of `key_transform` is `const`. That of pairs is not. -/
def KeyType.constTransform : KeyType → Bool
  | .int _ => true
  | .pair _ _ => false

/-- **The calls that compile** for a key type. `count` is a `const` member function and calls the
transformer of a `const` tree. -/
def MapCall.Compiles (t : KeyType) : MapCall t.Value T → Prop
  | .count _ => t.constTransform = true
  | _ => True

/-- **What a call does to a map of keys.** -/
inductive MapCall.Does [DecidableEq K] (mapped : T) (s : St H K (K × T) n) (f : KeyMap K T) :
    MapCall K T → KeyMap K T → Prop
  | insert (entry : K × T) : Does mapped s f (.tree (.insert entry)) (f.insert entry)
  | emplace (entry : K × T) : Does mapped s f (.tree (.emplace entry)) (f.insert entry)
  | erase (k : K) : Does mapped s f (.tree (.erase k)) (Function.update f k none)
  | eraseAt (it : Addr) (k : K) (t : T) (stored : Stored s it (k, t)) :
      Does mapped s f (.tree (.eraseAt it)) (Function.update f k none)
  | clear : Does mapped s f (.tree .clear) fun _ => none
  | insertRange (xs : List (K × T)) : Does mapped s f (.insertRange xs) (xs.foldl KeyMap.insert f)
  | assignList (xs : List (K × T)) :
      Does mapped s f (.assignList xs) (xs.foldl KeyMap.insert fun _ => none)
  | subscript (k : K) : Does mapped s f (.subscript k) (f.insert (k, mapped))
  | assign (k : K) (t : T) : Does mapped s f (.assign k t) (Function.update f k (some t))
  | readAt (k : K) : Does mapped s f (.readAt k) f
  | writeAt (k : K) (t : T) : Does mapped s f (.writeAt k t)
      (if f k = none then f else Function.update f k (some t))
  | setMapped (it : Addr) (k : K) (t t' : T) (stored : Stored s it (k, t)) :
      Does mapped s f (.setMapped it t') (Function.update f k (some t'))
  | count (k : K) : Does mapped s f (.count k) f

/-- **The iterator points to the key that follows**, or to the end. -/
def Succeeds (less : K → K → Prop) (s : St H K (K × T) n) (f : KeyMap K T) (k : K) (it : Addr) : Prop :=
  (∃ u t, Stored s it (u, t) ∧ less k u ∧ ∀ w, f w ≠ none → less k w → w = u ∨ less u w) ∨
    ((∀ w, f w ≠ none → ¬ less k w) ∧ IsEnd s it)

/-- **What a call returns**, for iterators of the state `s'` after it. -/
inductive MapCall.Says (less : K → K → Prop) (mapped : T) (s s' : St H K (K × T) n) (f : KeyMap K T) :
    MapCall K T → MapAnswer T → Prop
  | insert (k : K) (x t : T) (it : Addr) (fresh : Bool) (stored : Stored s' it (k, t))
      (new : fresh = true ↔ f k = none) :
      Says less mapped s s' f (.tree (.insert (k, x))) (.tree (.inserted it fresh))
  | emplace (k : K) (x t : T) (it : Addr) (fresh : Bool) (stored : Stored s' it (k, t))
      (new : fresh = true ↔ f k = none) :
      Says less mapped s s' f (.tree (.emplace (k, x))) (.tree (.inserted it fresh))
  | erase (k : K) :
      Says less mapped s s' f (.tree (.erase k)) (.tree (.erased (if f k = none then 0 else 1)))
  | eraseAt (it next : Addr) (k : K) (t : T) (stored : Stored s it (k, t))
      (follows : Succeeds less s' f k next) :
      Says less mapped s s' f (.tree (.eraseAt it)) (.tree (.next next))
  | clear : Says less mapped s s' f (.tree .clear) (.tree .cleared)
  | insertRange (xs : List (K × T)) : Says less mapped s s' f (.insertRange xs) .done
  | assignList (xs : List (K × T)) : Says less mapped s s' f (.assignList xs) .done
  | subscript (k : K) : Says less mapped s s' f (.subscript k) (.mapped ((f k).getD mapped))
  | assign (k : K) (t : T) : Says less mapped s s' f (.assign k t) .done
  | readAt (k : K) :
      Says less mapped s s' f (.readAt k) ((f k).elim (.outOfRange "radix_map::at") .mapped)
  | writeAt (k : K) (t : T) : Says less mapped s s' f (.writeAt k t)
      ((f k).elim (.outOfRange "radix_map::at") fun _ => .done)
  | setMapped (it : Addr) (t : T) : Says less mapped s s' f (.setMapped it t) .done
  | count (k : K) : Says less mapped s s' f (.count k) (.count (if f k = none then 0 else 1))

/-- **A history of calls of a user**, of those that compile, with the map of keys. No allocation fails. -/
inductive KeyHistory [Variant H] [DecidableEq K] (tr : Traits K (K × T) n) (mapped : T)
    (compiles : MapCall K T → Prop) : St H K (K × T) n → KeyMap K T → Prop
  | start {mem : Memory (Cell H (K × T))} {s : St H K (K × T) n} (calm : mem.failAt = none)
      (run : init ⟨mem, Tree.uninitialised tr.defaultTransform⟩ = .ok ⟨⟩ s) :
      KeyHistory tr mapped compiles s fun _ => none
  | call {s s' : St H K (K × T) n} {f f' : KeyMap K T} {c : MapCall K T} {answer : MapAnswer T}
      (history : KeyHistory tr mapped compiles s f) (possible : compiles c) (does : c.Does mapped s f f')
      (run : performMap tr mapped c s = .ok answer s') : KeyHistory tr mapped compiles s' f'

end CppArt
