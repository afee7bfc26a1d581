/-
**Both containers refine a finite map.**

A history carries the reference map of the calls it is made of. `Refines` says that the container of a
history cannot be told from this map: it has the same elements and the same size, `find` returns the
leaf of the key or the end, and every legal call returns what the reference map returns.

* `History.started`, `Holds.refines`, `History.refines`: for any variant that satisfies the laws;
* `arTree_refines_map`, `arPrefixTree_refines_map`: for the two containers;
* `insertAll_history`: the history in which the values of a list are inserted.
-/

import CppArt.Proof.ArPrefixTree
import CppArt.Proof.ArTree
import CppArt.Proof.History

namespace CppArt

open Table

variable {H K V : Type} {n : ℕ}

/-- **The container answers as the reference map does.** -/
structure Refines [Variant H] (tr : Traits K V n) (s : St H K V n) (m : Table Byte n V) : Prop where
  represents : Represents tr s m
  size : s.tree.count = size m
  find : ∀ k, ∃ it, find tr k s = .ok it s ∧
    (IsEnd s it ↔ m (tr.defaultTransform k) = none) ∧
    ∀ v, m (tr.defaultTransform k) = some v → Stored s it v
  perform : ∀ call m', call.Effect tr s m m' → ∃ answer s', perform tr call s = .ok answer s' ∧
    call.Answered tr s s' m answer

section Generic

variable [Variant H] [HeaderSpec H] [LawfulVariant H] {tr : Traits K V n}

omit [LawfulVariant H] in
/-- **The constructor** returns an empty container. -/
theorem History.started (tr : Traits K V n) {mem : Memory (Cell H V)} (calm : mem.failAt = none) :
    ∃ s, init ⟨mem, Tree.uninitialised tr.defaultTransform⟩ = .ok ⟨⟩ s ∧
      History tr s Table.empty := by
  obtain ⟨s, run, -⟩ := init_spec tr calm (Tree.uninitialised tr.defaultTransform) rfl
  exact ⟨s, run, .start calm run⟩

/-- **A container that represents a table** answers as the map of its values does. -/
theorem Holds.refines (admits : Admits H n) {s : St H K V n} {e : Addr} {M : Contents n V}
    {own : Set Addr} (holds : Holds tr s e M own) : Refines tr s (values M) := by
  refine ⟨holds.represents, holds.count.trans (size_values M).symm, fun k => ?_,
    fun call m' effect => ?_⟩
  · rcases entry : M (tr.defaultTransform k) with _ | ⟨it, v⟩
    · have run : CppArt.find tr k s = .ok e s := by rw [find_spec holds, entry]; rfl
      refine ⟨e, run, iff_of_true (holds.isEnd_iff.mpr rfl) (values_eq_none.mpr entry), fun v some => ?_⟩
      rw [values_eq_none.mpr entry] at some
      cases some
    · have run : CppArt.find tr k s = .ok it s := by rw [find_spec holds, entry]; rfl
      have value : values M (tr.defaultTransform k) = some v := values_eq_some.mpr ⟨it, entry⟩
      have stored : Stored s it v := (holds.stored_of_entry entry).1
      refine ⟨it, run, iff_of_false (holds.ne_end stored) (by rw [value]; exact Option.some_ne_none v),
        fun v' some => ?_⟩
      rw [value, Option.some.injEq] at some
      exact some ▸ stored
  · obtain ⟨answer, s', M', own', run, -, -, -, answered, -⟩ := perform_spec admits holds effect
    exact ⟨answer, s', run, answered⟩

/-- **After every history** the container answers as the reference map does. -/
theorem History.refines (admits : Admits H n) {s : St H K V n} {m : Table Byte n V}
    (history : History tr s m) : Refines tr s m := by
  obtain ⟨e, M, own, holds, rfl⟩ := history.holds admits
  exact holds.refines admits

/-- **The values of a list are inserted.** -/
theorem insertAll_history (admits : Admits H n) (tr : Traits K V n) (xs : List V) :
    ∃ s, insertAll tr xs (blankState H tr) = .ok ⟨⟩ s ∧ History tr s (Table.ofList tr xs) := by
  obtain ⟨s₀, founded, history₀⟩ :=
    History.started tr (rfl : (Memory.blank : Memory (Cell H V)).failAt = none)
  have inserts : ∀ (xs : List V) {s : St H K V n} {m : Table Byte n V}, History tr s m →
      ∃ s', (xs.forM fun x => do let _ ← insertUnique tr x : Run H K V n Unit) s = .ok ⟨⟩ s' ∧
        History tr s' (xs.foldl (fun m x => m.putNew (tr.keyOf x) x) m) := by
    intro xs
    induction xs with
    | nil =>
        intro s m history
        exact ⟨s, rfl, history⟩
    | cons x xs ih =>
        intro s m history
        obtain ⟨answer, s₁, run, -⟩ := (history.refines admits).perform _ _ (.insert x)
        obtain ⟨pair, t, inserted, finish⟩ := Exec.bind_eq_ok.mp run
        obtain ⟨s', rest, history'⟩ := ih (history.call (.insert x) run)
        cases finish
        refine ⟨s', ?_, history'⟩
        have first : (do let _ ← insertUnique tr x : Run H K V n Unit) s = .ok ⟨⟩ s₁ :=
          Exec.bind_of_ok inserted _
        exact (Exec.bind_of_ok first _).trans rest
  obtain ⟨s, run, history⟩ := inserts xs history₀
  exact ⟨s, (Exec.bind_of_ok founded _).trans run, history⟩

end Generic

/-! ### The two containers -/

/-- **`ar_tree` refines a finite map**, for keys of every size. -/
theorem arTree_refines_map (tr : Traits K V n) :
    (∀ mem : Memory (Cell DepthHeader V), mem.failAt = none →
      ∃ s, init ⟨mem, Tree.uninitialised tr.defaultTransform⟩ = .ok ⟨⟩ s ∧
        History tr s Table.empty) ∧
    ∀ (s : ArTree.State K V n) (m : Table Byte n V), History tr s m → Refines tr s m :=
  ⟨fun _ calm => History.started tr calm, fun _ _ history => history.refines trivial⟩

/-- Two keys with the same first byte in an `ar_tree`. -/
theorem arTree_refines_map_pair :
    ∃ s, insertAll (Traits.identity 2) [⟨#v[1, 2]⟩, ⟨#v[1, 3]⟩]
        (blankState DepthHeader (Traits.identity 2)) = .ok ⟨⟩ s ∧
      Refines (Traits.identity 2) s (Table.ofList (Traits.identity 2) [⟨#v[1, 2]⟩, ⟨#v[1, 3]⟩]) := by
  obtain ⟨s, run, history⟩ := insertAll_history (H := DepthHeader) trivial (Traits.identity 2)
    [⟨#v[1, 2]⟩, ⟨#v[1, 3]⟩]
  exact ⟨s, run, (arTree_refines_map (Traits.identity 2)).2 s _ history⟩

/-- **`ar_prefix_tree` refines a finite map**, for keys whose prefix lengths fit `_prefix_length`. -/
theorem arPrefixTree_refines_map (fits : n ≤ 65536) (tr : Traits K V n) :
    (∀ mem : Memory (Cell PrefixHeader V), mem.failAt = none →
      ∃ s, init ⟨mem, Tree.uninitialised tr.defaultTransform⟩ = .ok ⟨⟩ s ∧
        History tr s Table.empty) ∧
    ∀ (s : ArPrefixTree.State K V n) (m : Table Byte n V), History tr s m → Refines tr s m :=
  ⟨fun _ calm => History.started tr calm, fun _ _ history => history.refines fits⟩

/-- Two keys with the same first byte in an `ar_prefix_tree`. -/
theorem arPrefixTree_refines_map_pair :
    ∃ s, insertAll (Traits.identity 2) [⟨#v[1, 2]⟩, ⟨#v[1, 3]⟩]
        (blankState PrefixHeader (Traits.identity 2)) = .ok ⟨⟩ s ∧
      Refines (Traits.identity 2) s (Table.ofList (Traits.identity 2) [⟨#v[1, 2]⟩, ⟨#v[1, 3]⟩]) := by
  have fits : 2 ≤ 65536 := by decide
  obtain ⟨s, run, history⟩ := insertAll_history (H := PrefixHeader) fits (Traits.identity 2)
    [⟨#v[1, 2]⟩, ⟨#v[1, 3]⟩]
  exact ⟨s, run, (arPrefixTree_refines_map fits (Traits.identity 2)).2 s _ history⟩

end CppArt
