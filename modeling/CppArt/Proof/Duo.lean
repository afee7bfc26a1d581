/-
**Two containers in one memory do not disturb each other.**

`Together`: each of two containers represents a table, and no address belongs to both. A call on one of
them changes addresses of its own and takes new ones, so the other is as it was (`Together.first`).

* `Interleaved.together`: the invariant along any run of calls on either;
* `Coexist.together`: the invariant for two containers that have been constructed and used since.
-/

import CppArt.Model.Duo
import CppArt.Proof.Refinement

namespace CppArt

open Table

variable {H K V : Type} {n : ℕ} [Variant H] [HeaderSpec H] {tr : Traits K V n} {d : Duo H K V n}
  {m m' : Table Byte n V}

/-- **Two containers that share no address**, with the maps they represent. -/
def Together (tr : Traits K V n) (d : Duo H K V n) (m m' : Table Byte n V) : Prop :=
  ∃ e M own e' M' own', Holds tr d.first e M own ∧ Holds tr d.second e' M' own' ∧
    Disjoint own own' ∧ values M = m ∧ values M' = m'

theorem Together.swap (both : Together tr d m m') : Together tr ⟨d.mem, d.right, d.left⟩ m' m := by
  obtain ⟨e, M, own, e', M', own', holds, holds', apart, same, same'⟩ := both
  exact ⟨e', M', own', e, M, own, holds', holds, apart.symm, same', same⟩

omit [Variant H] in
/-- Every address of a container is allocated. -/
theorem Holds.lt_next [Header H] [HeaderSpec H] {s : St H K V n} {e x : Addr} {M : Contents n V}
    {own : Set Addr} (holds : Holds tr s e M own) (inside : x ∈ own) : x < s.mem.next :=
  holds.whole.lt_next inside

omit [Variant H] in
/-- **A container is as it was** after a computation that owns none of its addresses. -/
theorem Holds.frame_keeps [Header H] [HeaderSpec H] {mem mem' : Memory (Cell H V)} {tree : Tree K n}
    {e : Addr} {M : Contents n V} {own other : Set Addr} (holds : Holds tr ⟨mem, tree⟩ e M own)
    (keeps : Memory.Keeps mem mem' other) (apart : Disjoint other own) : Holds tr ⟨mem', tree⟩ e M own :=
  holds.frame (keeps.same apart fun _ inside => holds.lt_next inside) keeps.failAt

variable [LawfulVariant H]

/-- **A call on the first container** leaves the second as it was. -/
theorem Together.first (admits : Admits H n) (both : Together tr d m m') {call : Call K V}
    {answer : Answer} {m₁ : Table Byte n V} {s : St H K V n} (effect : call.Effect tr d.first m m₁)
    (run : perform tr call d.first = .ok answer s) : Together tr ⟨s.mem, s.tree, d.right⟩ m₁ m' := by
  obtain ⟨e, M, own, e', M', own', holds, holds', apart, rfl, same'⟩ := both
  obtain ⟨answer₁, s₁, M₁, own₁, run₁, holds₁, moves, same₁, -⟩ := perform_spec admits holds effect
  rw [run] at run₁
  cases run₁
  exact ⟨e, M₁, own₁, e', M', own', holds₁, holds'.frame_keeps moves.keeps apart,
    moves.renews.disjoint apart fun x inside => holds'.lt_next inside, same₁, same'⟩

/-- **Calls on either container** keep the invariant of both. -/
theorem Interleaved.together (admits : Admits H n) {d₀ : Duo H K V n} {m₀ m₀' : Table Byte n V}
    (start : Together tr d₀ m₀ m₀') (run : Interleaved tr d₀ m₀ m₀' d m m') : Together tr d m m' := by
  induction run with
  | refl => exact start
  | first before effect run ih => exact ih.first admits effect run
  | second before effect run ih => exact (ih.swap.first admits effect run).swap

/-- **Two containers that have been constructed** and used since share no address. -/
theorem Coexist.together (admits : Admits H n) (coexist : Coexist tr d m m') : Together tr d m m' := by
  obtain ⟨s, s', m₀, history, run, interleaved⟩ := coexist
  obtain ⟨e, M, own, holds, rfl⟩ := history.holds admits
  obtain ⟨s₁, run₁, holds', keeps, -⟩ := init_spec tr holds.calm
    (Tree.uninitialised tr.defaultTransform) rfl
  rw [run] at run₁
  cases run₁
  have older : Holds tr ⟨s'.mem, s.tree⟩ e M own := holds.frame_keeps keeps (Set.empty_disjoint _)
  have start : Together tr ⟨s'.mem, s.tree, s'.tree⟩ (values M) Table.empty := by
    refine ⟨_, _, _, _, _, _, older, holds', ?_, rfl, rfl⟩
    refine Set.disjoint_left.mpr fun x inside inside' => ?_
    have old := holds.lt_next inside
    rcases inside' with rfl | rfl
    · exact absurd old (lt_irrefl _)
    · exact absurd old Nat.not_succ_lt_self
  rcases interleaved with forwards | backwards
  · exact forwards.together admits start
  · exact backwards.together admits start.swap

/-- A value is inserted into the first of two containers. -/
theorem Coexist.exists_insert (admits : Admits H n) (coexist : Coexist tr d m m') (x : V) :
    ∃ d' : Duo H K V n, Coexist tr d' (m.putNew (tr.keyOf x) x) m' := by
  obtain ⟨e, M, own, e', M', own', holds, -, -, rfl, -⟩ := coexist.together admits
  have effect : (Call.insert x : Call K V).Effect tr d.first (values M) _ := .insert x
  obtain ⟨answer, s, -, -, run, -⟩ := perform_spec admits holds effect
  obtain ⟨t, t', m₀, history, founded, interleaved⟩ := coexist
  refine ⟨⟨s.mem, s.tree, d.right⟩, t, t', m₀, history, founded, ?_⟩
  rcases interleaved with forwards | backwards
  · exact .inl (forwards.first effect run)
  · exact .inr (backwards.first effect run)

/-- **Two containers made of given values**, of which the second is the older one. -/
theorem exists_coexist (admits : Admits H n) (tr : Traits K V n) (xs ys : List V) :
    ∃ d : Duo H K V n, Coexist tr d (Table.ofList tr xs) (Table.ofList tr ys) := by
  have inserts : ∀ (xs : List V) {d : Duo H K V n} {m m' : Table Byte n V}, Coexist tr d m m' →
      ∃ d' : Duo H K V n, Coexist tr d' (xs.foldl (fun m x => m.putNew (tr.keyOf x) x) m) m' := by
    intro xs
    induction xs with
    | nil => exact fun coexist => ⟨_, coexist⟩
    | cons x xs ih =>
        intro d m m' coexist
        obtain ⟨d₁, coexist₁⟩ := coexist.exists_insert admits x
        exact ih coexist₁
  obtain ⟨s, -, history⟩ := insertAll_history (H := H) admits tr ys
  obtain ⟨e, M, own, holds, -⟩ := history.holds admits
  obtain ⟨s', run, -⟩ := init_spec tr holds.calm (Tree.uninitialised tr.defaultTransform) rfl
  exact inserts xs ⟨s, s', _, history, run, .inr .refl⟩

end CppArt
