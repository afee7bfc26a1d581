/-
**Iteration is complete, ordered and reversible.**

`Iterates tr s its`: the iterators `its` are those of the elements of the tree in ascending order of
their keys; `++` leads from `begin` through all of them to `end` and `--` from `end` back to `begin`;
between two elements `++` and `--` undo each other.

* `walk_spec`: a walk from a stored key follows the list of the keys beyond it, by induction on the list;
* `History.iterates`: iteration after every history.
-/

import CppArt.Proof.Overflow

namespace CppArt

open Table

variable {H K V : Type} {n : ℕ}

/-- **The iterators `its` are what an iteration over the container visits.** -/
structure Iterates [Header H] (tr : Traits K V n) (s : St H K V n) (its : List Addr) : Prop where
  complete : ∀ it, it ∈ its ↔ ∃ v, Stored s it v
  ascending : its.Pairwise fun it it' =>
    ∀ v v', Stored s it v → Stored s it' v' → tr.keyOf v < tr.keyOf v'
  length : its.length = s.tree.count
  forward : ∃ first last, beginIt s = .ok first s ∧ IsEnd s last ∧ Spans tr s first last its
  backward : its ≠ [] → ∃ last, IsEnd s last ∧ walk tr .down its.length last s = .ok its.reverse s
  back : ∀ it v, Stored s it v → (∃ it' v', Stored s it' v' ∧ tr.keyOf v < tr.keyOf v') →
    ∃ next, increment tr it s = .ok next s ∧ decrement tr next s = .ok it s
  forth : ∀ it v, Stored s it v → (∃ it' v', Stored s it' v' ∧ tr.keyOf v' < tr.keyOf v) →
    ∃ next, decrement tr it s = .ok next s ∧ increment tr next s = .ok it s

/-- The leaf of a stored key. -/
def leafAt (M : Contents n V) (k : Key n) : Addr := (M k).elim 0 Prod.fst

theorem leafAt_of_entry {M : Contents n V} {k : Key n} {it : Addr} {v : V}
    (entry : M k = some (it, v)) : leafAt M k = it := by
  rw [leafAt, entry]
  rfl

section Walks

variable [Header H] [HeaderSpec H] {tr : Traits K V n} {s : St H K V n} {e : Addr} {M : Contents n V}
  {own : Set Addr}

/-- **A walk** over the keys beyond a stored one visits their leaves. -/
theorem walk_spec (holds : Holds tr s e M own) (dir : Dir) (ks : List (Key n)) :
    ∀ {k : Key n} {it : Addr} {v : V}, M k = some (it, v) →
      dir.Lists {u | u ∈ dom M ∧ dir.before k u} ks →
      ∃ k' it' v', M k' = some (it', v') ∧ (∀ u ∈ dom M, ¬ dir.before k' u) ∧
        ∀ t, walk tr dir (ks.length + t) it s
          = (do let rest ← walk tr dir t it'; pure (ks.map (leafAt M) ++ rest)) s := by
  induction ks with
  | nil =>
      intro k it v stored lists
      refine ⟨k, it, v, stored, fun u member side => ?_, fun t => ?_⟩
      · have inside : u ∈ {u | u ∈ dom M ∧ dir.before k u} := ⟨member, side⟩
        rw [lists.eq_nil] at inside
        exact inside
      · simp
  | cons x ks ih =>
      intro k it v stored lists
      have first := lists.isFirst
      rcases advance_spec holds stored dir with ⟨w, it₁, v₁, run, entry, nearest⟩ | ⟨none, -⟩
      · obtain rfl : w = x := nearest.unique first
        have beyond : {y | y ∈ {u | u ∈ dom M ∧ dir.before k u} ∧ dir.before w y}
            = {u | u ∈ dom M ∧ dir.before w u} := by
          ext u
          refine ⟨fun inside => ⟨inside.1.1, inside.2⟩, fun inside => ⟨⟨inside.1, ?_⟩, inside.2⟩⟩
          exact Dir.before_trans first.1.2 inside.2
        obtain ⟨k', it', v', stored', last, rest⟩ := ih entry (beyond ▸ lists.tail)
        refine ⟨k', it', v', stored', last, fun t => ?_⟩
        have longer : (w :: ks).length + t = (ks.length + t) + 1 := by
          rw [List.length_cons]
          omega
        rw [longer, walk, Exec.bind_of_ok run, Exec.bind_congr_left (rest t)]
        simp [leafAt_of_entry entry]
      · exact absurd first.1.2 (none x first.1.1)

/-- `++` from the last element leads to the end. -/
theorem advance_last (holds : Holds tr s e M own) {k : Key n} {it : Addr} {v : V}
    (stored : M k = some (it, v)) (last : ∀ u ∈ dom M, ¬ Dir.up.before k u) :
    advance tr .up it s = .ok e s := by
  rcases advance_spec holds stored .up with ⟨w, it', v', run, entry, first⟩ | ⟨-, run⟩
  · exact absurd first.1.2 (last w first.1.1)
  · exact run rfl

/-- `++` from `begin` visits every element and ends at `end`. -/
theorem walk_forward (holds : Holds tr s e M own) {ks : List (Key n)} (lists : Dir.up.Lists (dom M) ks) :
    ∃ first rest, beginIt s = .ok first s ∧ walk tr .up ks.length first s = .ok rest s ∧
      first :: rest = ks.map (leafAt M) ++ [e] := by
  rcases beginIt_spec holds with ⟨rfl, run⟩ | ⟨w, it, v, run, entry, first⟩
  · have none : ks = [] := by
      rw [List.eq_nil_iff_forall_not_mem]
      intro x listed
      exact (lists.mem_iff x).mp listed rfl
    exact ⟨e, [], run, by rw [none]; rfl, by rw [none]; rfl⟩
  · cases ks with
    | nil => exact absurd ((lists.mem_iff w).mpr first.1) List.not_mem_nil
    | cons x ks =>
        obtain rfl : w = x := first.unique lists.isFirst
        obtain ⟨k', it', v', stored', last, rest⟩ := walk_spec holds .up ks entry lists.tail
        refine ⟨it, ks.map (leafAt M) ++ [e], run, ?_, by simp [leafAt_of_entry entry]⟩
        rw [List.length_cons, rest 1]
        have final : walk tr .up 1 it' s = .ok [e] s :=
          Exec.bind_of_ok (advance_last holds stored' last) _
        exact Exec.bind_of_ok final _

/-- `--` from `end` visits every element and ends at `begin`. -/
theorem walk_backward (holds : Holds tr s e M own) {ks : List (Key n)}
    (lists : Dir.up.Lists (dom M) ks) (nonempty : ks ≠ []) :
    walk tr .down ks.length e s = .ok (ks.map (leafAt M)).reverse s := by
  have some : M ≠ Table.empty := by
    rintro rfl
    obtain ⟨x, listed⟩ := List.exists_mem_of_ne_nil ks nonempty
    exact (lists.mem_iff x).mp listed rfl
  obtain ⟨w, it, v, run, entry, first⟩ := decrement_end holds some
  have backwards := lists.reverse
  rw [← List.map_reverse, ← List.length_reverse]
  generalize ks.reverse = ks' at backwards
  cases ks' with
  | nil => exact absurd ((backwards.mem_iff w).mpr first.1) List.not_mem_nil
  | cons x ks' =>
      obtain rfl : w = x := first.unique backwards.isFirst
      obtain ⟨k', it', v', stored', last, rest⟩ := walk_spec holds .down ks' entry backwards.tail
      have reached : walk tr .down ks'.length it s = .ok (ks'.map (leafAt M)) s := by
        have whole := rest 0
        rw [Nat.add_zero] at whole
        rw [whole]
        show EStateM.Result.ok (ks'.map (leafAt M) ++ []) s = _
        rw [List.append_nil]
      rw [List.length_cons, List.map_cons, leafAt_of_entry entry, walk]
      exact (Exec.bind_of_ok run _).trans (Exec.bind_of_ok reached _)

/-- Between two elements `++` and `--` undo each other. -/
theorem advance_back (holds : Holds tr s e M own) (dir : Dir) {k u : Key n} {it : Addr} {v : V}
    (stored : M k = some (it, v)) (member : u ∈ dom M) (side : dir.before k u) :
    ∃ next, advance tr dir it s = .ok next s ∧ advance tr dir.opposite next s = .ok it s := by
  rcases advance_spec holds stored dir with ⟨w, next, v', run, entry, first⟩ | ⟨none, -⟩
  · have back := first.back (mem_dom_of_eq_some stored)
    refine ⟨next, run, ?_⟩
    rcases advance_spec holds entry dir.opposite with ⟨w', it', v'', run', entry', first'⟩ | ⟨none, -⟩
    · obtain rfl : w' = k := first'.unique back
      rw [stored, Option.some.injEq, Prod.mk.injEq] at entry'
      rw [run', entry'.1]
    · exact absurd back.1.2 (none k back.1.1)
  · exact absurd side (none u member)

/-- **Iteration** over a container. -/
theorem Holds.iterates (holds : Holds tr s e M own) {ks : List (Key n)}
    (lists : Dir.up.Lists (dom M) ks) : Iterates tr s (ks.map (leafAt M)) where
  complete it := by
    rw [List.mem_map]
    constructor
    · rintro ⟨u, listed, rfl⟩
      obtain ⟨⟨it, v⟩, entry⟩ := exists_of_mem_dom ((lists.mem_iff u).mp listed)
      exact ⟨v, leafAt_of_entry entry ▸ (holds.stored_of_entry entry).1⟩
    · rintro ⟨v, stored⟩
      have entry := holds.stored_iff.mp stored
      exact ⟨_, (lists.mem_iff _).mpr (mem_dom_of_eq_some entry), leafAt_of_entry entry⟩
  ascending := by
    have key : ∀ u ∈ ks, ∀ v, Stored s (leafAt M u) v → tr.keyOf v = u := by
      intro u listed v stored
      obtain ⟨⟨it, v'⟩, entry⟩ := exists_of_mem_dom ((lists.mem_iff u).mp listed)
      rw [leafAt_of_entry entry] at stored
      exact (holds.key_unique (holds.stored_iff.mp stored) entry).1
    rw [List.pairwise_map]
    refine lists.sorted.imp_of_mem fun {u u'} listed listed' less v v' stored stored' => ?_
    rw [key u listed v stored, key u' listed' v' stored']
    exact less
  length := by rw [List.length_map, lists.length_eq, holds.count, size]
  forward := by
    obtain ⟨first, rest, run, reached, same⟩ := walk_forward holds lists
    exact ⟨first, e, run, holds.isEnd_iff.mpr rfl, rest, by rw [List.length_map, reached], same⟩
  backward nonempty := by
    refine ⟨e, holds.isEnd_iff.mpr rfl, ?_⟩
    rw [List.length_map]
    exact walk_backward holds lists fun none => nonempty (by rw [none]; rfl)
  back it v stored later := by
    obtain ⟨it', v', stored', less⟩ := later
    exact advance_back holds .up (holds.stored_iff.mp stored)
      (mem_dom_of_eq_some (holds.stored_iff.mp stored')) less
  forth it v stored earlier := by
    obtain ⟨it', v', stored', less⟩ := earlier
    exact advance_back holds .down (holds.stored_iff.mp stored)
      (mem_dom_of_eq_some (holds.stored_iff.mp stored')) less

end Walks

/-- **Iteration after every history.** -/
theorem History.iterates [Variant H] [HeaderSpec H] [LawfulVariant H] {tr : Traits K V n}
    {s : St H K V n} {m : Table Byte n V} (admits : Admits H n) (history : History tr s m) :
    ∃ its, Iterates tr s its := by
  obtain ⟨e, M, own, holds, -⟩ := history.holds admits
  obtain ⟨ks, lists⟩ := Dir.exists_lists (Set.toFinite (dom M))
  exact ⟨_, holds.iterates lists⟩

/-- **Iteration is complete, ordered and reversible** in `ar_tree`, and in `ar_prefix_tree` for keys
whose prefix lengths fit `_prefix_length`. -/
theorem iteration :
    (∀ {K V : Type} {n : ℕ} (tr : Traits K V n) (s : ArTree.State K V n) (m : Table Byte n V),
      History tr s m → ∃ its, Iterates tr s its) ∧
    ∀ {K V : Type} {n : ℕ} (tr : Traits K V n) (s : ArPrefixTree.State K V n) (m : Table Byte n V),
      n ≤ 65536 → History tr s m → ∃ its, Iterates tr s its :=
  ⟨fun _ _ _ history => history.iterates trivial, fun _ _ _ fits history => history.iterates fits⟩

/-- Three keys in either container. -/
theorem iteration_three :
    (∃ s, insertAll (Traits.identity 2) [⟨#v[1, 2]⟩, ⟨#v[1, 3]⟩, ⟨#v[0, 7]⟩]
        (blankState DepthHeader (Traits.identity 2)) = .ok ⟨⟩ s ∧
      ∃ its, Iterates (Traits.identity 2) s its) ∧
    ∃ s, insertAll (Traits.identity 2) [⟨#v[1, 2]⟩, ⟨#v[1, 3]⟩, ⟨#v[0, 7]⟩]
        (blankState PrefixHeader (Traits.identity 2)) = .ok ⟨⟩ s ∧
      ∃ its, Iterates (Traits.identity 2) s its := by
  have fits : 2 ≤ 65536 := by decide
  obtain ⟨s, run, history⟩ := insertAll_history (H := DepthHeader) trivial (Traits.identity 2)
    [⟨#v[1, 2]⟩, ⟨#v[1, 3]⟩, ⟨#v[0, 7]⟩]
  obtain ⟨s', run', history'⟩ := insertAll_history (H := PrefixHeader) fits (Traits.identity 2)
    [⟨#v[1, 2]⟩, ⟨#v[1, 3]⟩, ⟨#v[0, 7]⟩]
  exact ⟨⟨s, run, iteration.1 _ s _ history⟩, s', run', iteration.2 _ s' _ fits history'⟩

/-! ### Keys of more than 65536 bytes -/

/-- Where `++` stays at the first of two elements, there is no iteration. -/
theorem not_iterates_of_stuck [Header H] {tr : Traits K V n} {s : St H K V n} {it : Addr}
    (size : s.tree.count = 2) (begin_eq : beginIt s = .ok it s)
    (stuck : increment tr it s = .ok it s) : ¬ ∃ its, Iterates tr s its := by
  have loops : ∀ t, walk tr .up t it s = .ok (List.replicate t it) s := by
    intro t
    induction t with
    | zero => rfl
    | succ t ih => exact (Exec.bind_of_ok stuck _).trans (Exec.bind_of_ok ih _)
  intro found
  obtain ⟨its, iterates⟩ := found
  obtain ⟨first, last, run, -, rest, walked, visited⟩ := iterates.forward
  rw [begin_eq] at run
  cases run
  rw [loops] at walked
  cases walked
  have two : its.length = 2 := iterates.length.trans size
  have both : its = [it, it] := by
    have front := congrArg (List.take 2) visited
    rw [List.take_append_of_le_length two.ge, ← two, List.take_length] at front
    rw [← front, two]
    rfl
  have ascending := iterates.ascending
  rw [both] at ascending
  obtain ⟨v, stored⟩ := (iterates.complete it).mp (by simp [both])
  exact lt_irrefl _ (List.rel_of_pairwise_cons ascending List.mem_cons_self v v stored stored)

/-- A key of 65537 bytes, all of them `0` but the last one. -/
def longKey (last : Byte) : Key 65537 := ⟨Vector.ofFn fun i => if i.val = 65536 then last else 0⟩

theorem longKey_letter (last : Byte) {i : ℕ} (lt : i < 65537) :
    (longKey last).letter i = if i = 65536 then last else 0 := by
  rw [Word.letter_of_lt _ lt]
  exact Vector.getElem_ofFn lt

theorem longKey_agree (last last' : Byte) : Word.Agree 65536 (longKey last) (longKey last') := by
  intro i lt
  rw [longKey_letter last (by omega), longKey_letter last' (by omega), if_neg lt.ne, if_neg lt.ne]

theorem longKey_letter_lt {last last' : Byte} (less : last < last') :
    (longKey last).letter 65536 < (longKey last').letter 65536 := by
  rwa [longKey_letter last (by omega), longKey_letter last' (by omega), if_pos rfl, if_pos rfl]

theorem longKey_lt {last last' : Byte} (less : last < last') : longKey last < longKey last' :=
  Word.lt_of_letter (longKey_agree last last') (longKey_letter_lt less)

theorem longKey_below {last : Byte} (positive : 0 < last) :
    (longKey last).letter 0 < (longKey last).letter 65536 := by
  rwa [longKey_letter last (by omega), longKey_letter last (by omega), if_pos rfl, if_neg (by omega)]

/-- **Two keys of 65537 bytes** that differ in the last one are misplaced. -/
theorem exists_long_misplaced :
    ∃ (s : ArPrefixTree.State (Key 65537) (Key 65537) 65537) (node it it' : Addr) (l : Layout),
      History (Traits.identity 65537) s (Table.ofList (Traits.identity 65537) [longKey 1, longKey 2]) ∧
      ArPrefixTree.Misplaced (Traits.identity 65537) s (longKey 1) (longKey 2) node it it' l :=
  ArPrefixTree.exists_misplaced (Traits.identity 65537) (by omega) (longKey_agree 2 1)
    (longKey_letter_lt (by decide))

/-- **Two keys of 65537 bytes** that differ in the last one: `++` from `begin` never leaves it. -/
theorem iteration_stuck : ∃ s : ArPrefixTree.State (Key 65537) (Key 65537) 65537,
    History (Traits.identity 65537) s (Table.ofList (Traits.identity 65537) [longKey 1, longKey 2]) ∧
      ¬ ∃ its, Iterates (Traits.identity 65537) s its := by
  obtain ⟨s, node, it, it', l, history, misplaced⟩ := exists_long_misplaced
  have less : (longKey 1).letter 65536 < (longKey 2).letter 65536 := longKey_letter_lt (by decide)
  exact ⟨s, history, not_iterates_of_stuck misplaced.size (misplaced.begin less)
    (misplaced.increment (by omega) (longKey_below (by decide)) less)⟩

end CppArt
