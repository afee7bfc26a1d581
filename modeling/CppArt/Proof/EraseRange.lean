/-
**Erasure by iterator and by range.**

`erase` at an iterator leaves the state that `erase_unique` leaves for the key of the element
(`eraseUnique_of_eraseAt`). The range loop of `radix_map` and `radix_set` erases one element a round
and goes on at the iterator that followed it before. What lies beyond the erased key is as it was, so
the rest of the range is walked as before (`walk_beyond`), and the loop ends at `last`
(`eraseRange_spec`, by induction on the range).

* `erasure_by_iterator`: both, for the two containers.
-/

import CppArt.Model.RadixMap
import CppArt.Proof.Iteration

namespace CppArt

open Table

variable {H K V : Type} {n : ℕ}

/-- **The element at an iterator has been erased** as by its key, and `next` is the successor. -/
structure ElementErased [Variant H] (tr : Traits K V n) (s : St H K V n) (m : Table Byte n V) (it : Addr)
    (v : V) (next : Addr) (s' : St H K V n) : Prop where
  run : eraseAt tr it s = .ok next s'
  same : ∀ k, tr.defaultTransform k = tr.keyOf v → eraseUnique tr k s = .ok 1 s'
  points : PointsTo tr s' {u | u ∈ dom m ∧ tr.keyOf v < u} next

/-- **The range of the iterators `its`, up to `last`, has been erased.** The other elements are where
they were and in the order in which they were, and `last` is what it was. -/
structure RangeErased [Variant H] (tr : Traits K V n) (s s' : St H K V n) (its : List Addr)
    (last : Addr) : Prop where
  stored : ∀ it v, Stored s' it v ↔ Stored s it v ∧ it ∉ its
  order : ∀ all, Iterates tr s all → Iterates tr s' (all.filter (· ∉ its))
  element : ∀ v, Stored s last v → Stored s' last v
  ended : IsEnd s last → IsEnd s' last
  history : ∃ m', History tr s' m'

/-- **An iteration visits a list of iterators that is determined by the elements.** -/
theorem Iterates.filter [Header H] {tr : Traits K V n} {s s' : St H K V n} {its all all' : List Addr}
    (iterates : Iterates tr s all) (iterates' : Iterates tr s' all')
    (stored : ∀ it v, Stored s' it v ↔ Stored s it v ∧ it ∉ its) : all' = all.filter (· ∉ its) := by
  have nodup : ∀ {t : St H K V n} {xs : List Addr}, (∀ it, it ∈ xs ↔ ∃ v, Stored t it v) →
      (xs.Pairwise fun it it' => ∀ v v', Stored t it v → Stored t it' v' → tr.keyOf v < tr.keyOf v') →
      xs.Nodup := by
    intro t xs complete ascending
    refine ascending.imp_of_mem fun {it it'} inside _ less same => ?_
    obtain ⟨v, here⟩ := (complete it).mp inside
    exact lt_irrefl _ (less v v here (same ▸ here))
  have members : ∀ it, it ∈ all' ↔ it ∈ all.filter (· ∉ its) := by
    intro it
    rw [iterates'.complete, List.mem_filter, iterates.complete]
    simp only [stored, decide_eq_true_eq]
    exact exists_and_right
  have perm : all'.Perm (all.filter (· ∉ its)) := (List.perm_ext_iff_of_nodup
    (nodup iterates'.complete iterates'.ascending)
    ((nodup iterates.complete iterates.ascending).filter _)).mpr members
  have ascending : (all.filter (· ∉ its)).Pairwise fun it it' =>
      ∀ v v', Stored s' it v → Stored s' it' v' → tr.keyOf v < tr.keyOf v' :=
    (iterates.ascending.filter _).imp fun {it it'} less v v' here here' =>
      less v v' ((stored it v).mp here).1 ((stored it' v').mp here').1
  refine perm.eq_of_pairwise (fun it it' inside inside' less less' => ?_) iterates'.ascending ascending
  obtain ⟨v, here⟩ := (iterates'.complete it).mp inside
  obtain ⟨v', here'⟩ := (iterates'.complete it').mp ((members it').mpr inside')
  exact absurd (less v v' here here') (less' v' v here' here).not_gt

/-! ### Beyond an erased key -/

/-- An iterator to an element beyond a key, or the end. -/
def Beyond (M : Contents n V) (e : Addr) (k : Key n) (x : Addr) : Prop :=
  x = e ∨ ∃ w v, M w = some (x, v) ∧ k < w

section Walks

variable [Header H] [HeaderSpec H] {tr : Traits K V n} {s s₁ : St H K V n} {e : Addr} {k : Key n}
  {M : Contents n V} {own own₁ : Set Addr}

/-- **`++` from the end** stays there. -/
theorem increment_end (holds : Holds tr s e M own) : increment tr e s = .ok e s := by
  obtain ⟨⟨link, sentinel⟩, endLeaf⟩ := holds.sentinel
  unfold increment advance
  rw [Exec.bind_of_ok (parentOf_ok endLeaf)]
  simp only [deref_some, Exec.pure_bind_apply]
  rw [Exec.bind_of_ok (getType_dummy sentinel), if_pos rfl]
  exact neighbour_sentinel _ sentinel

theorem walk_end (holds : Holds tr s e M own) :
    ∀ t, walk tr .up t e s = .ok (List.replicate t e) s
  | 0 => rfl
  | t + 1 => (Exec.bind_of_ok (increment_end holds) _).trans (Exec.bind_of_ok (walk_end holds t) _)

/-- `++` from a stored key on leads beyond it. -/
theorem Designates.beyond {w : Key n} {x : Addr} (follows : Designates M e (above M w) x) :
    Beyond M e w x := by
  rcases follows with ⟨u, v, entry, first⟩ | ⟨-, rfl⟩
  · exact .inr ⟨u, v, entry, first.1.2⟩
  · exact .inl rfl

/-- **What follows an element beyond a key** does not change when the key is dropped. -/
theorem increment_beyond (holds : Holds tr s e M own) (holds₁ : Holds tr s₁ e (drop M k) own₁)
    {x : Addr} (beyond : Beyond M e k x) :
    ∃ y, increment tr x s = .ok y s ∧ increment tr x s₁ = .ok y s₁ ∧ Beyond M e k y := by
  rcases beyond with rfl | ⟨w, v, entry, less⟩
  · exact ⟨x, increment_end holds, increment_end holds₁, .inl rfl⟩
  · have entry₁ : drop M k w = some (x, v) := (drop_of_ne M less.ne').trans entry
    obtain ⟨y, run, follows⟩ := increment_spec holds entry
    obtain ⟨y₁, run₁, follows₁⟩ := increment_spec holds₁ entry₁
    have sets : above (drop M k) w = above M w := by
      ext u
      unfold above
      rw [dom_drop]
      refine ⟨fun inside => ⟨inside.1.1, inside.2⟩, fun inside => ⟨⟨inside.1, ?_⟩, inside.2⟩⟩
      exact (less.trans inside.2).ne'
    have follows' : Designates (drop M k) e (above (drop M k) w) y := by
      rw [sets]
      refine follows.imp (fun found => ?_) id
      obtain ⟨u, v', entry', first⟩ := found
      exact ⟨u, v', (drop_of_ne M (less.trans first.1.2).ne').trans entry', first⟩
    rw [← follows'.unique follows₁] at run₁
    refine ⟨y, run, run₁, ?_⟩
    rcases follows.beyond with ended | ⟨u, v', entry', greater⟩
    · exact .inl ended
    · exact .inr ⟨u, v', entry', less.trans greater⟩

/-- **A walk beyond a key** is the same when the key has been dropped. -/
theorem walk_beyond (holds : Holds tr s e M own) (holds₁ : Holds tr s₁ e (drop M k) own₁) :
    ∀ (t : ℕ) {x : Addr}, Beyond M e k x → ∃ rest, walk tr .up t x s = .ok rest s ∧
      walk tr .up t x s₁ = .ok rest s₁ ∧ ∀ y ∈ rest, Beyond M e k y
  | 0, x, _ => ⟨[], rfl, rfl, fun _ none => absurd none List.not_mem_nil⟩
  | t + 1, x, beyond => by
      obtain ⟨y, run, run₁, beyond'⟩ := increment_beyond holds holds₁ beyond
      obtain ⟨rest, walked, walked₁, all⟩ := walk_beyond holds holds₁ t beyond'
      refine ⟨y :: rest, (Exec.bind_of_ok run _).trans (Exec.bind_of_ok walked _),
        (Exec.bind_of_ok run₁ _).trans (Exec.bind_of_ok walked₁ _), fun z inside => ?_⟩
      rcases List.mem_cons.mp inside with rfl | later
      · exact beyond'
      · exact all z later

end Walks

/-! ### The loop -/

section Loop

variable [Variant H] [HeaderSpec H] [LawfulVariant H] {tr : Traits K V n} {e : Addr}

/-- **The range loop** erases the elements it walks over. -/
theorem eraseRange_spec (admits : Admits H n) (last : Addr) :
    ∀ (its : List Addr) {s : St H K V n} {M : Contents n V} {own : Set Addr} {first : Addr}
      {rest : List Addr}, Holds tr s e M own → History tr s (values M) →
      (first = e ∨ ∃ k v, M k = some (first, v)) →
      walk tr .up its.length first s = .ok rest s → first :: rest = its ++ [last] →
      (∀ k v, M k = some (last, v) → last ∉ its) ∧ ∃ s' M' own',
        (∀ rounds, its.length < rounds → eraseRange tr rounds first last s = .ok last s') ∧
        Holds tr s' e M' own' ∧ History tr s' (values M') ∧
        ∀ k it v, M' k = some (it, v) ↔ M k = some (it, v) ∧ it ∉ its
  | [], s, M, own, first, rest, holds, history, _, walked, visited => by
      obtain ⟨rfl, -⟩ := List.cons.inj visited
      refine ⟨fun _ _ _ => List.not_mem_nil, s, M, own, fun rounds more => ?_, holds, history,
        fun k it v => ⟨fun entry => ⟨entry, List.not_mem_nil⟩, And.left⟩⟩
      obtain ⟨t, rfl⟩ : ∃ t, rounds = t + 1 := ⟨rounds - 1, by omega⟩
      rw [eraseRange, if_pos rfl]
      rfl
  | x :: its, s, M, own, first, rest, holds, history, starts, walked, visited => by
      obtain ⟨rfl, after⟩ := List.cons.inj visited
      have visited' : rest = its ++ [last] := after
      rcases starts with rfl | ⟨k, v, entry⟩
      · -- the walk never leaves the end
        rw [walk_end holds] at walked
        cases walked
        have ends : ∀ y ∈ its ++ [last], y = first := by
          rw [← visited']
          exact fun y inside => List.eq_of_mem_replicate inside
        obtain rfl : last = first := ends last (by simp)
        have apart : ∀ k it v, M k = some (it, v) → it ∉ last :: its := by
          intro k it v entry inside
          obtain ⟨-, -, differ, -⟩ := holds.entry entry
          rcases List.mem_cons.mp inside with same | later
          · exact differ same
          · exact differ (ends it (by simp [later]))
        refine ⟨fun k v entry => apart k last v entry, s, M, own, fun rounds more => ?_, holds, history,
          fun k it v => ⟨fun entry => ⟨entry, apart k it v entry⟩, And.left⟩⟩
        obtain ⟨t, rfl⟩ : ∃ t, rounds = t + 1 := ⟨rounds - 1, by omega⟩
        rw [eraseRange, if_pos rfl]
        rfl
      · have stored : Stored s first v ∧ tr.keyOf v = k := holds.stored_of_entry entry
        obtain ⟨result, s₁, own₁, erased, holds₁, -, -⟩ := eraseAt_spec admits holds entry
        obtain ⟨next, run, follows⟩ := increment_spec holds entry
        obtain ⟨rest', rest_s, rest_s₁, beyond⟩ := walk_beyond holds holds₁ its.length follows.beyond
        have whole : walk tr .up (its.length + 1) first s = .ok (next :: rest') s :=
          (Exec.bind_of_ok run _).trans (Exec.bind_of_ok rest_s _)
        rw [List.length_cons, whole] at walked
        cases walked
        have history₁ : History tr s₁ (values (drop M k)) := by
          rw [values_drop, ← stored.2]
          exact history.call (.eraseAt first v stored.1) (Exec.bind_of_ok erased _)
        have lastBeyond : Beyond M e k last := by
          have inside : last ∈ next :: rest' := by simp [visited']
          rcases List.mem_cons.mp inside with rfl | later
          · exact follows.beyond
          · exact beyond last later
        have differ : first ≠ last := by
          rintro rfl
          rcases lastBeyond with ended | ⟨w, v', entry', less⟩
          · exact (holds.entry entry).2.2.1 ended
          · exact less.ne (holds.key_unique entry entry').1
        have starts₁ : next = e ∨ ∃ k' v', drop M k k' = some (next, v') := by
          refine follows.beyond.imp id fun found => ?_
          obtain ⟨w, v', entry', less⟩ := found
          exact ⟨w, v', (drop_of_ne M less.ne').trans entry'⟩
        obtain ⟨kept, s', M', own', loop, holds', history', entries⟩ :=
          eraseRange_spec admits last its holds₁ history₁ starts₁ rest_s₁ visited'
        have dropped : ∀ k' it v', drop M k k' = some (it, v') ↔ M k' = some (it, v') ∧ it ≠ first := by
          intro k' it v'
          by_cases same : k' = k
          · rw [same, drop_self]
            refine ⟨fun none => (Option.some_ne_none _ none.symm).elim, fun both => ?_⟩
            rw [entry, Option.some.injEq, Prod.mk.injEq] at both
            exact absurd both.1.1.symm both.2
          · rw [drop_of_ne M same]
            refine ⟨fun here => ⟨here, ?_⟩, And.left⟩
            rintro rfl
            exact same (holds.key_unique here entry).1
        refine ⟨fun k' v' entry' inside => ?_, s', M', own', fun rounds more => ?_, holds', history',
          fun k' it v' => ?_⟩
        · rcases List.mem_cons.mp inside with same | later
          · exact differ same.symm
          · exact kept k' v' ((dropped k' last v').mpr ⟨entry', differ.symm⟩) later
        · obtain ⟨t, rfl⟩ : ∃ t, rounds = t + 1 := ⟨rounds - 1, by omega⟩
          rw [eraseRange, if_neg differ, Exec.bind_of_ok run, Exec.bind_of_ok erased]
          exact loop t (by rw [List.length_cons] at more; omega)
        · rw [entries, dropped, List.mem_cons, not_or, and_assoc]

/-- **Erasure at an iterator and of a range** after every history. -/
theorem History.erasure (admits : Admits H n) {s : St H K V n} {m : Table Byte n V}
    (history : History tr s m) :
    (∀ it v, Stored s it v → ∃ next s', ElementErased tr s m it v next s') ∧
      ∀ first last its, (IsEnd s first ∨ ∃ v, Stored s first v) → Spans tr s first last its →
        ∃ s', (∀ rounds, its.length < rounds → eraseRange tr rounds first last s = .ok last s') ∧
          RangeErased tr s s' its last := by
  obtain ⟨e, M, own, holds, rfl⟩ := history.holds admits
  constructor
  · intro it v stored
    have entry := holds.stored_iff.mp stored
    obtain ⟨next, s', own', run, holds', -, follows⟩ := eraseAt_spec admits holds entry
    refine ⟨next, s', run, fun k key => ?_, ?_⟩
    · exact eraseUnique_of_eraseAt holds (key ▸ entry) run
    · rw [dom_values]
      refine holds'.pointsTo (follows.imp (fun found => ?_) id)
      obtain ⟨w, v', entry', first⟩ := found
      exact ⟨w, v', (drop_of_ne M first.1.2.ne').trans entry', first⟩
  · intro first last its starts spans
    obtain ⟨rest, walked, visited⟩ := spans
    have starts' : first = e ∨ ∃ k v, M k = some (first, v) := by
      refine starts.imp holds.isEnd_iff.mp fun found => ?_
      obtain ⟨v, stored⟩ := found
      exact ⟨_, v, holds.stored_iff.mp stored⟩
    obtain ⟨kept, s', M', own', loop, holds', history', entries⟩ :=
      eraseRange_spec admits last its holds history starts' walked visited
    have stored : ∀ it v, Stored s' it v ↔ Stored s it v ∧ it ∉ its := by
      intro it v
      rw [holds'.stored_iff, holds.stored_iff, entries]
    refine ⟨s', loop, stored, fun all iterates => ?_, fun v here => ?_, fun ended => ?_, _, history'⟩
    · obtain ⟨all', iterates'⟩ := history'.iterates admits
      rw [← iterates.filter iterates' stored]
      exact iterates'
    · exact (stored last v).mpr ⟨here, kept _ v (holds.stored_iff.mp here)⟩
    · exact holds'.isEnd_iff.mpr (holds.isEnd_iff.mp ended)

end Loop

/-! ### The two containers -/

/-- **Erasure by iterator and by range** in `ar_tree`, and in `ar_prefix_tree` for keys whose prefix
lengths fit `_prefix_length`. -/
theorem erasure_by_iterator :
    (∀ {K V : Type} {n : ℕ} (tr : Traits K V n) (s : ArTree.State K V n) (m : Table Byte n V),
      History tr s m →
        (∀ it v, Stored s it v → ∃ next s', ElementErased tr s m it v next s') ∧
        ∀ first last its, (IsEnd s first ∨ ∃ v, Stored s first v) → Spans tr s first last its →
          ∃ s', (∀ rounds, its.length < rounds → eraseRange tr rounds first last s = .ok last s') ∧
            RangeErased tr s s' its last) ∧
    ∀ {K V : Type} {n : ℕ} (tr : Traits K V n) (s : ArPrefixTree.State K V n) (m : Table Byte n V),
      n ≤ 65536 → History tr s m →
        (∀ it v, Stored s it v → ∃ next s', ElementErased tr s m it v next s') ∧
        ∀ first last its, (IsEnd s first ∨ ∃ v, Stored s first v) → Spans tr s first last its →
          ∃ s', (∀ rounds, its.length < rounds → eraseRange tr rounds first last s = .ok last s') ∧
            RangeErased tr s s' its last :=
  ⟨fun _ _ _ history => history.erasure trivial, fun _ _ _ fits history => history.erasure fits⟩

/-- All elements of two keys are erased, in either container. -/
theorem erasure_by_iterator_pair :
    (∃ s first last, insertAll (Traits.identity 2) [⟨#v[1, 2]⟩, ⟨#v[1, 3]⟩]
        (blankState DepthHeader (Traits.identity 2)) = .ok ⟨⟩ s ∧ beginIt s = .ok first s ∧
      ∃ rounds s', eraseRange (Traits.identity 2) rounds first last s = .ok last s' ∧
        ∀ it v, ¬ Stored s' it v) ∧
    ∃ s it, insertAll (Traits.identity 2) [⟨#v[1, 2]⟩, ⟨#v[1, 3]⟩]
        (blankState PrefixHeader (Traits.identity 2)) = .ok ⟨⟩ s ∧
      ∃ next s', ElementErased (Traits.identity 2) s
        (Table.ofList (Traits.identity 2) [⟨#v[1, 2]⟩, ⟨#v[1, 3]⟩]) it ⟨#v[1, 3]⟩ next s' := by
  have fits : 2 ≤ 65536 := by decide
  have value : Table.ofList (Traits.identity 2) [⟨#v[1, 2]⟩, ⟨#v[1, 3]⟩] ⟨#v[1, 3]⟩
      = some ⟨#v[1, 3]⟩ := by decide
  obtain ⟨s, run, history⟩ := insertAll_history (H := DepthHeader) trivial (Traits.identity 2)
    [⟨#v[1, 2]⟩, ⟨#v[1, 3]⟩]
  obtain ⟨s', run', history'⟩ := insertAll_history (H := PrefixHeader) fits (Traits.identity 2)
    [⟨#v[1, 2]⟩, ⟨#v[1, 3]⟩]
  obtain ⟨it', stored', -⟩ := ((history'.refines fits).represents.entries _ _).mp value
  refine ⟨?_, s', it', run', (erasure_by_iterator.2 _ s' _ fits history').1 it' _ stored'⟩
  obtain ⟨its, iterates⟩ := history.iterates trivial
  obtain ⟨first, last, begins, ends, spans⟩ := iterates.forward
  obtain ⟨it, stored, -⟩ := ((history.refines trivial).represents.entries _ _).mp value
  have inside : it ∈ its := (iterates.complete it).mpr ⟨_, stored⟩
  have starts : IsEnd s first ∨ ∃ v, Stored s first v := by
    obtain ⟨rest, -, visited⟩ := spans
    cases its with
    | nil => cases inside
    | cons x its =>
        obtain rfl := (List.cons.inj visited).1
        exact .inr ((iterates.complete first).mp List.mem_cons_self)
  obtain ⟨s₁, loop, erased⟩ := (erasure_by_iterator.1 _ s _ history).2 first last its starts spans
  refine ⟨s, first, last, run, begins, its.length + 1, s₁, loop _ (by omega), fun it v stored => ?_⟩
  obtain ⟨before, outside⟩ := (erased.stored it v).mp stored
  exact outside ((iterates.complete it).mpr ⟨v, before⟩)

/-- **Two keys of 65537 bytes** that differ in the last one: `erase_unique` does not find the key of the
element at `begin`, so it does not do what `erase` does. -/
theorem erasure_by_iterator_lost :
    ∃ (s : ArPrefixTree.State (Key 65537) (Key 65537) 65537) (it : Addr) (v : Key 65537),
      History (Traits.identity 65537) s (Table.ofList (Traits.identity 65537) [longKey 1, longKey 2]) ∧
      Stored s it v ∧ ¬ ∃ next s', ElementErased (Traits.identity 65537) s
        (Table.ofList (Traits.identity 65537) [longKey 1, longKey 2]) it v next s' := by
  obtain ⟨s, node, it, it', l, history, misplaced⟩ := exists_long_misplaced
  have less : (longKey 1).letter 65536 < (longKey 2).letter 65536 := longKey_letter_lt (by decide)
  refine ⟨s, it, longKey 1, history, misplaced.stored less, fun found => ?_⟩
  obtain ⟨next, s', erased⟩ := found
  have run := erased.same (longKey 1) rfl
  have lost : eraseUnique (Traits.identity 65537) (longKey 1) s = .ok 0 s :=
    misplaced.eraseUnique (by omega) (longKey_below (by decide)) less rfl
  rw [lost] at run
  cases run

end CppArt
