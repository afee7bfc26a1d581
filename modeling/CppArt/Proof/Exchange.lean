/-
**A user cannot tell the two trees apart**, except by the bounds of a key that departs inside a prefix.

* `samePlace_of_pointsTo`: iterators to the least of the same set of keys;
* `sameReply`, `samePlace_look`, `sameBound`: calls, lookups and bounds;
* `interchangeable`.
-/

import CppArt.Model.Exchange
import CppArt.Proof.Compression
import CppArt.Proof.Copying
import CppArt.Proof.EraseRange
import CppArt.Proof.ValueCompare

namespace CppArt

open Table

variable {K V : Type} {n : ℕ} {tr : Traits K V n}

section Places

variable {s : ArTree.State K V n} {s' : ArPrefixTree.State K V n} {e e' : Addr} {M M' : Contents n V}
variable {own own' : Set Addr} {it it' : Addr}

/-- The elements of one key. -/
theorem samePlace_of_stored (holds : Holds tr s e M own) (holds' : Holds tr s' e' M' own')
    (same : values M = values M') {v v' : V} (stored : Stored s it v) (stored' : Stored s' it' v')
    (key : tr.keyOf v = tr.keyOf v') : SamePlace s s' it it' := by
  have value : values M (tr.keyOf v) = some v := values_eq_some.mpr ⟨it, holds.stored_iff.mp stored⟩
  have value' : values M' (tr.keyOf v') = some v' :=
    values_eq_some.mpr ⟨it', holds'.stored_iff.mp stored'⟩
  rw [same, key, value', Option.some.injEq] at value
  subst value
  exact .element v' stored stored'

/-- The ends. -/
theorem samePlace_ends (holds : Holds tr s e M own) (holds' : Holds tr s' e' M' own') :
    SamePlace s s' e e' :=
  .last (holds.isEnd_iff.mpr rfl) (holds'.isEnd_iff.mpr rfl)

/-- **Iterators to the least of the same set of keys** are at the same place. -/
theorem samePlace_of_pointsTo (holds : Holds tr s e M own) (holds' : Holds tr s' e' M' own')
    (same : values M = values M') {keys : Set (Key n)} (points : PointsTo tr s keys it)
    (points' : PointsTo tr s' keys it') : SamePlace s s' it it' := by
  rcases points with ⟨v, stored, least⟩ | ⟨none, ends⟩
  · rcases points' with ⟨v', stored', least'⟩ | ⟨none, -⟩
    · exact samePlace_of_stored holds holds' same stored stored' (least.unique least')
    · exact absurd least.1 (none ▸ Set.notMem_empty _)
  · rcases points' with ⟨v', stored', least'⟩ | ⟨-, ends'⟩
    · exact absurd least'.1 (none ▸ Set.notMem_empty _)
    · exact .last ends ends'

/-- Leaves of the same key. -/
theorem samePlace_of_entries (holds : Holds tr s e M own) (holds' : Holds tr s' e' M' own')
    (same : values M = values M') {w : Key n} {v v' : V} (entry : M w = some (it, v))
    (entry' : M' w = some (it', v')) : SamePlace s s' it it' := by
  obtain ⟨stored, key⟩ := holds.stored_of_entry entry
  obtain ⟨stored', key'⟩ := holds'.stored_of_entry entry'
  exact samePlace_of_stored holds holds' same stored stored' (key.trans key'.symm)

theorem dom_eq_storedKeys (holds : Holds tr s e M own) : dom M = storedKeys tr s := by
  ext w
  constructor
  · intro member
    obtain ⟨⟨it, v⟩, entry⟩ := exists_of_mem_dom member
    exact ⟨it, v, holds.stored_of_entry entry⟩
  · rintro ⟨it, v, stored, rfl⟩
    exact mem_dom_of_eq_some (holds.stored_iff.mp stored)

/-! ### Calls -/

/-- **The same call has the same answer.** -/
theorem sameReply (fits : n ≤ 65536) (holds : Holds tr s e M own) (holds' : Holds tr s' e' M' own')
    (same : values M = values M') {call call' : Call K V} (calls : SameCall tr s s' call call') :
    ∃ answer answer' t t', perform tr call s = .ok answer t ∧ perform tr call' s' = .ok answer' t' ∧
      SameReply t t' answer answer' := by
  obtain ⟨m, effect, effect'⟩ := calls.effect (values M)
  rw [same] at effect'
  obtain ⟨answer, t, N, owned, run, held, -, rfl, answered, -⟩ := perform_spec trivial holds effect
  obtain ⟨answer', t', N', owned', run', held', -, equal, answered', -⟩ :=
    perform_spec fits holds' effect'
  refine ⟨answer, answer', t, t', run, run', ?_⟩
  rw [← same] at answered'
  cases calls with
  | insert x =>
      cases answered with
      | insert _ v it fresh stored key new =>
          cases answered' with
          | insert _ v' it' fresh' stored' key' new' =>
              rw [Bool.eq_iff_iff.mpr (new.trans new'.symm)]
              exact .inserted it it' fresh'
                (samePlace_of_stored held held' equal.symm stored stored' (key.trans key'.symm))
  | emplace x =>
      cases answered with
      | emplace _ v it fresh stored key new =>
          cases answered' with
          | emplace _ v' it' fresh' stored' key' new' =>
              rw [Bool.eq_iff_iff.mpr (new.trans new'.symm)]
              exact .inserted it it' fresh'
                (samePlace_of_stored held held' equal.symm stored stored' (key.trans key'.symm))
  | erase k =>
      cases answered
      cases answered'
      exact .erased _
  | eraseAt it it' v v' stored stored' key =>
      cases answered with
      | eraseAt _ next u stored₁ points =>
          cases answered' with
          | eraseAt _ next' u' stored₁' points' =>
              have key₁ : tr.keyOf u = tr.keyOf u' := by
                rw [stored₁.value_eq stored, key, stored'.value_eq stored₁']
              rw [← key₁] at points'
              exact .next next next' (samePlace_of_pointsTo held held' equal.symm points points')
  | clear =>
      cases answered
      cases answered'
      exact .cleared

/-! ### Lookups -/

/-- `find` at the same place. -/
theorem samePlace_find (holds : Holds tr s e M own) (holds' : Holds tr s' e' M' own')
    (same : values M = values M') (k : K) :
    ∃ it it', find tr k s = .ok it s ∧ find tr k s' = .ok it' s' ∧ SamePlace s s' it it' := by
  refine ⟨_, _, find_spec holds k, find_spec holds' k, ?_⟩
  rcases entry : M (tr.defaultTransform k) with _ | ⟨it, v⟩
  · have absent : M' (tr.defaultTransform k) = none := by
      rw [← values_eq_none, ← same, values_eq_none, entry]
    rw [absent]
    exact samePlace_ends holds holds'
  · obtain ⟨it', entry'⟩ := exists_entry same entry
    rw [entry']
    exact samePlace_of_entries holds holds' same entry entry'

/-- The first element. -/
theorem samePlace_first (holds : Holds tr s e M own) (holds' : Holds tr s' e' M' own')
    (same : values M = values M') :
    ∃ it it', beginIt s = .ok it s ∧ beginIt s' = .ok it' s' ∧ SamePlace s s' it it' := by
  have keys : dom M = dom M' := by rw [← dom_values, same, dom_values]
  rcases beginIt_spec holds with ⟨empty, run⟩ | ⟨w, it, v, run, entry, first⟩
  · rcases beginIt_spec holds' with ⟨-, run'⟩ | ⟨w', it', v', run', entry', first'⟩
    · exact ⟨e, e', run, run', samePlace_ends holds holds'⟩
    · rw [empty, dom_empty] at keys
      exact absurd first'.1 (keys ▸ Set.notMem_empty w')
  · rcases beginIt_spec holds' with ⟨empty, -⟩ | ⟨w', it', v', run', entry', first'⟩
    · rw [empty, dom_empty] at keys
      exact absurd first.1 (keys ▸ Set.notMem_empty w)
    · rw [← keys] at first'
      obtain rfl := first.unique first'
      exact ⟨it, it', run, run', samePlace_of_entries holds holds' same entry entry'⟩

/-- `++`. -/
theorem samePlace_next (holds : Holds tr s e M own) (holds' : Holds tr s' e' M' own')
    (same : values M = values M') (place : SamePlace s s' it it') :
    ∃ x x', advance tr .up it s = .ok x s ∧ advance tr .up it' s' = .ok x' s' ∧ SamePlace s s' x x' := by
  have keys : dom M = dom M' := by rw [← dom_values, same, dom_values]
  cases place with
  | element v stored stored' =>
      obtain ⟨x, run, designates⟩ := increment_spec holds (holds.stored_iff.mp stored)
      obtain ⟨x', run', designates'⟩ := increment_spec holds' (holds'.stored_iff.mp stored')
      rw [above, ← keys] at designates'
      exact ⟨x, x', run, run', samePlace_of_pointsTo holds holds' same (holds.pointsTo designates)
        (holds'.pointsTo designates')⟩
  | last ends ends' =>
      rw [holds.isEnd_iff] at ends
      rw [holds'.isEnd_iff] at ends'
      subst ends ends'
      exact ⟨_, _, increment_end holds, increment_end holds', samePlace_ends holds holds'⟩

/-- `--` from an element that is not the first. -/
theorem samePlace_back (holds : Holds tr s e M own) (holds' : Holds tr s' e' M' own')
    (same : values M = values M') {it₀ : Addr} {v v₀ : V} (stored : Stored s it v)
    (stored' : Stored s' it' v) (before : Stored s it₀ v₀) (less : tr.keyOf v₀ < tr.keyOf v) :
    ∃ x x', advance tr .down it s = .ok x s ∧ advance tr .down it' s' = .ok x' s' ∧
      SamePlace s s' x x' := by
  have keys : dom M = dom M' := by rw [← dom_values, same, dom_values]
  have member : tr.keyOf v₀ ∈ dom M := mem_dom_of_eq_some (holds.stored_iff.mp before)
  rcases advance_spec holds (holds.stored_iff.mp stored) .down with ⟨w, x, u, run, entry, first⟩ |
    ⟨none, -⟩
  · rcases advance_spec holds' (holds'.stored_iff.mp stored') .down with
      ⟨w', x', u', run', entry', first'⟩ | ⟨none, -⟩
    · rw [← keys] at first'
      obtain rfl := first.unique first'
      exact ⟨x, x', run, run', samePlace_of_entries holds holds' same entry entry'⟩
    · exact absurd less (none _ (keys ▸ member))
  · exact absurd less (none _ member)

/-- `--` from the end. -/
theorem samePlace_final (holds : Holds tr s e M own) (holds' : Holds tr s' e' M' own')
    (same : values M = values M') {it₀ : Addr} {v₀ : V} (some : Stored s it₀ v₀) :
    ∃ x x', advance tr .down e s = .ok x s ∧ advance tr .down e' s' = .ok x' s' ∧
      SamePlace s s' x x' := by
  have keys : dom M = dom M' := by rw [← dom_values, same, dom_values]
  have member : tr.keyOf v₀ ∈ dom M := mem_dom_of_eq_some (holds.stored_iff.mp some)
  obtain ⟨w, x, u, run, entry, first⟩ := decrement_end holds (by
    rintro rfl
    exact member rfl)
  obtain ⟨w', x', u', run', entry', first'⟩ := decrement_end holds' (by
    rintro rfl
    rw [keys] at member
    exact member rfl)
  rw [← keys] at first'
  obtain rfl := first.unique first'
  exact ⟨x, x', run, run', samePlace_of_entries holds holds' same entry entry'⟩

/-- **The same lookup leads to the same place.** -/
theorem samePlace_look (holds : Holds tr s e M own) (holds' : Holds tr s' e' M' own')
    (same : values M = values M') {lookup lookup' : Lookup K}
    (lookups : SameLookup tr s s' lookup lookup') :
    ∃ it it', look tr lookup s = .ok it s ∧ look tr lookup' s' = .ok it' s' ∧ SamePlace s s' it it' := by
  cases lookups with
  | find k => exact samePlace_find holds holds' same k
  | first => exact samePlace_first holds holds' same
  | last => exact ⟨e, e', endIt_spec holds, endIt_spec holds', samePlace_ends holds holds'⟩
  | next x x' place => exact samePlace_next holds holds' same place
  | back x x' it₀ v v₀ stored stored' before less =>
      exact samePlace_back holds holds' same stored stored' before less
  | final x x' it₀ v₀ ends ends' some =>
      rw [holds.isEnd_iff] at ends
      rw [holds'.isEnd_iff] at ends'
      subst ends ends'
      exact samePlace_final holds holds' same some

/-! ### Bounds -/

/-- **The same bound**, or a way in which it goes wrong. -/
theorem sameBound (holds : Holds tr s e M own) (holds' : Holds tr s' e' M' own')
    (same : values M = values M') {accept : Ordering → Bool} (up : accept .lt = true)
    (down : accept .gt = false) (k : K) :
    SameBound tr accept k s s' (Departs (storedKeys tr s) (tr.defaultTransform k)) := by
  have keys : dom M = dom M' := by rw [← dom_values, same, dom_values]
  have accepts : accepted accept M (tr.defaultTransform k)
      = accepted accept M' (tr.defaultTransform k) := by
    unfold accepted
    rw [keys]
  rw [← dom_eq_storedKeys holds]
  rcases bound_spec holds up down k with ⟨it, run, right⟩ | ⟨-, -, a, d, stopped⟩ | ⟨run, w, only, out⟩
  · rcases bound_spec holds' up down k with ⟨it', run', right'⟩ | ⟨run', departs, -⟩ | ⟨-, w, only, out⟩
    · rw [← accepts] at right'
      exact .place it it' run run' (samePlace_of_pointsTo holds holds' same (holds.pointsTo right)
        (holds'.pointsTo right'))
    · exact .ended it e' run run' (holds'.isEnd_iff.mpr rfl) (keys ▸ departs)
    · rw [bound_single holds k (keys.trans only) (accepts ▸ out)] at run
      cases run
  -- a pass over a node of an `ar_tree` never stops
  · cases stopped
  · exact .failed run (bound_single holds' k (keys.symm.trans only) (accepts ▸ out))
      ⟨w, (dom_eq_storedKeys holds).symm.trans only⟩

end Places

/-! ### Result -/

/-- **The two trees are interchangeable.** After the same calls, the same call has the same answer and
the same lookup leads to the same place; so does a bound, except that both trees fail on a single
element, and the `ar_prefix_tree` ends too early for a key that departs inside a prefix. -/
theorem interchangeable (fits : n ≤ 65536) (tr : Traits K V n) (s : ArTree.State K V n)
    (s' : ArPrefixTree.State K V n) (lock : Lockstep tr s s') :
    (∀ call call', SameCall tr s s' call call' → ∃ answer answer' t t',
      perform tr call s = .ok answer t ∧ perform tr call' s' = .ok answer' t' ∧ Lockstep tr t t' ∧
        SameReply t t' answer answer') ∧
    (∀ lookup lookup', SameLookup tr s s' lookup lookup' → ∃ it it', look tr lookup s = .ok it s ∧
      look tr lookup' s' = .ok it' s' ∧ SamePlace s s' it it') ∧
    ∀ accept : Ordering → Bool, accept .lt = true → accept .gt = false → ∀ k,
      SameBound tr accept k s s' (Departs (storedKeys tr s) (tr.defaultTransform k)) := by
  obtain ⟨m, history, history'⟩ := lock.history
  obtain ⟨e, M, own, holds, values₁⟩ := history.holds trivial
  obtain ⟨e', M', own', holds', values₂⟩ := history'.holds fits
  have same : values M = values M' := values₁.trans values₂.symm
  refine ⟨fun call call' calls => ?_, fun lookup lookup' lookups =>
    samePlace_look holds holds' same lookups, fun accept up down k => sameBound holds holds' same up down k⟩
  obtain ⟨answer, answer', t, t', run, run', reply⟩ := sameReply fits holds holds' same calls
  exact ⟨answer, answer', t, t', run, run', lock.call calls run run', reply⟩

/-- Two keys with a shared prefix in both trees: a bound of a key that departs there. -/
theorem interchangeable_pair :
    ∃ s s', insertAll (Traits.identity 3) [⟨#v[1, 2, 3]⟩, ⟨#v[1, 2, 4]⟩]
        (blankState DepthHeader (Traits.identity 3)) = .ok ⟨⟩ s ∧
      insertAll (Traits.identity 3) [⟨#v[1, 2, 3]⟩, ⟨#v[1, 2, 4]⟩]
        (blankState PrefixHeader (Traits.identity 3)) = .ok ⟨⟩ s' ∧
      SameBound (Traits.identity 3) (fun comparison => comparison != .gt) ⟨#v[1, 1, 9]⟩ s s'
        (Departs (storedKeys (Traits.identity 3) s) ⟨#v[1, 1, 9]⟩) := by
  have fits : 3 ≤ 65536 := by decide
  obtain ⟨s, s', run, run', lock⟩ := insertAll_lockstep fits (Traits.identity 3)
    [⟨#v[1, 2, 3]⟩, ⟨#v[1, 2, 4]⟩]
  exact ⟨s, s', run, run', (interchangeable fits (Traits.identity 3) s s' lock).2.2 _ rfl rfl _⟩

end CppArt
