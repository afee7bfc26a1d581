/-
**Links stay consistent and iterators stay valid.**

In a tree that is represented every node below an inner node has that node as its `_parent`, and the
subtrees of different slots share no address; so the two directions of the links agree
(`Holds.linked`). A call that spares an element leaves its leaf where it is (`perform_spec`), and so
does a run of such calls (`SparingRun.keeps`, by induction on the run).

* `links_stay`: both, for the two containers.
-/

import CppArt.Model.Links
import CppArt.Proof.CopyLayout
import CppArt.Proof.Iteration
import CppArt.Proof.Shape

namespace CppArt

open Table

variable {H K V : Type} {n : ℕ}

/-! ### The slots of a layout -/

/-- **The pointer in a slot** is the child of the byte that owns the slot. -/
theorem Layout.slotAt_eq_some {l : Layout} (wf : l.WF) {i : ℕ} {c : Addr} (holds : l.slotAt i = some c) :
    ∃ b, l.child b = some c ∧ l.slotOf b = i := by
  have sorted : ∀ {cap : ℕ} {nd : SortedNode cap}, nd.WF →
      (if i < nd.count then (nd.children[i]?).join else none) = some c →
      ∃ b, nd.find b = some c ∧ nd.lowerPos b = i := by
    intro cap nd wf holds
    split_ifs at holds with inUse
    exact ⟨nd.key i, (wf.find_key inUse).trans holds, wf.lowerPos_key inUse⟩
  cases l with
  | node4 nd => exact sorted wf holds
  | node16 nd => exact sorted wf holds
  | node48 nd =>
      have cell : nd.children[i]? = some (some c) := Option.join_eq_some_iff.mp holds
      obtain ⟨b, inUse, index⟩ := wf.owned i c cell
      refine ⟨b, ?_, index⟩
      show nd.child b = some c
      rw [Node48.child, if_pos inUse, Node48.entry, index, cell]
      rfl
  | node256 nd =>
      have cell : nd.children[i]? = some (some c) := Option.join_eq_some_iff.mp holds
      obtain ⟨lt, here⟩ := Vector.getElem?_eq_some_iff.mp cell
      exact ⟨Fin.ofNat 256 i, by simpa [child, Node256.find, ByteTable.read, Nat.mod_eq_of_lt lt] using here,
        Nat.mod_eq_of_lt lt⟩

/-! ### Links -/

section Links

variable [Header H] [HeaderSpec H] {tr : Traits K V n} {s : St H K V n} {e : Addr} {M : Contents n V}
  {own : Set Addr}

/-- The child in a slot of an inner node, below which the table goes on. -/
theorem Holds.child_of_slot (holds : Holds tr s e M own) {a c : Addr} {h : H} {l : Layout} {i : ℕ}
    (inner : IsInner s a h l) (slot : l.slotAt i = some c) :
    ∃ b body, l.child b = some c ∧ l.slotOf b = i ∧ s.mem.get c = some ⟨some a, body⟩ := by
  obtain ⟨reached, p, cell⟩ := inner
  obtain ⟨p', d', m', own', rep, -⟩ := holds.at_reached reached
  obtain ⟨sub, parts, -, -⟩ := rep.parts cell
  obtain ⟨b, child, index⟩ := Layout.slotAt_eq_some parts.wf slot
  obtain ⟨body, here⟩ := (parts.kid b c child).top_cell
  exact ⟨b, body, child, index, here⟩

/-- **Links are consistent** in a tree that is represented. -/
theorem Holds.linked (holds : Holds tr s e M own) : Linked s where
  child a h l i c inner slot := by
    obtain ⟨b, body, -, -, here⟩ := holds.child_of_slot inner slot
    exact ⟨body, here⟩
  root r root := by
    obtain ⟨rest, ctx, rep, -, -⟩ := holds.path root (tr.defaultTransform tr.defaultKey)
    exact rep.top_cell
  once a h l i a' h' l' i' c inner slot inner' slot' := by
    obtain ⟨b, body, child, index, here⟩ := holds.child_of_slot inner slot
    obtain ⟨b', body', child', index', here'⟩ := holds.child_of_slot inner' slot'
    rw [here, Option.some.injEq, Cell.mk.injEq, Option.some.injEq] at here'
    obtain ⟨rfl, rfl⟩ := here'
    obtain ⟨reached, p, cell⟩ := inner
    obtain ⟨-, p', cell'⟩ := inner'
    rw [cell, Option.some.injEq, Cell.mk.injEq, Body.inner.injEq] at cell'
    obtain ⟨-, rfl, rfl⟩ := cell'
    obtain ⟨_, d', m', own', rep, -⟩ := holds.at_reached reached
    obtain ⟨sub, parts, -, -⟩ := rep.parts cell
    refine ⟨rfl, ?_⟩
    by_cases same : b = b'
    · rw [← index, ← index', same]
    · exact absurd (parts.kid b' c child').top_mem
        (Set.disjoint_left.mp (parts.disjoint b b' same) (parts.kid b c child).top_mem)
  top a h l i r root inner slot := by
    obtain ⟨b, body, -, -, here⟩ := holds.child_of_slot inner slot
    obtain ⟨rest, ctx, rep, -, -⟩ := holds.path root (tr.defaultTransform tr.defaultKey)
    obtain ⟨body', top⟩ := rep.top_cell
    rw [here, Option.some.injEq, Cell.mk.injEq, Option.some.injEq] at top
    obtain ⟨-, p, cell⟩ := inner
    rw [top.1, ctx.sentinel.2.1] at cell
    cases cell

end Links

/-! ### Iterators that stay -/

section Stability

variable [Variant H] [HeaderSpec H] [LawfulVariant H] {tr : Traits K V n} {s s' : St H K V n}
  {m m' : Table Byte n V} {it : Addr} {v : V}

omit [LawfulVariant H] in
/-- A call that spares an element does not drop its key. -/
theorem Call.Spares.stays {e : Addr} {M : Contents n V} {own : Set Addr} (holds : Holds tr s e M own)
    (entry : M (tr.keyOf v) = some (it, v)) {call : Call K V} (spares : call.Spares tr it v)
    (effect : call.Effect tr s (values M) m') : m' (tr.keyOf v) ≠ none := by
  have present : tr.keyOf v ∈ dom (values M) := by
    rw [dom_values]
    exact mem_dom_of_eq_some entry
  have putNew_stays : ∀ x : V, (values M).putNew (tr.keyOf x) x (tr.keyOf v) ≠ none := by
    intro x
    show tr.keyOf v ∈ dom _
    rw [dom_putNew]
    exact Or.inr present
  have drop_stays : ∀ {k : Key n}, k ≠ tr.keyOf v → drop (values M) k (tr.keyOf v) ≠ none := by
    intro k other
    show tr.keyOf v ∈ dom _
    rw [dom_drop]
    exact ⟨present, fun same => other same.symm⟩
  cases effect with
  | insert x => exact putNew_stays x
  | emplace x => exact putNew_stays x
  | erase k => exact drop_stays spares
  | eraseAt it' v' stored =>
      refine drop_stays fun same => spares ?_
      exact holds.represents.unique it' it v' v stored (holds.stored_iff.mpr entry) same
  | clear => exact spares.elim

/-- **A run that spares an element** keeps the invariant and the leaf of the element. -/
theorem SparingRun.keeps (admits : Admits H n) {e : Addr} {M : Contents n V} {own : Set Addr}
    (holds : Holds tr s e M own) (entry : M (tr.keyOf v) = some (it, v))
    (run : SparingRun tr it v s (values M) s' m') :
    ∃ e' M' own', Holds tr s' e' M' own' ∧ values M' = m' ∧ M' (tr.keyOf v) = some (it, v) := by
  induction run with
  | refl => exact ⟨e, M, own, holds, rfl, entry⟩
  | call before spares effect run ih =>
      obtain ⟨e', M', own', holds', rfl, entry'⟩ := ih
      obtain ⟨answer, t, M₁, own₁, run₁, holds₁, -, same, -, stays⟩ :=
        perform_spec admits holds' effect
      rw [run] at run₁
      cases run₁
      exact ⟨e', M₁, own₁, holds₁, same, stays _ _ entry' (spares.stays holds' entry' effect)⟩

omit [Variant H] [LawfulVariant H] in
/-- **The leaf of an element** has its value, and `++` and `--` lead to its neighbours. -/
theorem Holds.steady [Header H] [HeaderSpec H] {e : Addr} {M : Contents n V} {own : Set Addr}
    (holds : Holds tr s e M own) (entry : M (tr.keyOf v) = some (it, v)) :
    Steady tr s (values M) it v where
  stored := holds.stored_iff.mpr entry
  value := by
    obtain ⟨-, -, -, q, cell⟩ := holds.entry entry
    exact leafValue_ok cell
  next := by
    obtain ⟨next, run, follows⟩ := increment_spec holds entry
    refine ⟨next, run, ?_⟩
    rw [dom_values]
    exact holds.pointsTo follows
  prev := by
    rw [dom_values]
    rcases advance_spec holds entry .down with ⟨w, prev, u, run, entry', first⟩ | ⟨none, -⟩
    · obtain ⟨stored, key⟩ := holds.stored_of_entry entry'
      refine .inl ⟨prev, u, run, stored, ?_⟩
      rw [key]
      exact Dir.isFirst_down_iff.mp first
    · -- no key is smaller, so the element is the first one
      rcases beginIt_spec holds with ⟨rfl, -⟩ | ⟨w, first, u, run, entry', least⟩
      · cases entry
      · have present := mem_dom_of_eq_some entry
        obtain rfl : w = tr.keyOf v := by
          by_contra other
          exact none w least.1 (least.2 _ present (Ne.symm other))
        rw [entry, Option.some.injEq, Prod.mk.injEq] at entry'
        rw [entry'.1]
        exact .inr run

/-- **Links and iterators after every history.** -/
theorem History.links (admits : Admits H n) (history : History tr s m) :
    Linked s ∧ ∀ it v s' m', Stored s it v → SparingRun tr it v s m s' m' → Steady tr s' m' it v := by
  obtain ⟨e, M, own, holds, rfl⟩ := history.holds admits
  refine ⟨holds.linked, fun it v s' m' stored run => ?_⟩
  obtain ⟨e', M', own', holds', rfl, entry⟩ := run.keeps admits holds (holds.stored_iff.mp stored)
  exact holds'.steady entry

end Stability

/-! ### The two containers -/

/-- **Links are consistent and iterators stay valid** in `ar_tree`, and in `ar_prefix_tree` for keys
whose prefix lengths fit `_prefix_length`. -/
theorem links_stay :
    (∀ {K V : Type} {n : ℕ} (tr : Traits K V n) (s : ArTree.State K V n) (m : Table Byte n V),
      History tr s m → Linked s ∧
        ∀ it v s' m', Stored s it v → SparingRun tr it v s m s' m' → Steady tr s' m' it v) ∧
    ∀ {K V : Type} {n : ℕ} (tr : Traits K V n) (s : ArPrefixTree.State K V n) (m : Table Byte n V),
      n ≤ 65536 → History tr s m → Linked s ∧
        ∀ it v s' m', Stored s it v → SparingRun tr it v s m s' m' → Steady tr s' m' it v :=
  ⟨fun _ _ _ history => history.links trivial, fun _ _ _ fits history => history.links fits⟩

/-- An element stays while another value is inserted and a third one is erased. -/
theorem History.exists_sparing [Variant H] [HeaderSpec H] [LawfulVariant H] (admits : Admits H n)
    {tr : Traits K V n} {s : St H K V n} {m : Table Byte n V} (history : History tr s m) {v : V}
    (present : m (tr.keyOf v) = some v) (x : V) {k : K} (other : tr.defaultTransform k ≠ tr.keyOf v) :
    ∃ it answer s₁ answer' s₂, Stored s it v ∧ perform tr (.insert x) s = .ok answer s₁ ∧
      perform tr (.erase k) s₁ = .ok answer' s₂ ∧
      SparingRun tr it v s m s₂ ((m.putNew (tr.keyOf x) x).drop (tr.defaultTransform k)) := by
  have refines := history.refines admits
  obtain ⟨it, stored, -⟩ := (refines.represents.entries _ _).mp present
  obtain ⟨answer, s₁, run, -⟩ := refines.perform _ _ (.insert x)
  have history₁ := history.call (.insert x) run
  obtain ⟨answer', s₂, run', -⟩ := (history₁.refines admits).perform _ _ (.erase k)
  have spares : (Call.insert x : Call K V).Spares tr it v := trivial
  have spares' : (Call.erase k : Call K V).Spares tr it v := other
  exact ⟨it, answer, s₁, answer', s₂, stored, run, run',
    (SparingRun.refl.call spares (.insert x) run).call spares' (.erase k) run'⟩

/-- Three keys in either container, and the element of one of them after an insertion and an erasure. -/
theorem links_stay_three :
    (∃ s, insertAll (Traits.identity 2) [⟨#v[1, 2]⟩, ⟨#v[1, 3]⟩, ⟨#v[0, 7]⟩]
        (blankState DepthHeader (Traits.identity 2)) = .ok ⟨⟩ s ∧ Linked s ∧
      ∃ it answer s₁ answer' s₂, Stored s it ⟨#v[1, 3]⟩ ∧
        perform (Traits.identity 2) (.insert ⟨#v[1, 4]⟩) s = .ok answer s₁ ∧
        perform (Traits.identity 2) (.erase ⟨#v[1, 2]⟩) s₁ = .ok answer' s₂ ∧
        Steady (Traits.identity 2) s₂ (((Table.ofList (Traits.identity 2)
          [⟨#v[1, 2]⟩, ⟨#v[1, 3]⟩, ⟨#v[0, 7]⟩]).putNew ⟨#v[1, 4]⟩ ⟨#v[1, 4]⟩).drop ⟨#v[1, 2]⟩) it
          ⟨#v[1, 3]⟩) ∧
    ∃ s, insertAll (Traits.identity 2) [⟨#v[1, 2]⟩, ⟨#v[1, 3]⟩, ⟨#v[0, 7]⟩]
        (blankState PrefixHeader (Traits.identity 2)) = .ok ⟨⟩ s ∧ Linked s ∧
      ∃ it answer s₁ answer' s₂, Stored s it ⟨#v[1, 3]⟩ ∧
        perform (Traits.identity 2) (.insert ⟨#v[1, 4]⟩) s = .ok answer s₁ ∧
        perform (Traits.identity 2) (.erase ⟨#v[1, 2]⟩) s₁ = .ok answer' s₂ ∧
        Steady (Traits.identity 2) s₂ (((Table.ofList (Traits.identity 2)
          [⟨#v[1, 2]⟩, ⟨#v[1, 3]⟩, ⟨#v[0, 7]⟩]).putNew ⟨#v[1, 4]⟩ ⟨#v[1, 4]⟩).drop ⟨#v[1, 2]⟩) it
          ⟨#v[1, 3]⟩ := by
  have fits : 2 ≤ 65536 := by decide
  have value : Table.ofList (Traits.identity 2) [⟨#v[1, 2]⟩, ⟨#v[1, 3]⟩, ⟨#v[0, 7]⟩] ⟨#v[1, 3]⟩
      = some ⟨#v[1, 3]⟩ := by decide
  have other : (⟨#v[1, 2]⟩ : Key 2) ≠ ⟨#v[1, 3]⟩ := by decide
  constructor
  · obtain ⟨s, run, history⟩ := insertAll_history (H := DepthHeader) trivial (Traits.identity 2)
      [⟨#v[1, 2]⟩, ⟨#v[1, 3]⟩, ⟨#v[0, 7]⟩]
    obtain ⟨it, answer, s₁, answer', s₂, stored, inserted, erased, sparing⟩ :=
      history.exists_sparing trivial value ⟨#v[1, 4]⟩ other
    obtain ⟨linked, stays⟩ := links_stay.1 _ s _ history
    exact ⟨s, run, linked, it, answer, s₁, answer', s₂, stored, inserted, erased,
      stays it _ s₂ _ stored sparing⟩
  · obtain ⟨s, run, history⟩ := insertAll_history (H := PrefixHeader) fits (Traits.identity 2)
      [⟨#v[1, 2]⟩, ⟨#v[1, 3]⟩, ⟨#v[0, 7]⟩]
    obtain ⟨it, answer, s₁, answer', s₂, stored, inserted, erased, sparing⟩ :=
      history.exists_sparing fits value ⟨#v[1, 4]⟩ other
    obtain ⟨linked, stays⟩ := links_stay.2 _ s _ fits history
    exact ⟨s, run, linked, it, answer, s₁, answer', s₂, stored, inserted, erased,
      stays it _ s₂ _ stored sparing⟩

/-- **Two keys of 65537 bytes** that differ in the last one: `++` from the smaller one does not lead to
the larger one. -/
theorem links_stay_stuck : ∃ (s : ArPrefixTree.State (Key 65537) (Key 65537) 65537) (it : Addr)
      (v : Key 65537),
    History (Traits.identity 65537) s (Table.ofList (Traits.identity 65537) [longKey 1, longKey 2]) ∧
      Stored s it v ∧ ¬ Steady (Traits.identity 65537) s
        (Table.ofList (Traits.identity 65537) [longKey 1, longKey 2]) it v := by
  obtain ⟨s, node, it, it', l, history, misplaced⟩ := exists_long_misplaced
  have less : (longKey 1).letter 65536 < (longKey 2).letter 65536 := longKey_letter_lt (by decide)
  have stored := misplaced.stored less
  have stuck := misplaced.increment (by omega) (longKey_below (by decide)) less
  refine ⟨s, it, longKey 1, history, stored, fun steady => ?_⟩
  obtain ⟨next, run, points⟩ := steady.next
  rw [stuck] at run
  cases run
  rcases points with ⟨v, stored', least⟩ | ⟨none, -⟩
  · obtain ⟨r, p, -, -, cell⟩ := stored
    obtain ⟨r', p', -, -, cell'⟩ := stored'
    rw [cell, Option.some.injEq, Cell.mk.injEq, Body.leaf.injEq] at cell'
    rw [← cell'.2] at least
    exact lt_irrefl _ least.1.2
  · have above : longKey 2 ∈ {u | u ∈ dom (Table.ofList (Traits.identity 65537)
        [longKey 1, longKey 2]) ∧ (Traits.identity 65537).keyOf (longKey 1) < u} := by
      refine ⟨?_, longKey_lt (by decide)⟩
      rw [dom_ofList]
      exact ⟨longKey 2, by simp, rfl⟩
    rw [none] at above
    exact above

end CppArt
