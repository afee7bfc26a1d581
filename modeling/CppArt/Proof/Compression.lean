/-
**The prefix tree is the path compression of the plain tree.**

After the same calls the two trees represent the same map, and a node is determined by the keys below
it and the position at which they differ. So the trees are compared through the keys.

* `Splits`: the position at which the keys of a set part;
* `Holds.exists_split`, `Holds.split_unique`: the inner node of a tree where the keys part;
* `ArTree.descend`: the chain of nodes with one child from a node down to the next place where its keys
  part;
* `compression`: the correspondence, after every step.
-/

import CppArt.Model.Compression
import CppArt.Proof.Refinement
import CppArt.Proof.Shape

namespace CppArt

open Table

variable {K V : Type} {n : ℕ} {tr : Traits K V n}

/-! ### The same calls -/

/-- **The same calls have the same effect** on a reference map. -/
theorem SameCall.effect {s : ArTree.State K V n} {s' : ArPrefixTree.State K V n} {call call' : Call K V}
    (same : SameCall tr s s' call call') (m : Table Byte n V) :
    ∃ m', call.Effect tr s m m' ∧ call'.Effect tr s' m m' := by
  cases same with
  | insert x => exact ⟨_, .insert x, .insert x⟩
  | emplace x => exact ⟨_, .emplace x, .emplace x⟩
  | erase k => exact ⟨_, .erase k, .erase k⟩
  | eraseAt it it' v v' stored stored' key =>
      refine ⟨_, .eraseAt it v stored, ?_⟩
      rw [key]
      exact .eraseAt it' v' stored'
  | clear => exact ⟨_, .clear, .clear⟩

/-- **After the same calls** the two trees have the same reference map. -/
theorem Lockstep.history {s : ArTree.State K V n} {s' : ArPrefixTree.State K V n}
    (lock : Lockstep tr s s') : ∃ m, History tr s m ∧ History tr s' m := by
  induction lock with
  | start calm calm' run run' => exact ⟨Table.empty, .start calm run, .start calm' run'⟩
  | call before same run run' ih =>
      obtain ⟨m, history, history'⟩ := ih
      obtain ⟨m', effect, effect'⟩ := same.effect m
      exact ⟨m', history.call effect run, history'.call effect' run'⟩

/-- **The same call returns** on both trees. -/
theorem Lockstep.next (fits : n ≤ 65536) {s : ArTree.State K V n} {s' : ArPrefixTree.State K V n}
    {call call' : Call K V} (lock : Lockstep tr s s') (same : SameCall tr s s' call call') :
    ∃ answer answer' t t', perform tr call s = .ok answer t ∧ perform tr call' s' = .ok answer' t' ∧
      Lockstep tr t t' := by
  obtain ⟨m, history, history'⟩ := lock.history
  obtain ⟨m', effect, effect'⟩ := same.effect m
  obtain ⟨answer, t, run, -⟩ := (history.refines trivial).perform _ _ effect
  obtain ⟨answer', t', run', -⟩ := (history'.refines fits).perform _ _ effect'
  exact ⟨answer, answer', t, t', run, run', lock.call same run run'⟩

/-- **The values of a list are inserted into both trees.** -/
theorem insertAll_lockstep (fits : n ≤ 65536) (tr : Traits K V n) (xs : List V) :
    ∃ s s', insertAll tr xs (blankState DepthHeader tr) = .ok ⟨⟩ s ∧
      insertAll tr xs (blankState PrefixHeader tr) = .ok ⟨⟩ s' ∧ Lockstep tr s s' := by
  obtain ⟨s, run, -⟩ := insertAll_history (H := DepthHeader) trivial tr xs
  obtain ⟨s', run', -⟩ := insertAll_history (H := PrefixHeader) fits tr xs
  refine ⟨s, s', run, run', ?_⟩
  obtain ⟨⟨⟩, s₀, founded, rest⟩ := Exec.bind_eq_ok.mp run
  obtain ⟨⟨⟩, s₀', founded', rest'⟩ := Exec.bind_eq_ok.mp run'
  have lock : Lockstep tr s₀ s₀' := .start rfl rfl founded founded'
  clear run run' founded founded'
  induction xs generalizing s₀ s₀' with
  | nil =>
      cases rest
      cases rest'
      exact lock
  | cons x xs ih =>
      obtain ⟨⟨⟩, s₁, first, rest⟩ := Exec.bind_eq_ok.mp rest
      obtain ⟨⟨⟩, s₁', first', rest'⟩ := Exec.bind_eq_ok.mp rest'
      obtain ⟨pair, t, inserted, finish⟩ := Exec.bind_eq_ok.mp first
      obtain ⟨pair', t', inserted', finish'⟩ := Exec.bind_eq_ok.mp first'
      cases finish
      cases finish'
      exact ih _ rest _ rest' (lock.call (.insert x) (Exec.bind_of_ok inserted _)
        (Exec.bind_of_ok inserted' _))

/-! ### Where keys part -/

/-- The keys of a set agree up to a position, and there are two that differ at the position. -/
def Splits (S : Set (Key n)) (r : ℕ) : Prop :=
  (∀ v ∈ S, ∀ w ∈ S, Word.Agree r v w) ∧ ∃ v ∈ S, ∃ w ∈ S, v.letter r ≠ w.letter r

theorem Splits.le {S : Set (Key n)} {r r' : ℕ} (one : Splits S r) (two : Splits S r') : r' ≤ r := by
  obtain ⟨v, inV, w, inW, differ⟩ := one.2
  by_contra less
  exact differ (two.1 v inV w inW r (Nat.lt_of_not_le less))

theorem Splits.unique {S : Set (Key n)} {r r' : ℕ} (one : Splits S r) (two : Splits S r') : r = r' :=
  Nat.le_antisymm (two.le one) (one.le two)

theorem Splits.nontrivial {S : Set (Key n)} {r : ℕ} (splits : Splits S r) : S.Nontrivial := by
  obtain ⟨v, inV, w, inW, differ⟩ := splits.2
  exact ⟨v, inV, w, inW, fun same => differ (congrArg (fun u => Word.letter u r) same)⟩

section Nodes

variable {H : Type} [Header H] [HeaderSpec H] {s : St H K V n} {e a x : Addr} {M : Contents n V}
  {own : Set Addr}

/-- A node has several children exactly when its keys part at its position. -/
theorem Rep.Parts.splits_iff {mem : Memory (Cell H V)} {d : ℕ} {m : Contents n V} {h : H} {l : Layout}
    {sub : Byte → Set Addr} (parts : Rep.Parts tr mem a d m h l sub) :
    2 ≤ l.count ↔ Splits (dom m) (branch h) := by
  constructor
  · intro two
    rw [Layout.count_eq parts.wf] at two
    obtain ⟨b, inB, c, inC, differ⟩ := Finset.one_lt_card.mp two
    obtain ⟨v, inV, rfl⟩ := parts.child_ne_none.mp (Finset.mem_filter.mp inB).2
    obtain ⟨w, inW, rfl⟩ := parts.child_ne_none.mp (Finset.mem_filter.mp inC).2
    exact ⟨parts.shared, v, inV, w, inW, differ⟩
  · intro splits
    obtain ⟨v, inV, w, inW, differ⟩ := splits.2
    exact Layout.two_le_count parts.wf (parts.child_ne_none.mpr ⟨v, inV, rfl⟩)
      (parts.child_ne_none.mpr ⟨w, inW, rfl⟩) differ

/-- The branch bytes of a node are the letters of its keys. -/
theorem Rep.Parts.branchBytes_letters {mem : Memory (Cell H V)} {d : ℕ} {m : Contents n V} {h : H}
    {l : Layout} {sub : Byte → Set Addr} (parts : Rep.Parts tr mem a d m h l sub) :
    l.branchBytes = {b | ∃ w ∈ dom m, w.letter (branch h) = b} := by
  ext b
  rw [Layout.mem_branchBytes parts.wf, parts.child_ne_none]
  rfl

/-- The keys of a node are those on its path. -/
theorem Rep.Parts.keys_eq {mem : Memory (Cell H V)} {d : ℕ} {m : Contents n V} {h : H} {l : Layout}
    {sub : Byte → Set Addr} (parts : Rep.Parts tr mem a d m h l sub)
    (entries : ∀ k ∈ dom m, k ∈ dom M ∧ m = under M k d) {k : Key n} (member : k ∈ dom m) :
    dom m = {v | v ∈ dom M ∧ Word.Agree (branch h) k v} := by
  ext v
  constructor
  · intro inside
    exact ⟨(entries v inside).1, parts.shared k member v inside⟩
  · intro inside
    rw [(entries k member).2, mem_dom, under_of_agree (inside.2.mono parts.depth_le)]
    exact inside.1

/-- **There is an inner node where the keys on a path part.** -/
theorem Holds.exists_split (holds : Holds tr s e M own) {r : ℕ} {k : Key n}
    (broad : Broad H r {v | v ∈ dom M ∧ Word.Agree r k v}) :
    ∃ x h l, IsInner s x h l ∧ branch h = r ∧
      keysBelow tr s.mem x = {v | v ∈ dom M ∧ Word.Agree r k v} := by
  rcases root : s.tree.root with _ | top
  · obtain ⟨w, member⟩ := (HeaderSpec.broad_nontrivial broad).nonempty
    rw [holds.eq_empty root] at member
    exact absurd rfl member.1
  · obtain ⟨rest, ctx, rep, -, -⟩ := holds.path root k
    rw [under_zero] at rep
    obtain ⟨x, q, h, l, reached, cell, here, keys⟩ := rep.exists_inner (Nat.zero_le r) broad
    exact ⟨x, h, l, ⟨⟨top, root, reached⟩, q, cell⟩, here, keys⟩

/-- **And there is one only.** -/
theorem Holds.split_unique (holds : Holds tr s e M own) {h h' : H} {l l' : Layout}
    (innerA : IsInner s a h l) (innerX : IsInner s x h' l') (same : branch h = branch h')
    (keys : keysBelow tr s.mem a = keysBelow tr s.mem x) (nonempty : (keysBelow tr s.mem a).Nonempty) :
    a = x := by
  obtain ⟨⟨top, root, reachedA⟩, p, cellA⟩ := innerA
  obtain ⟨⟨top', root', reachedX⟩, q, cellX⟩ := innerX
  rw [root, Option.some.injEq] at root'
  subst root'
  obtain ⟨k, member⟩ := nonempty
  obtain ⟨rest, ctx, rep, -, -⟩ := holds.path root k
  exact rep.inner_unique reachedA reachedX cellA cellX same member (keys ▸ member)

end Nodes

/-! ### Chains of nodes with one child -/

theorem OneWay.reaches {H : Type} {mem : Memory (Cell H V)} {a x : Addr} {bytes : List Byte}
    (chain : OneWay mem a bytes x) : Below mem a x := by
  induction chain with
  | refl a => exact .refl a
  | step cell one slot rest ih => exact .child cell slot ih

/-- **From a node with several keys down to the place where they part.** -/
theorem ArTree.descend {mem : Memory (Cell DepthHeader V)} {p a : Addr} {d : ℕ} {m : Contents n V}
    {own : Set Addr} (rep : Rep tr mem p a d m own) (several : (dom m).Nontrivial) :
    ∃ bytes x q h l, OneWay mem a bytes x ∧ mem.get x = some ⟨q, .inner h l⟩ ∧ 2 ≤ l.count ∧
      keysBelow tr mem x = dom m ∧ h.depth = d + bytes.length ∧
      ∀ w ∈ dom m, ∀ i (lt : i < bytes.length), bytes[i] = w.letter (d + i) := by
  induction rep with
  | leaf cell le =>
      rw [dom_single] at several
      exact absurd several Set.not_nontrivial_singleton
  | @inner p a d m h l sub cell wf fits bound shared describes broad bare kid apart disjoint ih =>
      have rep := Rep.inner cell wf fits bound shared describes broad bare kid apart disjoint
      obtain ⟨sub', parts, -, -⟩ := rep.parts cell
      obtain ⟨k, member⟩ := several.nonempty
      have depth : h.depth = d := describes k member
      by_cases two : 2 ≤ l.count
      · exact ⟨[], a, some p, h, l, .refl a, cell, two, rep.keysBelow_eq, depth,
          fun w _ i lt => absurd lt (Nat.not_lt_zero i)⟩
      · obtain ⟨c, slot⟩ := parts.child_of_mem member
        have letters : ∀ w ∈ dom m, w.letter (branch h) = k.letter (branch h) := by
          intro w inside
          by_contra differ
          exact two (parts.splits_iff.mpr ⟨shared, w, inside, k, member, differ⟩)
        have same : dom (fiber m (branch h) (k.letter (branch h))) = dom m := by
          ext w
          rw [mem_dom_fiber]
          exact ⟨fun inside => inside.2, fun inside => ⟨letters w inside, inside⟩⟩
        have one : l.count = 1 := by
          have some := Layout.count_pos_of_child wf slot
          omega
        obtain ⟨bytes, x, q, h', l', chain, cell', two', keys, length, spelled⟩ :=
          ih _ c slot (same ▸ several)
        have position : branch h = d := depth
        rw [position] at length spelled letters
        refine ⟨k.letter d :: bytes, x, q, h', l', ?_, cell', two', keys.trans same, ?_, ?_⟩
        · rw [position] at slot
          exact .step cell one ((Layout.find_eq_some wf).mpr slot) chain
        · rw [length, List.length_cons]
          omega
        · intro w inside i lt
          cases i with
          | zero => exact (letters w inside).symm
          | succ i =>
              have here := spelled w (by rw [position] at same; rwa [same]) i (Nat.lt_of_succ_lt_succ lt)
              rw [show d + 1 + i = d + (i + 1) by omega] at here
              exact here

/-! ### Corresponding nodes -/

section Trees

variable {s : ArTree.State K V n} {s' : ArPrefixTree.State K V n} {e e' a a' : Addr}
  {M M' : Contents n V} {own own' : Set Addr}

/-- What is known of corresponding nodes: their keys and where they part. -/
theorem Twin.splits (holds : Holds tr s e M own) (holds' : Holds tr s' e' M' own') {h : DepthHeader}
    {l : Layout} {h' : PrefixHeader} {l' : Layout} (twin : Twin tr s s' a a') (inner : IsInner s a h l)
    (inner' : IsInner s' a' h' l') :
    Splits (keysBelow tr s.mem a) (branch h) ∧ branch h = branch h' := by
  obtain ⟨⟨h₀, l₀, ⟨reached, q, cell⟩, two⟩, -, keys⟩ := twin
  obtain ⟨-, q', cell₀⟩ := inner
  rw [cell] at cell₀
  cases cell₀
  obtain ⟨reached', p', cell'⟩ := inner'
  obtain ⟨p, d, m, sub, rep, -⟩ := holds.at_reached reached
  obtain ⟨p', d', m', sub', rep', -⟩ := holds'.at_reached reached'
  obtain ⟨_, parts, -, -⟩ := rep.parts cell
  obtain ⟨_, parts', -, -⟩ := rep'.parts cell'
  have splits := parts.splits_iff.mp two
  have splits' : Splits (dom m') (branch h') := ⟨parts'.shared, parts'.broad⟩
  rw [rep.keysBelow_eq] at keys ⊢
  rw [rep'.keysBelow_eq] at keys
  rw [← keys] at splits'
  exact ⟨splits, splits.unique splits'⟩

/-- **A node of the plain tree with several children has one twin.** -/
theorem Holds.exists_twin (holds : Holds tr s e M own) (holds' : Holds tr s' e' M' own')
    (keys : dom M = dom M') {h : DepthHeader} {l : Layout} (inner : IsInner s a h l)
    (two : 2 ≤ l.count) : ∃! a', Twin tr s s' a a' := by
  obtain ⟨reached, q, cell⟩ := inner
  obtain ⟨p, d, m, sub, rep, entries⟩ := holds.at_reached reached
  obtain ⟨_, parts, -, -⟩ := rep.parts cell
  have splits := parts.splits_iff.mp two
  obtain ⟨k, member⟩ := rep.nonempty
  have here := parts.keys_eq entries member
  have broad := splits.2
  rw [here, keys] at broad
  obtain ⟨x, h', l', inner', position, keys'⟩ := holds'.exists_split (H := PrefixHeader) broad
  have twin : Twin tr s s' a x := by
    refine ⟨⟨h, l, ⟨reached, q, cell⟩, two⟩, ⟨h', l', inner'⟩, ?_⟩
    rw [rep.keysBelow_eq, keys', here, keys]
  refine ⟨x, twin, fun y other => ?_⟩
  obtain ⟨h₁, l₁, innerY⟩ := other.inner
  have positionY := (other.splits holds holds' ⟨reached, q, cell⟩ innerY).2
  refine holds'.split_unique innerY inner' (positionY.symm.trans position.symm) ?_ ?_
  · exact other.keys.symm.trans twin.keys
  · rw [← other.keys, rep.keysBelow_eq]
    exact rep.nonempty

/-- **An inner node of the prefix tree has one twin.** -/
theorem Holds.exists_twin' (holds : Holds tr s e M own) (holds' : Holds tr s' e' M' own')
    (keys : dom M = dom M') {h' : PrefixHeader} {l' : Layout} (inner' : IsInner s' a' h' l') :
    ∃! a, Twin tr s s' a a' := by
  obtain ⟨reached', q', cell'⟩ := inner'
  obtain ⟨p', d', m', sub', rep', entries'⟩ := holds'.at_reached reached'
  obtain ⟨_, parts', -, -⟩ := rep'.parts cell'
  have splits' : Splits (dom m') (branch h') := ⟨parts'.shared, parts'.broad⟩
  obtain ⟨k, member⟩ := rep'.nonempty
  have here := parts'.keys_eq entries' member
  have broad := splits'.nontrivial
  rw [here, ← keys] at broad
  obtain ⟨x, h, l, inner, position, keysX⟩ := holds.exists_split (H := DepthHeader) broad
  have same : keysBelow tr s.mem x = keysBelow tr s'.mem a' := by
    rw [rep'.keysBelow_eq, keysX, here, keys]
  have two : 2 ≤ l.count := by
    obtain ⟨reached, q, cell⟩ := inner
    obtain ⟨p, d, m, sub, rep, -⟩ := holds.at_reached reached
    obtain ⟨_, parts, -, -⟩ := rep.parts cell
    rw [parts.splits_iff, position, ← rep.keysBelow_eq, same, rep'.keysBelow_eq]
    exact splits'
  have twin : Twin tr s s' x a' := ⟨⟨h, l, inner, two⟩, ⟨h', l', reached', q', cell'⟩, same⟩
  refine ⟨x, twin, fun y other => ?_⟩
  obtain ⟨h₁, l₁, innerY, -⟩ := other.several
  have positionY := (other.splits holds holds' innerY ⟨reached', q', cell'⟩).2
  refine holds.split_unique innerY inner (positionY.trans position.symm) ?_ ?_
  · exact other.keys.trans twin.keys.symm
  · rw [other.keys, rep'.keysBelow_eq]
    exact rep'.nonempty

/-- **Nodes with the same keys lead to corresponding subtrees.** -/
theorem Holds.leads (holds : Holds tr s e M own) (holds' : Holds tr s' e' M' own')
    (values : values M = values M') {c c' : Addr} (reached : Reached s c) (reached' : Reached s' c')
    (keys : keysBelow tr s.mem c = keysBelow tr s'.mem c') : Leads tr s s' c c' := by
  obtain ⟨p, d, m, sub, rep, entries⟩ := holds.at_reached reached
  obtain ⟨p', d', m', sub', rep', entries'⟩ := holds'.at_reached reached'
  rw [rep.keysBelow_eq, rep'.keysBelow_eq] at keys
  rcases rep'.inspect with ⟨v', cell', table', -⟩ | ⟨h', l', cell', -⟩
  · rcases rep.inspect with ⟨v, cell, table, -⟩ | ⟨h, l, cell, -⟩
    · rw [table, table', dom_single, dom_single] at keys
      have key : tr.keyOf v = tr.keyOf v' := Set.singleton_injective keys
      have entry : M (tr.keyOf v) = some (c, v) := by
        obtain ⟨-, on⟩ := entries (tr.keyOf v) (by simp [table])
        have here := congrFun on (tr.keyOf v)
        rw [table, single_apply, if_pos rfl, under_of_agree (Word.Agree.refl d _)] at here
        exact here.symm
      have entry' : M' (tr.keyOf v') = some (c', v') := by
        obtain ⟨-, on⟩ := entries' (tr.keyOf v') (by simp [table'])
        have here := congrFun on (tr.keyOf v')
        rw [table', single_apply, if_pos rfl, under_of_agree (Word.Agree.refl d' _)] at here
        exact here.symm
      have value := values_eq_some.mpr ⟨c, entry⟩
      rw [values, key, values_eq_some] at value
      obtain ⟨it, stored⟩ := value
      rw [entry', Option.some.injEq, Prod.mk.injEq] at stored
      rw [stored.2] at cell'
      exact .inl ⟨some p, some p', v, cell, cell'⟩
    · have several := HeaderSpec.broad_nontrivial (rep.broad cell)
      rw [keys, table', dom_single] at several
      exact absurd several Set.not_nontrivial_singleton
  · have several := HeaderSpec.broad_nontrivial (rep'.broad cell')
    rw [← keys] at several
    obtain ⟨bytes, x, q, h, l, chain, cell, two, keysX, -⟩ := ArTree.descend rep several
    obtain ⟨top, root, path⟩ := reached
    refine .inr ⟨bytes, x, chain, ⟨h, l, ⟨⟨top, root, path.trans chain.reaches⟩, q, cell⟩, two⟩,
      ⟨h', l', reached', some p', cell'⟩, ?_⟩
    rw [keysX, keys, rep'.keysBelow_eq]

/-- The prefix of a node, read off the chain that ends at its twin. -/
theorem Holds.chain_of_top (holds : Holds tr s e M own) (holds' : Holds tr s' e' M' own')
    {h : DepthHeader} {l : Layout} {h' : PrefixHeader} {l' : Layout} (twin : Twin tr s s' a a')
    (inner : IsInner s a h l) (inner' : IsInner s' a' h' l') {p c : Addr} {m : Contents n V}
    {sub : Set Addr} (reached : Reached s c) (rep : Rep tr s.mem p c h'.depth m sub)
    (keys : keysBelow tr s.mem c = keysBelow tr s'.mem a')
    (stop : ∀ q h l, s.mem.get p = some ⟨q, .inner h l⟩ → l.count ≠ 1) :
    ∃ bytes, OneWayAbove s.mem a bytes ∧ h'.prefixLength = bytes.length ∧
      ∀ i < min h'.prefixLength maxPrefixLength, h'.stored[i]? = bytes[i]? := by
  obtain ⟨splits, position⟩ := twin.splits holds holds' inner inner'
  rw [rep.keysBelow_eq] at keys
  rw [twin.keys, ← keys] at splits
  obtain ⟨bytes, x, q, h₁, l₁, chain, cell, two, keysX, length, spelled⟩ :=
    ArTree.descend rep splits.nontrivial
  obtain ⟨top, root, path⟩ := reached
  have innerX : IsInner s x h₁ l₁ := ⟨⟨top, root, path.trans chain.reaches⟩, q, cell⟩
  have same : keysBelow tr s.mem x = keysBelow tr s'.mem a' := keysX.trans keys
  have twinX : Twin tr s s' x a' := ⟨⟨h₁, l₁, innerX, two⟩, twin.inner, same⟩
  have positionX := (twinX.splits holds holds' innerX inner').2
  have here : x = a := by
    refine holds.split_unique innerX inner (positionX.trans position.symm)
      (same.trans twin.keys.symm) ?_
    rw [keysX]
    exact rep.nonempty
  subst here
  have count : h'.prefixLength = bytes.length := by
    have sum : h₁.depth = h'.depth + h'.prefixLength := positionX
    omega
  obtain ⟨body, above⟩ := rep.top_cell
  refine ⟨bytes, ⟨c, p, body, chain, above, stop⟩, count, fun i lt => ?_⟩
  obtain ⟨reached', q', cell'⟩ := inner'
  obtain ⟨p', d', m', sub', rep', -⟩ := holds'.at_reached reached'
  obtain ⟨_, parts', -, -⟩ := rep'.parts cell'
  obtain ⟨w, member⟩ := rep'.nonempty
  obtain ⟨rfl, spells⟩ := parts'.describes w member
  have inside : i < bytes.length := by omega
  rw [rep'.keysBelow_eq] at keys
  rw [spells i lt, List.getElem?_eq_getElem inside, spelled w (keys ▸ member) i inside]

/-- **What corresponding nodes have in common.** -/
theorem Holds.alike (holds : Holds tr s e M own) (holds' : Holds tr s' e' M' own')
    (values : values M = values M') {h : DepthHeader} {l : Layout} {h' : PrefixHeader} {l' : Layout}
    (twin : Twin tr s s' a a') (inner : IsInner s a h l) (inner' : IsInner s' a' h' l') :
    Alike tr s s' a h l h' l' := by
  have position := (twin.splits holds holds' inner inner').2
  have keys := twin.keys
  obtain ⟨reached, q, cell⟩ := inner
  obtain ⟨reached', q', cell'⟩ := inner'
  obtain ⟨p, d, m, sub, rep, -⟩ := holds.at_reached reached
  obtain ⟨p', d', m', sub', rep', -⟩ := holds'.at_reached reached'
  obtain ⟨_, parts, -, -⟩ := rep.parts cell
  obtain ⟨_, parts', -, -⟩ := rep'.parts cell'
  rw [rep.keysBelow_eq, rep'.keysBelow_eq] at keys
  have bytes : l.branchBytes = l'.branchBytes := by
    rw [parts.branchBytes_letters, parts'.branchBytes_letters, keys, position]
  have wholeKeys : dom M = dom M' := by rw [← dom_values M, values, dom_values]
  refine ⟨?_, position, bytes, fun b c c' slot slot' => ?_, ?_⟩
  · rw [parts.fits.getType, parts'.fits.getType, Layout.count_eq_ncard parts.wf,
      Layout.count_eq_ncard parts'.wf, bytes]
  · refine holds.leads holds' values (IsInner.child ⟨reached, q, cell⟩ slot)
      (IsInner.child ⟨reached', q', cell'⟩ slot') ?_
    rw [Layout.find_eq_some parts.wf] at slot
    rw [Layout.find_eq_some parts'.wf] at slot'
    rw [(parts.kid b c slot).keysBelow_eq, (parts'.kid b c' slot').keysBelow_eq]
    ext w
    rw [mem_dom_fiber, mem_dom_fiber, keys, position]
  · rcases reached'.parent with root' | ⟨g', hg', lg', b, above', slot'⟩
    · -- the node of the prefix tree is its root
      obtain ⟨top, root, path⟩ := reached
      obtain ⟨rest, ctx, repR, -, -⟩ := holds.path root (tr.defaultTransform tr.defaultKey)
      obtain ⟨rest', ctx', repR', -, -⟩ := holds'.path root' (tr.defaultTransform tr.defaultKey)
      rw [under_zero] at repR repR'
      obtain ⟨_, partsR', -, -⟩ := repR'.parts cell'
      have depth : h'.depth = 0 := by
        obtain ⟨w, member⟩ := repR'.nonempty
        exact (partsR'.describes w member).1
      rw [← depth] at repR
      refine holds.chain_of_top holds' twin ⟨⟨top, root, path⟩, q, cell⟩ ⟨reached', q', cell'⟩
        ⟨top, root, .refl top⟩ repR ?_ fun q h l wrong => ?_
      · rw [repR.keysBelow_eq, repR'.keysBelow_eq, wholeKeys]
      · obtain ⟨link, sentinel⟩ := holds.sentinel.1
        rw [sentinel] at wrong
        cases wrong
    · -- it is a child of an inner node, which has a twin
      obtain ⟨g, twinG, -⟩ := holds.exists_twin' holds' wholeKeys above'
      obtain ⟨hg, lg, above, two⟩ := twinG.several
      have positionG := (twinG.splits holds holds' above above').2
      have keysG := twinG.keys
      have aboveCopy := above
      obtain ⟨reachedG, qg, cellG⟩ := above
      obtain ⟨reachedG', qg', cellG'⟩ := above'
      obtain ⟨pg, dg, mg, subg, repG, -⟩ := holds.at_reached reachedG
      obtain ⟨pg', dg', mg', subg', repG', -⟩ := holds'.at_reached reachedG'
      obtain ⟨_, partsG, -, -⟩ := repG.parts cellG
      obtain ⟨_, partsG', -, -⟩ := repG'.parts cellG'
      rw [repG.keysBelow_eq, repG'.keysBelow_eq] at keysG
      rw [Layout.find_eq_some partsG'.wf] at slot'
      have kid' := partsG'.kid b a' slot'
      have depth : h'.depth = branch hg' + 1 := by
        obtain ⟨_, partsK, -, -⟩ := kid'.parts cell'
        obtain ⟨w, member⟩ := kid'.nonempty
        exact (partsK.describes w member).1
      obtain ⟨w, member⟩ := kid'.nonempty
      obtain ⟨letter, inG'⟩ := mem_dom_fiber.mp member
      obtain ⟨c, slot⟩ := partsG.child_of_mem (keysG ▸ inG')
      rw [positionG, letter] at slot
      have kid := partsG.kid b c slot
      rw [positionG, ← depth] at kid
      refine holds.chain_of_top holds' twin ⟨reached, q, cell⟩ ⟨reached', q', cell'⟩
        (aboveCopy.child ((Layout.find_eq_some partsG.wf).mpr slot)) kid ?_ fun q h l other => ?_
      · rw [kid.keysBelow_eq, kid'.keysBelow_eq]
        ext w
        rw [mem_dom_fiber, mem_dom_fiber, keysG]
      · rw [cellG] at other
        cases other
        omega

/-- **The prefix tree is the path compression of the plain tree**, for representations of one map. -/
theorem Holds.compresses (holds : Holds tr s e M own) (holds' : Holds tr s' e' M' own')
    (values : values M = values M') : Compresses tr s s' := by
  have keys : dom M = dom M' := by rw [← dom_values M, values, dom_values]
  refine ⟨?_, fun a h l inner two => holds.exists_twin holds' keys inner two,
    fun a' h' l' inner' => holds.exists_twin' holds' keys inner',
    fun a a' h l h' l' twin inner inner' => holds.alike holds' values twin inner inner'⟩
  have k := tr.defaultTransform tr.defaultKey
  rcases root : s.tree.root with _ | r <;> rcases root' : s'.tree.root with _ | r'
  · exact .inl ⟨rfl, rfl⟩
  · obtain ⟨rest', ctx', rep', -, -⟩ := holds'.path root' k
    obtain ⟨w, member⟩ := rep'.nonempty
    rw [under_zero, ← keys, holds.eq_empty root, dom_empty] at member
    exact absurd member (Set.notMem_empty w)
  · obtain ⟨rest, ctx, rep, -, -⟩ := holds.path root k
    obtain ⟨w, member⟩ := rep.nonempty
    rw [under_zero, keys, holds'.eq_empty root', dom_empty] at member
    exact absurd member (Set.notMem_empty w)
  · obtain ⟨rest, ctx, rep, -, -⟩ := holds.path root k
    obtain ⟨rest', ctx', rep', -, -⟩ := holds'.path root' k
    rw [under_zero] at rep rep'
    refine .inr ⟨r, r', rfl, rfl, holds.leads holds' values ⟨r, root, .refl r⟩
      ⟨r', root', .refl r'⟩ ?_⟩
    rw [rep.keysBelow_eq, rep'.keysBelow_eq, keys]

end Trees

/-- **The prefix tree is the path compression of the plain tree.** Two trees that start empty can make
the same calls for ever, and correspond after every step. -/
theorem compression (fits : n ≤ 65536) (tr : Traits K V n) :
    (∀ (mem : Memory (Cell DepthHeader V)) (mem' : Memory (Cell PrefixHeader V)), mem.failAt = none →
      mem'.failAt = none → ∃ s s', init ⟨mem, Tree.uninitialised tr.defaultTransform⟩ = .ok ⟨⟩ s ∧
        init ⟨mem', Tree.uninitialised tr.defaultTransform⟩ = .ok ⟨⟩ s' ∧ Lockstep tr s s') ∧
    ∀ (s : ArTree.State K V n) (s' : ArPrefixTree.State K V n), Lockstep tr s s' →
      Compresses tr s s' ∧ ∀ call call', SameCall tr s s' call call' → ∃ answer answer' t t',
        perform tr call s = .ok answer t ∧ perform tr call' s' = .ok answer' t' ∧ Lockstep tr t t' := by
  constructor
  · intro mem mem' calm calm'
    obtain ⟨s, run, -⟩ := History.started tr calm
    obtain ⟨s', run', -⟩ := History.started tr calm'
    exact ⟨s, s', run, run', .start calm calm' run run'⟩
  · intro s s' lock
    refine ⟨?_, fun call call' same => lock.next fits same⟩
    obtain ⟨m, history, history'⟩ := lock.history
    obtain ⟨e, M, own, holds, rfl⟩ := history.holds trivial
    obtain ⟨e', M', own', holds', same⟩ := history'.holds fits
    exact holds.compresses holds' same.symm

/-- Two keys with a shared prefix in both trees. -/
theorem compression_pair :
    ∃ s s', insertAll (Traits.identity 3) [⟨#v[1, 2, 3]⟩, ⟨#v[1, 2, 4]⟩]
        (blankState DepthHeader (Traits.identity 3)) = .ok ⟨⟩ s ∧
      insertAll (Traits.identity 3) [⟨#v[1, 2, 3]⟩, ⟨#v[1, 2, 4]⟩]
        (blankState PrefixHeader (Traits.identity 3)) = .ok ⟨⟩ s' ∧
      Compresses (Traits.identity 3) s s' := by
  have fits : 3 ≤ 65536 := by decide
  obtain ⟨s, s', run, run', lock⟩ := insertAll_lockstep fits (Traits.identity 3)
    [⟨#v[1, 2, 3]⟩, ⟨#v[1, 2, 4]⟩]
  exact ⟨s, s', run, run', ((compression fits (Traits.identity 3)).2 s s' lock).1⟩

end CppArt
